import Mathlib.Data.List.Basic
import Mathlib.Data.List.Nodup
import Mathlib.Logic.Function.Basic

/-!
# Rings of links

Each node has a link to a next node, or none. `Linked next is n` says that the nodes `is` are linked in their order and the last of them
to `n`, `Ring next is` that no node comes twice and the last is linked to the first. A ring can be walked from each of its nodes,
gets a node at its end and loses one at any place by the change of one link that was there.
-/

namespace Lib

open List

variable {α : Type*} {next next' : α → Option α} {a b i n : α} {is xs ys : List α}

/-- The nodes `is` are linked in this order, and the last of them to `n`. -/
def Linked (next : α → Option α) : List α → α → Prop
  | [], _ => True
  | i :: is, n => next i = some (is.headD n) ∧ Linked next is n

theorem linked_cons : Linked next (i :: is) n ↔ next i = some (is.headD n) ∧ Linked next is n := Iff.rfl

/-- Links taken apart. -/
theorem linked_append : Linked next (xs ++ ys) n ↔ Linked next xs (ys.headD n) ∧ Linked next ys n := by
  induction xs with
  | nil => simp [Linked]
  | cons _ is ih =>
    have hhead : (is ++ ys).headD n = is.headD (ys.headD n) := by cases is <;> rfl
    rw [cons_append, linked_cons, linked_cons, ih, hhead, and_assoc]

/-- The links of other nodes do not matter. -/
theorem Linked.congr (h : Linked next is n) (hnext : ∀ i ∈ is, next' i = next i) : Linked next' is n := by
  induction is with
  | nil => trivial
  | cons _ is ih =>
    rw [forall_mem_cons] at hnext
    exact ⟨hnext.1.trans h.1, ih h.2 hnext.2⟩

/-- The link of a node that is not there is changed. -/
theorem Linked.update [DecidableEq α] (h : Linked next is n) (ha : a ∉ is) (v : Option α) : Linked (Function.update next a v) is n :=
  h.congr fun _ hi => Function.update_of_ne (ne_of_mem_of_not_mem hi ha) v next

/-- The link of the last node is changed. -/
theorem Linked.update_last [DecidableEq α] (h : Linked next (xs ++ [a]) n) (ha : a ∉ xs) (b : α) :
    Linked (Function.update next a (some b)) (xs ++ [a]) b := by
  rw [linked_append] at h ⊢
  exact ⟨h.1.update ha _, Function.update_self .., trivial⟩

/-- No node comes twice, and the last is linked to the first. -/
structure Ring (next : α → Option α) (is : List α) : Prop where
  nodup : is.Nodup
  linked : ∀ i ∈ is.head?, Linked next is i

theorem ring_nil : Ring next [] := ⟨nodup_nil, nofun⟩

theorem ring_cons : Ring next (i :: is) ↔ (i :: is).Nodup ∧ Linked next (i :: is) i :=
  ⟨fun h => ⟨h.nodup, h.linked i rfl⟩, fun h => ⟨h.1, fun _ hj => Option.some.inj hj ▸ h.2⟩⟩

/-- A ring of one node. -/
theorem ring_single (h : next a = some a) : Ring next [a] := ring_cons.mpr ⟨nodup_singleton a, h, trivial⟩

/-- The same ring from another node on. -/
theorem Ring.rotate (h : Ring next (xs ++ ys)) : Ring next (ys ++ xs) := by
  cases xs with
  | nil => rwa [append_nil]
  | cons x xs =>
    cases ys with
    | nil => rwa [append_nil] at h
    | cons y ys =>
      have hlinked := linked_append.mp (h.linked x rfl)
      refine ⟨(perm_append_comm.nodup_iff).mp h.nodup, fun j hj => ?_⟩
      obtain rfl : y = j := Option.some.inj hj
      exact linked_append.mpr ⟨hlinked.2, hlinked.1⟩

/-- The link of a node in a ring. -/
theorem Ring.next_eq (h : Ring next (xs ++ a :: ys)) : next a = some ((ys ++ xs).headD a) := by
  have hrotate : Ring next (a :: (ys ++ xs)) := h.rotate
  exact (ring_cons.mp hrotate).2.1

/-- Each node of a ring is linked to the one behind it, the last to the first. -/
theorem Ring.next_getElem (h : Ring next is) {k : Nat} (hk : k < is.length) : next is[k] = is[(k + 1) % is.length]? := by
  have hsplit : is.take k ++ is[k] :: is.drop (k + 1) = is := by rw [← drop_eq_getElem_cons hk, take_append_drop]
  have hring := h
  rw [← hsplit] at hring
  rw [hring.next_eq]
  by_cases hlast : k + 1 < is.length
  · rw [Nat.mod_eq_of_lt hlast, drop_eq_getElem_cons hlast, cons_append, headD_cons, getElem?_eq_getElem hlast]
  · have hend : k + 1 = is.length := by omega
    rw [hend, Nat.mod_self, drop_length, nil_append]
    cases is with
    | nil => cases hk
    | cons i is =>
      cases k with
      | zero => rfl
      | succ k => rfl

/-- A node is put behind the last one. -/
theorem Ring.concat [DecidableEq α] (h : Ring next (xs ++ [b])) (ha : a ∉ xs ++ [b]) (hi : i = (xs ++ [b]).headD a) :
    Ring (Function.update (Function.update next b (some a)) a (some i)) (xs ++ [b] ++ [a]) := by
  have hb : b ∉ xs := fun hmem => (nodup_append.mp h.nodup).2.2 b hmem b mem_cons_self rfl
  refine ⟨nodup_append.mpr ⟨h.nodup, nodup_singleton a, ?_⟩, fun j hj => ?_⟩
  · intro x hx y hy hxy
    obtain rfl := mem_singleton.mp hy
    exact ha (hxy ▸ hx)
  · obtain ⟨f, fs, hcons⟩ := exists_cons_of_ne_nil (concat_ne_nil b xs)
    have hlinked := h.linked f (by rw [hcons]; rfl)
    rw [hcons] at hi hj
    obtain rfl : i = f := hi
    obtain rfl : i = j := Option.some.inj hj
    exact linked_append.mpr ⟨(hlinked.update_last hb a).update ha _, Function.update_self .., trivial⟩

/-- A node behind another one is taken out. -/
theorem Ring.unlink [DecidableEq α] (h : Ring next (xs ++ [b] ++ a :: ys)) : Ring (Function.update next b (next a)) (xs ++ [b] ++ ys) := by
  have hb : b ∉ xs := fun hmem => (nodup_append.mp (nodup_append.mp h.nodup).1).2.2 b hmem b mem_cons_self rfl
  have hsub : List.Sublist (xs ++ [b] ++ ys) (xs ++ [b] ++ a :: ys) := List.Sublist.append_left (sublist_cons_self a ys) _
  refine ⟨h.nodup.sublist hsub, fun j hj => ?_⟩
  have hhead : j ∈ (xs ++ [b] ++ a :: ys).head? := by
    rw [Option.mem_def, ← Option.mem_def.mp hj]
    cases xs <;> rfl
  have hlinked := linked_append.mp (h.linked j hhead)
  have hys : b ∉ ys := fun hmem =>
    (nodup_append.mp h.nodup).2.2 b (mem_append_right xs mem_cons_self) b (mem_cons_of_mem a hmem) rfl
  refine linked_append.mpr ⟨?_, hlinked.2.2.update hys _⟩
  rw [hlinked.2.1]
  exact hlinked.1.update_last hb _

end Lib
