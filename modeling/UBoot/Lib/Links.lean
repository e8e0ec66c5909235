import Mathlib.Data.List.Basic
import Mathlib.Data.List.Nodup
import Mathlib.Logic.Function.Basic

/-!
# Doubly linked lists

The links of a doubly linked list are two functions on the nodes, `nx` to the next and `pv` to the previous one. `Seg nx pv p is n`
says that the nodes `is` are linked in their order, with `p` before the first and `n` behind the last. A segment is taken apart
at any place, and survives a change of the links that leave it on either side.
-/

namespace Lib

open List

variable {α : Type*} {nx pv nx' pv' : α → α} {p p' n n' i : α} {is xs ys : List α}

/-- The nodes `is` are linked in this order, with `p` before the first and `n` behind the last. -/
def Seg (nx pv : α → α) : α → List α → α → Prop
  | _, [], _ => True
  | p, i :: is, n => pv i = p ∧ nx i = is.headD n ∧ Seg nx pv i is n

theorem seg_nil : Seg nx pv p [] n := trivial

theorem seg_cons : Seg nx pv p (i :: is) n ↔ pv i = p ∧ nx i = is.headD n ∧ Seg nx pv i is n := Iff.rfl

theorem headD_append (xs ys : List α) (n : α) : (xs ++ ys).headD n = xs.headD (ys.headD n) := by
  cases xs <;> rfl

/-- A segment taken apart. -/
theorem seg_append : Seg nx pv p (xs ++ ys) n ↔ Seg nx pv p xs (ys.headD n) ∧ Seg nx pv (xs.getLastD p) ys n := by
  induction xs generalizing p with
  | nil => simp [Seg]
  | cons i is ih => simp only [cons_append, seg_cons, ih, headD_append, getLastD_cons, and_assoc]

/-- The link of the last node leaves the segment. -/
theorem Seg.next_last (h : Seg nx pv p is n) (hne : is ≠ []) : nx (is.getLastD p) = n := by
  induction is generalizing p with
  | nil => exact absurd rfl hne
  | cons i is ih =>
    rw [getLastD_cons]
    cases is with
    | nil => exact h.2.1
    | cons j js => exact ih h.2.2 (cons_ne_nil j js)

/-- Links outside a segment do not matter. -/
theorem Seg.congr (h : Seg nx pv p is n) (hnx : ∀ i ∈ is, nx' i = nx i) (hpv : ∀ i ∈ is, pv' i = pv i) : Seg nx' pv' p is n := by
  induction is generalizing p with
  | nil => exact seg_nil
  | cons i is ih =>
    obtain ⟨h1, h2, h3⟩ := h
    rw [forall_mem_cons] at hnx hpv
    exact ⟨hpv.1.trans h1, hnx.1.trans h2, ih h3 hnx.2 hpv.2⟩

/-- The link that leaves a segment at its end is changed. -/
theorem Seg.exit [DecidableEq α] (h : Seg nx pv p is n) (hnd : is.Nodup) (hpv : ∀ i ∈ is, pv' i = pv i)
    (hnx : ∀ i ∈ is, nx' i = if i = is.getLastD p then n' else nx i) : Seg nx' pv' p is n' := by
  induction is generalizing p with
  | nil => exact seg_nil
  | cons i is ih =>
    obtain ⟨h1, h2, h3⟩ := h
    rw [nodup_cons] at hnd
    rw [forall_mem_cons] at hnx hpv
    rw [getLastD_cons] at hnx
    refine ⟨hpv.1.trans h1, ?_, ih h3 hnd.2 hpv.2 hnx.2⟩
    cases is with
    | nil => exact hnx.1.trans (if_pos rfl)
    | cons j js =>
      have hne : i ≠ (j :: js).getLastD i := by
        intro he
        refine hnd.1 ?_
        rw [he, getLastD_cons]
        exact getLastD_mem_cons
      rw [hnx.1, if_neg hne, h2]
      rfl

/-- The link that leaves a segment at its beginning is changed. -/
theorem Seg.entry [DecidableEq α] (h : Seg nx pv p is n) (hnd : is.Nodup) (hnx : ∀ i ∈ is, nx' i = nx i)
    (hpv : ∀ i ∈ is, pv' i = if i = is.headD n then p' else pv i) : Seg nx' pv' p' is n := by
  cases is with
  | nil => exact seg_nil
  | cons i is =>
    obtain ⟨-, h2, h3⟩ := h
    rw [nodup_cons] at hnd
    rw [forall_mem_cons] at hnx hpv
    refine ⟨hpv.1.trans (if_pos rfl), hnx.1.trans h2, h3.congr hnx.2 ?_⟩
    intro j hj
    rw [hpv.2 j hj, if_neg]
    rintro rfl
    exact hnd.1 hj

/-- The part `old` in the middle of a segment is replaced by `mid`. -/
theorem Seg.splice [DecidableEq α] {pre old post mid : List α} (h : Seg nx pv p (pre ++ old ++ post) n) (hnd : (pre ++ old ++ post).Nodup)
    (hpre : ∀ i ∈ pre, pv' i = pv i ∧ nx' i = if i = pre.getLastD p then (mid ++ post).headD n else nx i)
    (hmid : Seg nx' pv' (pre.getLastD p) mid (post.headD n))
    (hpost : ∀ i ∈ post, nx' i = nx i ∧ pv' i = if i = post.headD n then mid.getLastD (pre.getLastD p) else pv i) :
    Seg nx' pv' p (pre ++ (mid ++ post)) n := by
  rw [append_assoc, seg_append, seg_append] at h
  rw [append_assoc] at hnd
  have hnd1 := hnd.of_append_left
  have hnd2 := hnd.of_append_right.of_append_right
  rw [seg_append, seg_append]
  refine ⟨?_, hmid, ?_⟩
  · exact h.1.exit hnd1 (fun i hi => (hpre i hi).1) (fun i hi => (hpre i hi).2)
  · exact h.2.2.entry hnd2 (fun i hi => (hpost i hi).1) (fun i hi => (hpost i hi).2)

end Lib
