import Mathlib.Data.List.GetD
import Mathlib.Logic.Function.Basic

/-!
# Cells of a memory

A memory is a function from addresses to cells. `Stored m a xs` says that the cells from address `a` on hold the list `xs`, and
`store m a xs` is the memory after the list was copied there. The rules say how what is stored splits, what a copy stores,
and what it leaves alone.
-/

namespace Lib

open List

variable {α : Type*}

/-- The cells of `m` from address `a` on hold `xs`. -/
def Stored (m : Nat → α) (a : Nat) (xs : List α) : Prop := ∀ i x, xs[i]? = some x → m (a + i) = x

/-- The memory `m` with the list `xs` copied to address `a`. -/
def store (m : Nat → α) (a : Nat) (xs : List α) : Nat → α := fun b => if a ≤ b then xs[b - a]?.getD (m b) else m b

theorem stored_nil (m : Nat → α) (a : Nat) : Stored m a [] := by
  intro i x h
  simp at h

theorem stored_cons {m : Nat → α} {a : Nat} {x : α} {xs : List α} : Stored m a (x :: xs) ↔ m a = x ∧ Stored m (a + 1) xs := by
  constructor
  · intro h
    refine ⟨h 0 x rfl, ?_⟩
    intro i y hy
    rw [← h (i + 1) y (by simpa using hy), Nat.add_assoc, Nat.add_comm 1]
  · rintro ⟨h0, h⟩ i y hy
    cases i with
    | zero => simpa [h0] using hy
    | succ i =>
      rw [← h i y (by simpa using hy), Nat.add_assoc, Nat.add_comm 1]

theorem stored_append {m : Nat → α} {a : Nat} {xs ys : List α} : Stored m a (xs ++ ys) ↔ Stored m a xs ∧ Stored m (a + xs.length) ys := by
  induction xs generalizing a with
  | nil => simp [stored_nil]
  | cons x xs ih =>
    rw [cons_append, stored_cons, stored_cons, ih, length_cons, and_assoc, Nat.add_assoc, Nat.add_comm 1]

/-- What is stored at an address is what is read there first. -/
theorem Stored.prefix_map_range {m : Nat → α} {a n : Nat} {xs : List α} (h : Stored m a xs) (hn : xs.length ≤ n) :
    xs <+: (List.range n).map fun i => m (a + i) := by
  rw [prefix_iff_getElem?]
  intro i hi
  rw [getElem?_map, getElem?_range (Nat.lt_of_lt_of_le hi hn), Option.map_some, h i _ (getElem?_eq_getElem hi)]

/-- A copy leaves the cells outside its range alone. -/
theorem store_of_outside {m : Nat → α} {a b : Nat} {xs : List α} (h : b < a ∨ a + xs.length ≤ b) : store m a xs b = m b := by
  unfold store
  split
  · rw [getElem?_eq_none (by omega), Option.getD_none]
  · rfl

theorem store_nil (m : Nat → α) (a : Nat) : store m a [] = m := by
  funext b
  exact store_of_outside (by simp [Nat.lt_or_ge])

/-- A copy stores its list. -/
theorem stored_store (m : Nat → α) (a : Nat) (xs : List α) : Stored (store m a xs) a xs := by
  intro i x h
  simp [store, h]

/-- A copy cell by cell. -/
theorem store_cons (m : Nat → α) (a : Nat) (x : α) (xs : List α) : store m a (x :: xs) = store (Function.update m a x) (a + 1) xs := by
  funext b
  rcases Nat.lt_trichotomy b a with h | rfl | h
  · rw [store_of_outside (Or.inl h), store_of_outside (Or.inl (by omega)), Function.update_of_ne (by omega)]
  · have hb : store (Function.update m b x) (b + 1) xs b = x := by
      rw [store_of_outside (Or.inl (Nat.lt_succ_self b)), Function.update_self]
    rw [hb]
    simp [store]
  · obtain ⟨i, rfl⟩ := Nat.exists_eq_add_of_lt h
    have h1 : a + i + 1 - a = i + 1 := by omega
    have h2 : a + i + 1 - (a + 1) = i := by omega
    have h3 : a + i + 1 ≠ a := by omega
    simp [store, h1, h2, h3, Function.update_of_ne, show a ≤ a + i + 1 by omega]

/-- A cell written after a copy extends the copy. -/
theorem update_store (m : Nat → α) (a : Nat) (xs : List α) (x : α) :
    Function.update (store m a xs) (a + xs.length) x = store m a (xs ++ [x]) := by
  induction xs generalizing m a with
  | nil => simp only [length_nil, Nat.add_zero, nil_append, store_cons, store_nil]
  | cons y xs ih => rw [cons_append, store_cons, store_cons, length_cons, ← Nat.add_assoc, Nat.add_right_comm, ih]

/-- A copy behind a copy. -/
theorem store_store (m : Nat → α) (a : Nat) (xs ys : List α) : store (store m a xs) (a + xs.length) ys = store m a (xs ++ ys) := by
  induction xs generalizing m a with
  | nil => simp [store_nil]
  | cons x xs ih => rw [cons_append, store_cons, store_cons, length_cons, ← Nat.add_assoc, Nat.add_right_comm, ih]

/-- What is stored outside the range of a copy stays. -/
theorem Stored.store_outside {m : Nat → α} {a b : Nat} {xs ys : List α} (h : Stored m b ys)
    (hd : b + ys.length ≤ a ∨ a + xs.length ≤ b) : Stored (store m a xs) b ys := by
  intro i y hy
  have hi := (List.getElem?_eq_some_iff.1 hy).1
  rw [store_of_outside (by omega), h i y hy]

/-- The cells of a list of addresses got the values of a list, and no other cell has changed. -/
structure Laid (m m' : Nat → α) (addrs : List Nat) (xs : List α) : Prop where
  values : addrs.map m' = xs
  frame : ∀ a, a ∉ addrs → m' a = m a

theorem Laid.nil (m : Nat → α) : Laid m m [] [] := ⟨rfl, fun _ _ => rfl⟩

/-- Two lists of cells one after the other. -/
theorem Laid.append {m m' m'' : Nat → α} {as bs : List Nat} {xs ys : List α} (h : Laid m m' as xs) (h' : Laid m' m'' bs ys)
    (hd : ∀ a ∈ as, a ∉ bs) : Laid m m'' (as ++ bs) (xs ++ ys) := by
  refine ⟨?_, ?_⟩
  · rw [map_append, h'.values, ← h.values]
    congr 1
    exact map_congr_left fun a ha => h'.frame a (hd a ha)
  · intro a ha
    rw [h'.frame a fun hb => ha (mem_append_right _ hb), h.frame a fun hb => ha (mem_append_left _ hb)]

/-- A copy of the first part of a list, where the cells hold the rest already. -/
theorem laid_store {m : Nat → α} {a n : Nat} {xs ys : List α} (hlen : (xs ++ ys).length = n)
    (hrest : ∀ i y, ys[i]? = some y → m (a + xs.length + i) = y) : Laid m (store m a xs) (List.range' a n) (xs ++ ys) := by
  refine ⟨?_, ?_⟩
  · apply ext_getElem?
    intro i
    by_cases hi : i < n
    · rw [getElem?_map, getElem?_range' hi, Option.map_some, Nat.one_mul]
      rcases Nat.lt_or_ge i xs.length with h | h
      · rw [getElem?_append_left h, getElem?_eq_getElem h]
        exact congrArg some (stored_store m a xs i _ (getElem?_eq_getElem h))
      · have hy : i - xs.length < ys.length := by
          rw [length_append] at hlen
          omega
        rw [getElem?_append_right h, getElem?_eq_getElem hy, store_of_outside (Or.inr (by omega))]
        have := hrest (i - xs.length) _ (getElem?_eq_getElem hy)
        rw [← this]
        congr 2
        omega
    · rw [getElem?_eq_none (by simpa using Nat.le_of_not_lt hi), getElem?_eq_none (by omega)]
  · intro b hb
    apply store_of_outside
    rw [mem_range'_1] at hb
    rw [length_append] at hlen
    omega

end Lib
