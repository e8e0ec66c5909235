import Mathlib.Logic.Function.Basic
import Mathlib.Tactic.Common

/-!
# The first entries of a table

A table is a function from indices to entries, of which the first `n` are in use. `Ordered r f n` says that the entries in use are
in order for the relation `r`, and `Any P f n` that one of them satisfies `P`. An entry may be replaced, removed by moving the
ones after it down, or inserted by moving the ones from its place on up.
-/

namespace Lib

open Function

variable {α : Type*} {r : α → α → Prop} {P : α → Prop} {f g : Nat → α} {n : Nat}

/-- The first `n` entries are in order. -/
def Ordered (r : α → α → Prop) (f : Nat → α) (n : Nat) : Prop := ∀ i j, i < j → j < n → r (f i) (f j)

/-- One of the first `n` entries satisfies `P`. -/
def Any (P : α → Prop) (f : Nat → α) (n : Nat) : Prop := ∃ i < n, P (f i)

/-- The table without entry `p`. -/
def removeAt (f : Nat → α) (p : Nat) : Nat → α := fun j => if j < p then f j else f (j + 1)

/-- The table with `x` inserted as entry `p`. -/
def insertAt (f : Nat → α) (p : Nat) (x : α) : Nat → α := fun j => if j < p then f j else if j = p then x else f (j - 1)

theorem removeAt_of_lt {p j : Nat} (h : j < p) : removeAt f p j = f j := if_pos h

theorem removeAt_of_le {p j : Nat} (h : p ≤ j) : removeAt f p j = f (j + 1) := if_neg (by omega)

theorem insertAt_of_lt {p j : Nat} {x : α} (h : j < p) : insertAt f p x j = f j := if_pos h

theorem insertAt_self {p : Nat} {x : α} : insertAt f p x p = x := by simp [insertAt]

theorem insertAt_of_le {p j : Nat} {x : α} (h : p ≤ j) : insertAt f p x (j + 1) = f j := by
  simp [insertAt, show ¬j + 1 < p by omega, show ¬j + 1 = p by omega]

theorem Ordered.congr (h : Ordered r f n) (he : ∀ i < n, g i = f i) : Ordered r g n := by
  intro i j hij hj
  rw [he i (by omega), he j hj]
  exact h i j hij hj

theorem any_congr (he : ∀ i < n, g i = f i) : Any P g n ↔ Any P f n := by
  constructor
  · rintro ⟨i, hi, hp⟩
    exact ⟨i, hi, he i hi ▸ hp⟩
  · rintro ⟨i, hi, hp⟩
    exact ⟨i, hi, (he i hi).symm ▸ hp⟩

/-! ## Replacing an entry -/

theorem Ordered.update (h : Ordered r f n) {p : Nat} {x : α} (hlo : ∀ j < p, r (f j) x)
    (hhi : ∀ j, p < j → j < n → r x (f j)) : Ordered r (Function.update f p x) n := by
  intro i j hij hj
  by_cases hi : i = p
  · subst hi
    rw [update_self, update_of_ne (by omega)]
    exact hhi j hij hj
  · rw [update_of_ne hi]
    by_cases hjp : j = p
    · subst hjp
      rw [update_self]
      exact hlo i hij
    · rw [update_of_ne hjp]
      exact h i j hij hj

theorem any_update {p : Nat} (hp : p < n) {x : α} : Any P (Function.update f p x) n ↔ P x ∨ ∃ j < n, j ≠ p ∧ P (f j) := by
  constructor
  · rintro ⟨i, hi, hpi⟩
    by_cases he : i = p
    · rw [he, update_self] at hpi
      exact Or.inl hpi
    · rw [update_of_ne he] at hpi
      exact Or.inr ⟨i, hi, he, hpi⟩
  · rintro (hx | ⟨j, hj, he, hpj⟩)
    · exact ⟨p, hp, by rwa [update_self]⟩
    · exact ⟨j, hj, by rwa [update_of_ne he]⟩

/-- One entry satisfies `P`: the one at `p`, or another. -/
theorem any_iff {p : Nat} (hp : p < n) : Any P f n ↔ P (f p) ∨ ∃ j < n, j ≠ p ∧ P (f j) := by
  rw [← any_update hp, update_eq_self]

/-! ## Removing an entry -/

theorem Ordered.removeAt (h : Ordered r f n) (p : Nat) : Ordered r (Lib.removeAt f p) (n - 1) := by
  intro i j hij hj
  unfold Lib.removeAt
  split <;> split <;> exact h _ _ (by omega) (by omega)

theorem any_removeAt {p : Nat} (hp : p < n) : Any P (removeAt f p) (n - 1) ↔ ∃ j < n, j ≠ p ∧ P (f j) := by
  constructor
  · rintro ⟨i, hi, hpi⟩
    rcases Nat.lt_or_ge i p with hip | hip
    · exact ⟨i, by omega, by omega, by rwa [removeAt_of_lt hip] at hpi⟩
    · exact ⟨i + 1, by omega, by omega, by rwa [removeAt_of_le hip] at hpi⟩
  · rintro ⟨j, hj, hne, hpj⟩
    rcases Nat.lt_or_ge j p with hjp | hjp
    · exact ⟨j, by omega, by rwa [removeAt_of_lt hjp]⟩
    · obtain ⟨i, rfl⟩ : ∃ i, j = i + 1 := ⟨j - 1, by omega⟩
      exact ⟨i, by omega, by rwa [removeAt_of_le (by omega)]⟩

/-! ## Inserting an entry -/

theorem Ordered.insertAt (h : Ordered r f n) {p : Nat} (hp : p ≤ n) {x : α} (hlo : ∀ j < p, r (f j) x)
    (hhi : ∀ j, p ≤ j → j < n → r x (f j)) : Ordered r (Lib.insertAt f p x) (n + 1) := by
  intro i j hij hj
  unfold Lib.insertAt
  by_cases hip : i < p
  · rw [if_pos hip]
    split
    · exact h i j hij (by omega)
    · split
      · exact hlo i hip
      · exact h i (j - 1) (by omega) (by omega)
  · rw [if_neg hip, if_neg (show ¬j < p by omega), if_neg (show ¬j = p by omega)]
    split
    · exact hhi (j - 1) (by omega) (by omega)
    · exact h (i - 1) (j - 1) (by omega) (by omega)

theorem any_insertAt {p : Nat} (hp : p ≤ n) {x : α} : Any P (insertAt f p x) (n + 1) ↔ P x ∨ Any P f n := by
  constructor
  · rintro ⟨i, hi, hpi⟩
    rcases Nat.lt_trichotomy i p with hip | rfl | hip
    · exact Or.inr ⟨i, by omega, by rwa [insertAt_of_lt hip] at hpi⟩
    · exact Or.inl (by rwa [insertAt_self] at hpi)
    · obtain ⟨j, rfl⟩ : ∃ j, i = j + 1 := ⟨i - 1, by omega⟩
      exact Or.inr ⟨j, by omega, by rwa [insertAt_of_le (show p ≤ j by omega)] at hpi⟩
  · rintro (hx | ⟨j, hj, hpj⟩)
    · exact ⟨p, by omega, by rwa [insertAt_self]⟩
    · rcases Nat.lt_or_ge j p with hjp | hjp
      · exact ⟨j, by omega, by rwa [insertAt_of_lt hjp]⟩
      · exact ⟨j + 1, by omega, by rwa [insertAt_of_le hjp]⟩

end Lib
