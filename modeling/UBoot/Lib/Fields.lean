import Mathlib.Data.List.Basic

/-!
# Fields with separators

A text of fields has a separator between two fields and a stop behind the last one. Splitting what is before the stop at its separators
gives the fields. The first occurrences of the elements of a list are counted one element at a time.
-/

namespace Lib

open List

variable {α : Type*} [DecidableEq α]

/-- Fields with a separator between them and a stop behind the last. -/
def joined (sep stop : α) : List (List α) → List α
  | [] => [stop]
  | [f] => f ++ [stop]
  | f :: g :: fs => f ++ sep :: joined sep stop (g :: fs)

/-- The text of the fields that a list is split into. -/
theorem joined_splitOn (sep stop : α) (xs : List α) : joined sep stop (xs.splitOn sep) = xs ++ [stop] := by
  induction xs with
  | nil => rfl
  | cons x xs ih =>
    obtain ⟨f, fs, hsplit⟩ := exists_cons_of_ne_nil (splitOn_ne_nil sep xs)
    rw [hsplit] at ih
    rw [splitOn_cons_eq_if_modifyHead, hsplit]
    by_cases hx : x = sep
    · rw [if_pos (beq_iff_eq.mpr hx), joined, ih, hx]
      rfl
    · rw [if_neg (mt beq_iff_eq.mp hx), modifyHead_cons, cons_append, ← ih]
      cases fs with
      | nil => rfl
      | cons g fs => rfl

/-- A field has no separator, and its elements are the list's. -/
theorem mem_of_mem_splitOn {sep x : α} {xs f : List α} (hf : f ∈ xs.splitOn sep) (hx : x ∈ f) : x ≠ sep ∧ x ∈ xs := by
  induction xs generalizing f with
  | nil =>
    obtain rfl : f = [] := by simpa using hf
    cases hx
  | cons y xs ih =>
    obtain ⟨g, fs, hsplit⟩ := exists_cons_of_ne_nil (splitOn_ne_nil sep xs)
    rw [splitOn_cons_eq_if_modifyHead, hsplit] at hf
    rw [hsplit] at ih
    by_cases hy : y = sep
    · rw [if_pos (beq_iff_eq.mpr hy)] at hf
      rcases mem_cons.mp hf with rfl | hf
      · cases hx
      · exact ⟨(ih hf hx).1, mem_cons_of_mem y (ih hf hx).2⟩
    · rw [if_neg (mt beq_iff_eq.mp hy), modifyHead_cons] at hf
      rcases mem_cons.mp hf with rfl | hf
      · rcases mem_cons.mp hx with rfl | hx
        · exact ⟨hy, mem_cons_self⟩
        · have hmem := ih mem_cons_self hx
          exact ⟨hmem.1, mem_cons_of_mem y hmem.2⟩
      · have hmem := ih (mem_cons_of_mem g hf) hx
        exact ⟨hmem.1, mem_cons_of_mem y hmem.2⟩

/-- A list has at most one field more than elements. -/
theorem length_splitOn_le (sep : α) (xs : List α) : (xs.splitOn sep).length ≤ xs.length + 1 := by
  induction xs with
  | nil => exact Nat.le_refl 1
  | cons x xs ih =>
    rw [splitOn_cons_eq_if_modifyHead, length_cons]
    split
    · rw [length_cons]
      exact Nat.succ_le_succ ih
    · rw [length_modifyHead]
      exact Nat.le_succ_of_le ih

/-- The first occurrences of the elements of a list, with one more element. -/
theorem eraseDups_concat (xs : List α) (x : α) : (xs ++ [x]).eraseDups = if x ∈ xs.eraseDups then xs.eraseDups else xs.eraseDups ++ [x] := by
  rw [eraseDups_append]
  by_cases hx : x ∈ xs
  · rw [if_pos (mem_eraseDups.mpr hx)]
    simp [List.removeAll, hx]
  · rw [if_neg (mt mem_eraseDups.mp hx)]
    simp [List.removeAll, hx, eraseDups_cons]

end Lib
