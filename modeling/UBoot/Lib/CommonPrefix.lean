import Mathlib.Data.List.Infix

/-!
# Common prefixes

The longest list that is a prefix of each of some lists, and what comes of putting the end of a list behind another list.
-/

namespace Lib

open List

variable {α : Type*} [DecidableEq α]

/-- What two lists begin with. -/
def commonPrefix : List α → List α → List α
  | a :: l, b :: l' => if a = b then a :: commonPrefix l l' else []
  | _, _ => []

/-- What all of some lists begin with. -/
def longestCommonPrefix : List (List α) → List α
  | [] => []
  | l :: ls => ls.foldl commonPrefix l

theorem commonPrefix_nil_right (l : List α) : commonPrefix l [] = [] := by
  cases l with
  | nil => rfl
  | cons _ _ => rfl

/-- The common prefixes of two lists are the prefixes of the longest one. -/
theorem prefix_commonPrefix_iff {p l l' : List α} : p <+: commonPrefix l l' ↔ p <+: l ∧ p <+: l' := by
  induction l generalizing l' p with
  | nil =>
    have hnil : commonPrefix [] l' = [] := rfl
    rw [hnil, prefix_nil]
    refine ⟨?_, fun h => h.1⟩
    rintro rfl
    exact ⟨rfl, List.nil_prefix⟩
  | cons a l ih =>
    cases l' with
    | nil =>
      rw [commonPrefix_nil_right, prefix_nil]
      refine ⟨?_, fun h => h.2⟩
      rintro rfl
      exact ⟨List.nil_prefix, rfl⟩
    | cons b l' =>
      rw [commonPrefix]
      cases p with
      | nil => exact iff_of_true nil_prefix ⟨List.nil_prefix, List.nil_prefix⟩
      | cons c p =>
        rw [cons_prefix_cons, cons_prefix_cons]
        split
        · rename_i hab
          rw [cons_prefix_cons, ih, ← hab]
          exact ⟨fun h => ⟨⟨h.1, h.2.1⟩, h.1, h.2.2⟩, fun h => ⟨h.1.1, h.1.2, h.2.2⟩⟩
        · rename_i hab
          refine iff_of_false (fun h => cons_ne_nil _ _ (prefix_nil.1 h)) fun h => hab ?_
          exact h.1.1.symm.trans h.2.1

theorem prefix_foldl_commonPrefix_iff {p l : List α} {ls : List (List α)} : p <+: ls.foldl commonPrefix l ↔ p <+: l ∧ ∀ x ∈ ls, p <+: x := by
  induction ls generalizing l with
  | nil => simp
  | cons x ls ih => rw [foldl_cons, ih, prefix_commonPrefix_iff, forall_mem_cons, and_assoc]

/-- The common prefixes of some lists are the prefixes of the longest one. -/
theorem prefix_longestCommonPrefix_iff {p : List α} {ls : List (List α)} (h : ls ≠ []) : p <+: longestCommonPrefix ls ↔ ∀ x ∈ ls, p <+: x := by
  cases ls with
  | nil => exact absurd rfl h
  | cons l ls => rw [longestCommonPrefix, prefix_foldl_commonPrefix_iff, forall_mem_cons]

theorem longestCommonPrefix_begins {l : List α} {ls : List (List α)} (h : l ∈ ls) : longestCommonPrefix ls <+: l :=
  (prefix_longestCommonPrefix_iff (ne_nil_of_mem h)).1 (prefix_refl _) l h

omit [DecidableEq α] in
/-- The end of a list continues a list of the length of its beginning just if that is its beginning. -/
theorem append_drop_prefix_iff {w p : List α} (h : w.length ≤ p.length) : w ++ p.drop w.length <+: p ↔ w <+: p := by
  constructor
  · exact (prefix_append w _).trans
  · rintro ⟨t, rfl⟩
    rw [drop_left]

end Lib
