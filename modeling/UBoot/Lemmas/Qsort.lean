import Mathlib.Data.List.Chain
import UBoot.Lemmas.ExportAux

/-!
# The sort sorts

The gaps of the shell sort end with one, and the pass with a gap of one is an insertion sort. It leaves no element that is greater
than the next one, for any comparison that does not say of two elements that each is greater than the other. `strcmp` is such a
comparison, also for bytes whose difference does not fit a `signed char`, for which it is no order.
-/

namespace UBoot

open List

/-- No element is greater than the next one. -/
def SortedBy {α : Type} (comp : α → α → Int) (l : List α) : Prop := l.IsChain fun a b => comp a b ≤ 0

namespace QsortAux

open ExportAux

section Sorting

variable {α : Type} {comp : α → α → Int}

/-- The innermost loop with a gap of one inserts the element behind the sorted ones: `b` has come down past `C`. -/
theorem qsortSift_sortedBy (hcomp : ∀ a b, 0 < comp a b → comp b a ≤ 0) (A : List α) {b : α} {C : List α} (Q : List α) (fuel : Nat)
    (hA : A ≠ []) (hfuel : A.length ≤ fuel) (hchain : SortedBy comp (A ++ C)) (hb : SortedBy comp (b :: C)) :
    ∃ M, qsortSift comp 1 fuel A.length (A ++ b :: C ++ Q) = M ++ Q ∧ M.length = (A ++ b :: C).length ∧ SortedBy comp M := by
  induction A using List.reverseRecOn generalizing C fuel with
  | nil => exact absurd rfl hA
  | append_singleton A a ih =>
    obtain ⟨fuel, rfl⟩ : ∃ f, fuel = f + 1 := ⟨fuel - 1, by simp at hfuel; omega⟩
    have hlen : (A ++ [a]).length = A.length + 1 := by simp
    have hl : A ++ [a] ++ b :: C ++ Q = A ++ a :: b :: (C ++ Q) := by simp
    have hget : (A ++ a :: b :: (C ++ Q))[A.length + 1 - 1]? = some a := by simp
    have hget' : (A ++ a :: b :: (C ++ Q))[A.length + 1]? = some b := by
      rw [getElem?_append_right (by omega)]
      simp
    have hswap : ((A ++ a :: b :: (C ++ Q)).set (A.length + 1 - 1) b).set (A.length + 1) a = A ++ b :: a :: (C ++ Q) := by
      rw [set_append_right _ _ (by omega), set_append_right _ _ (by omega)]
      simp
    have hsplit : SortedBy comp (A ++ a :: C) := by simpa using hchain
    rw [hlen, hl, qsortSift, hget, hget']
    simp only [hswap]
    by_cases hle : comp a b ≤ 0
    · -- it stays where it is
      refine ⟨A ++ a :: b :: C, by simp [hle], by simp, ?_⟩
      have hleft : SortedBy comp (A ++ [a]) := List.IsChain.left_of_append hchain
      have h : SortedBy comp ((A ++ [a]) ++ b :: C) := by
        refine isChain_append.2 ⟨hleft, hb, fun x hx y hy => ?_⟩
        obtain rfl : a = x := by simpa using hx
        obtain rfl : b = y := by simpa using hy
        exact hle
      rwa [append_assoc] at h
    · -- it goes down by one
      have hba : SortedBy comp (b :: a :: C) := by
        refine isChain_cons_cons.2 ⟨hcomp a b (by omega), ?_⟩
        exact List.IsChain.right_of_append hsplit
      rw [if_neg hle]
      by_cases hmore : A = []
      · subst hmore
        refine ⟨b :: a :: C, by simp, by simp, hba⟩
      · have hpos := length_pos_of_ne_nil hmore
        rw [if_pos (by omega)]
        obtain ⟨M, hM, hMlen, hMchain⟩ := ih (C := a :: C) fuel hmore (by simp at hfuel; omega) hsplit hba
        refine ⟨M, ?_, by simpa using hMlen, hMchain⟩
        rw [← hM]
        simp

/-- The middle loop with a gap of one sorts. -/
theorem qsortPass_sortedBy (hcomp : ∀ a b, 0 < comp a b → comp b a ≤ 0) {P Q : List α} (fuel : Nat) (hP : P ≠ []) (hQ : Q ≠ [])
    (hfuel : Q.length ≤ fuel) (hchain : SortedBy comp P) : SortedBy comp (qsortPass comp 1 fuel P.length (P ++ Q)) := by
  induction fuel generalizing P Q with
  | zero => exact absurd (length_eq_zero_iff.1 (Nat.le_zero.1 hfuel)) hQ
  | succ fuel ih =>
    cases Q with
    | nil => exact absurd rfl hQ
    | cons b Q =>
      have hsift := qsortSift_sortedBy hcomp P (b := b) (C := []) Q (P ++ b :: Q).length hP (by simp)
        (by rw [append_nil]; exact hchain) (isChain_singleton b)
      obtain ⟨M, hM, hMlen, hMchain⟩ := hsift
      have hl : P ++ [b] ++ Q = P ++ b :: Q := by simp
      rw [hl] at hM
      have hMlen' : M.length = P.length + 1 := by simpa using hMlen
      simp only [qsortPass, hM]
      by_cases hmore : P.length + 1 < (P ++ b :: Q).length
      · rw [if_pos hmore, ← hMlen']
        refine ih ?_ ?_ (by simpa using hfuel) hMchain
        · rintro rfl
          simp at hMlen'
        · rintro rfl
          simp at hmore
      · have hnil : Q = [] := by
          rw [length_append, length_cons] at hmore
          exact length_eq_zero_iff.1 (by omega)
        rw [if_neg hmore, hnil, append_nil]
        exact hMchain

/-- The gaps: one, four, thirteen. -/
inductive Gap : Nat → Prop where
  | one : Gap 1
  | next {g : Nat} : Gap g → Gap (3 * g + 1)

theorem Gap.pos {g : Nat} (h : Gap g) : 0 < g := by
  cases h with
  | one => decide
  | next _ => omega

theorem qsortGaps_sortedBy (hcomp : ∀ a b, 0 < comp a b → comp b a ≤ 0) {gap : Nat} (hgap : Gap gap) {fuel : Nat} (hfuel : gap ≤ fuel)
    {l : List α} (hl : 1 < l.length) : SortedBy comp (qsortGaps comp fuel gap l) := by
  induction hgap generalizing fuel l with
  | one =>
    obtain ⟨fuel, rfl⟩ : ∃ f, fuel = f + 1 := ⟨fuel - 1, by omega⟩
    cases l with
    | nil => simp at hl
    | cons a l =>
      have hne : l ≠ [] := by
        rintro rfl
        simp at hl
      have h := qsortPass_sortedBy hcomp (P := [a]) (a :: l).length (cons_ne_nil a []) hne (by simp) (isChain_singleton a)
      simpa [qsortGaps] using h
  | next hg ih =>
    rename_i g
    obtain ⟨fuel, rfl⟩ : ∃ f, fuel = f + 1 := ⟨fuel - 1, by omega⟩
    have hpos := hg.pos
    have hdiv : (3 * g + 1 - 1) / 3 = g := by omega
    simp only [qsortGaps, hdiv]
    rw [if_pos (by omega)]
    refine ih (by omega) ?_
    rw [(qsortPass_perm comp _ _ _ _).length_eq]
    exact hl

theorem qsortGap_spec {nel : Nat} (fuel wgap : Nat) (hnel : 1 < nel) (hw : wgap = 0 ∨ Gap wgap ∧ wgap ≤ nel) (hfuel : nel ≤ fuel + wgap)
    (h0 : 0 < fuel) (hstep : wgap = 0 ∨ wgap < (nel - 1) / 3) : Gap (qsortGap nel fuel wgap) ∧ qsortGap nel fuel wgap ≤ nel := by
  induction fuel generalizing wgap with
  | zero => omega
  | succ fuel ih =>
    have hnext : Gap (3 * wgap + 1) := by
      rcases hw with rfl | ⟨hw, -⟩
      · exact Gap.one
      · exact Gap.next hw
    simp only [qsortGap]
    split <;> rename_i hlt
    · exact ih _ (Or.inr ⟨hnext, by omega⟩) (by omega) (by omega) (Or.inr hlt)
    · exact ⟨hnext, by omega⟩

theorem qsort_sortedBy (hcomp : ∀ a b, 0 < comp a b → comp b a ≤ 0) (l : List α) : SortedBy comp (qsort comp l) := by
  unfold qsort
  split <;> rename_i hl
  · obtain ⟨hgap, hle⟩ := qsortGap_spec l.length 0 hl (Or.inl rfl) (by omega) (by omega) (Or.inl rfl)
    exact qsortGaps_sortedBy hcomp hgap hle hl
  · cases l with
    | nil => exact isChain_nil
    | cons a l =>
      obtain rfl : l = [] := by simpa using hl
      exact isChain_singleton a

theorem qsort_sorts (comp : {f : α → α → Int // ∀ a b, 0 < f a b → f b a ≤ 0}) (l : List α) :
    (qsort comp.1 l).Perm l ∧ SortedBy comp.1 (qsort comp.1 l) := ⟨qsort_perm _ l, qsort_sortedBy comp.2 l⟩

end Sorting

/-- `strcmp` does not say of two strings that each is greater than the other. -/
theorem strcmp_antisymm (s t : CString) (h : 0 < strcmp s t) : strcmp t s ≤ 0 := by
  have hsign (a b : UInt8) (h : 0 < signedChar a b) : signedChar b a ≤ 0 := by
    unfold signedChar at h ⊢
    rw [BitVec.toInt_ofInt] at h ⊢
    unfold Int.bmod at h ⊢
    dsimp only at h ⊢
    have ha := a.toNat_lt
    have hb := b.toNat_lt
    split at h <;> split <;> omega
  have key (as bs : List UInt8) (h : 0 < strcmpBytes as bs) : strcmpBytes bs as ≤ 0 := by
    induction as generalizing bs with
    | nil =>
      cases bs with
      | nil => simp [strcmpBytes] at h
      | cons b bs => exact hsign 0 b h
    | cons a as ih =>
      cases bs with
      | nil => exact hsign a 0 h
      | cons b bs =>
        rw [strcmpBytes] at h ⊢
        by_cases hab : a = b
        · rw [if_pos hab] at h
          rw [if_pos hab.symm]
          exact ih bs h
        · rw [if_neg hab] at h
          rw [if_neg (Ne.symm hab)]
          exact hsign a b h
  exact key s.bytes t.bytes h

end QsortAux
end UBoot
