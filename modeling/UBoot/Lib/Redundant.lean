import Mathlib.Data.Set.Basic
import Mathlib.Logic.Function.Basic

/-!
# Two copies, one of them current

A record is kept in two copies, and a new version is written over the copy that is not current. A rule `choose` says which copy
is taken when nothing but the copies is left. `Safe` is the invariant that makes the rule take a version of a wanted set `W`:
the current copy is intact and wanted, and the other is damaged, or wanted too, or loses to the current one. The lemmas are the
moves of such a scheme: the other copy is damaged or overwritten, the current copy changes sides, and the rule is applied.
-/

namespace Lib

/-- One of two copies. -/
inductive Side where
  | one | two
  deriving DecidableEq, Repr

/-- The other copy. -/
def Side.other : Side → Side
  | .one => .two
  | .two => .one

@[simp] theorem Side.other_other (i : Side) : i.other.other = i := by cases i <;> rfl

@[simp] theorem Side.other_ne (i : Side) : i.other ≠ i := by cases i <;> simp [Side.other]

theorem Side.eq_or_eq_other (i j : Side) : j = i ∨ j = i.other := by
  cases i <;> cases j <;> simp [Side.other]

section Redundant

variable {κ α : Type*}

/-- A rule that takes the only intact copy, takes one of the two if both are intact, and none if neither is. -/
structure ChoiceRule (intact : κ → Prop) (choose : (Side → κ) → Option Side) : Prop where
  intact_of_some : ∀ c i, choose c = some i → intact (c i)
  isSome_of_intact : ∀ c i, intact (c i) → ∃ j, choose c = some j

/-- The current copy is intact and wanted; the other is damaged, or wanted, or loses to the current one. -/
structure Safe (intact : κ → Prop) (data : κ → α) (choose : (Side → κ) → Option Side) (W : Set α) (c : Side → κ)
    (cur : Side) : Prop where
  intact_cur : intact (c cur)
  wanted_cur : data (c cur) ∈ W
  other : ¬intact (c cur.other) ∨ data (c cur.other) ∈ W ∨ choose c = some cur

variable {intact : κ → Prop} {data : κ → α} {choose : (Side → κ) → Option Side} {W W' : Set α} {c : Side → κ} {cur : Side}

namespace Safe

/-- More versions may be wanted. -/
theorem mono (h : Safe intact data choose W c cur) (hW : W ⊆ W') : Safe intact data choose W' c cur :=
  ⟨h.intact_cur, hW h.wanted_cur, h.other.imp_right (Or.imp_left fun hd => hW hd)⟩

/-- The rule takes an intact copy of a wanted version. -/
theorem exists_choose (hr : ChoiceRule intact choose) (h : Safe intact data choose W c cur) : ∃ i, choose c = some i ∧ data (c i) ∈ W := by
  obtain ⟨i, hi⟩ := hr.isSome_of_intact c cur h.intact_cur
  refine ⟨i, hi, ?_⟩
  rcases Side.eq_or_eq_other cur i with rfl | rfl
  · exact h.wanted_cur
  · rcases h.other with hbad | hw | hcur
    · exact absurd (hr.intact_of_some c _ hi) hbad
    · exact hw
    · rw [hi, Option.some.injEq] at hcur
      exact absurd hcur (Side.other_ne cur)

/-- The copy the rule takes may become the current one. -/
theorem of_choose (hr : ChoiceRule intact choose) (h : Safe intact data choose W c cur) {i : Side} (hi : choose c = some i) :
    Safe intact data choose W c i := by
  obtain ⟨j, hj, hw⟩ := h.exists_choose hr
  obtain rfl : j = i := Option.some.inj (hj.symm.trans hi)
  exact ⟨hr.intact_of_some c j hi, hw, Or.inr (Or.inr hi)⟩

/-- The other copy may stay, be damaged, or be overwritten with a version that is wanted from then on. -/
theorem update_other (h : Safe intact data choose W c cur) (hW : W ⊆ W') {k : κ}
    (hk : k = c cur.other ∨ ¬intact k ∨ data k ∈ W') : Safe intact data choose W' (Function.update c cur.other k) cur := by
  rcases hk with rfl | hk
  · rw [Function.update_eq_self]
    exact h.mono hW
  · have hcur : Function.update c cur.other k cur = c cur := Function.update_of_ne (Side.other_ne cur).symm k c
    refine ⟨by rw [hcur]; exact h.intact_cur, by rw [hcur]; exact hW h.wanted_cur, ?_⟩
    rw [Function.update_self]
    exact hk.imp_right Or.inl

end Safe

/-- Two copies of which one is intact and wanted and the other wanted. -/
theorem safe_of_wanted (hi : intact (c cur)) (hw : data (c cur) ∈ W) (ho : data (c cur.other) ∈ W) :
    Safe intact data choose W c cur := ⟨hi, hw, Or.inr (Or.inl ho)⟩

end Redundant

end Lib
