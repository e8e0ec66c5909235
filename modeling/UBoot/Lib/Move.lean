import Mathlib.Logic.Function.Basic
import Mathlib.Order.Basic

/-!
# Moving cells within a memory

`move m dst src n` is the memory after `n` cells went from `src` to `dst` at once, whether or not the two ranges overlap. Moved one by
one, the cells arrive unchanged in the order that reads a cell before it is written; moved in chunks, first chunk first, exactly
when no chunk has replaced a cell that a later one reads.
-/

namespace Lib

open Function

variable {α : Type*}

/-- The memory after `n` cells at `src` were moved to `dst` at once. -/
def move (m : Nat → α) (dst src n : Nat) : Nat → α := fun b => if dst ≤ b ∧ b < dst + n then m (src + (b - dst)) else m b

/-- Cells moved one by one, the first one first. -/
def moveUp (m : Nat → α) (dst src : Nat) : Nat → Nat → α
  | 0 => m
  | n + 1 => moveUp (Function.update m dst (m src)) (dst + 1) (src + 1) n

/-- Cells moved one by one, the last one first. -/
def moveDown (m : Nat → α) (dst src : Nat) : Nat → Nat → α
  | 0 => m
  | n + 1 => moveDown (Function.update m (dst + n) (m (src + n))) dst src n

/-- Cells moved `c` at a time, the first ones first, in at most as many rounds as the first argument says. -/
def moveChunks (c : Nat) : Nat → (Nat → α) → Nat → Nat → Nat → Nat → α
  | 0, m, _, _, _ => m
  | rounds + 1, m, dst, src, n =>
    if n = 0 then m
    else
      let tail := if c < n then c else n
      moveChunks c rounds (move m dst src tail) (dst + tail) (src + tail) (n - tail)

/-- A cell of the range that is written. -/
theorem move_at (m : Nat → α) (dst src : Nat) {n i : Nat} (h : i < n) : move m dst src n (dst + i) = m (src + i) := by
  rw [move, if_pos ⟨Nat.le_add_right _ _, by omega⟩, Nat.add_sub_cancel_left]

/-- A move leaves the cells outside its range alone. -/
theorem move_of_outside {m : Nat → α} {dst src n b : Nat} (h : b < dst ∨ dst + n ≤ b) : move m dst src n b = m b := by
  rw [move, if_neg (by omega)]

/-- Cells moved to where they are. -/
theorem move_self (m : Nat → α) (a n : Nat) : move m a a n = m := by
  funext b
  unfold move
  split
  next h => rw [Nat.add_sub_cancel' h.1]
  next => rfl

/-- A memory is the moved one when its cells are. -/
theorem eq_move_iff {m m' : Nat → α} {dst src n : Nat} (hframe : ∀ b, b < dst ∨ dst + n ≤ b → m' b = m b) :
    m' = move m dst src n ↔ ∀ i < n, m' (dst + i) = m (src + i) := by
  constructor
  · rintro rfl i hi
    exact move_at m dst src hi
  · intro h
    funext b
    rcases Nat.lt_or_ge b dst with hb | hb
    · rw [hframe b (Or.inl hb), move_of_outside (Or.inl hb)]
    · obtain ⟨i, rfl⟩ := Nat.exists_eq_add_of_le hb
      rcases Nat.lt_or_ge i n with hi | hi
      · rw [h i hi, move_at m dst src hi]
      · rw [hframe _ (Or.inr (by omega)), move_of_outside (Or.inr (by omega))]

/-! ## One by one -/

/-- Towards lower addresses, the first cell goes first. -/
theorem moveUp_eq {dst src : Nat} (h : dst ≤ src) (m : Nat → α) (n : Nat) : moveUp m dst src n = move m dst src n := by
  induction n generalizing m dst src with
  | zero =>
    funext b
    rw [moveUp, move_of_outside (by omega)]
  | succ n ih =>
    rw [moveUp, ih (Nat.succ_le_succ h)]
    funext b
    rcases Nat.lt_trichotomy b dst with hb | rfl | hb
    · rw [move_of_outside (Or.inl (by omega)), move_of_outside (Or.inl hb), update_of_ne (Nat.ne_of_lt hb)]
    · rw [move_of_outside (Or.inl (Nat.lt_succ_self b)), update_self]
      exact (move_at m b src (Nat.succ_pos n)).symm
    · obtain ⟨i, rfl⟩ := Nat.exists_eq_add_of_lt hb
      rcases Nat.lt_or_ge i n with hi | hi
      · rw [Nat.add_right_comm, move_at _ _ _ hi, update_of_ne (by omega), Nat.add_right_comm dst 1 i, Nat.add_assoc dst i 1,
          move_at _ _ _ (Nat.succ_lt_succ hi)]
        congr 1
        omega
      · rw [move_of_outside (Or.inr (by omega)), move_of_outside (Or.inr (by omega)), update_of_ne (by omega)]

/-- Towards higher addresses, the last cell goes first. -/
theorem moveDown_eq {dst src : Nat} (h : src ≤ dst) (m : Nat → α) (n : Nat) : moveDown m dst src n = move m dst src n := by
  induction n generalizing m with
  | zero =>
    funext b
    rw [moveDown, move_of_outside (by omega)]
  | succ n ih =>
    rw [moveDown, ih]
    funext b
    rcases Nat.lt_or_ge b dst with hb | hb
    · rw [move_of_outside (Or.inl hb), move_of_outside (Or.inl hb), update_of_ne (by omega)]
    · obtain ⟨i, rfl⟩ := Nat.exists_eq_add_of_le hb
      rcases Nat.lt_trichotomy i n with hi | rfl | hi
      · rw [move_at _ _ _ hi, move_at _ _ _ (Nat.lt_succ_of_lt hi), update_of_ne (by omega)]
      · rw [move_of_outside (Or.inr (Nat.le_refl _)), update_self, move_at _ _ _ (Nat.lt_succ_self i)]
      · rw [move_of_outside (Or.inr (by omega)), move_of_outside (Or.inr (by omega)), update_of_ne (by omega)]

/-! ## In chunks -/

/-- Chunks leave the cells outside the range alone. -/
theorem moveChunks_of_outside {c rounds : Nat} {m : Nat → α} {dst src n b : Nat} (h : b < dst ∨ dst + n ≤ b) :
    moveChunks c rounds m dst src n b = m b := by
  induction rounds generalizing m dst src n with
  | zero => rfl
  | succ rounds ih =>
    unfold moveChunks
    split
    · rfl
    · have htail : (if c < n then c else n) ≤ n := by
        split <;> omega
      rw [ih (by omega), move_of_outside (by omega)]

/-- What arrives in a cell: the cell that was there at first, or the moved one where an earlier chunk has been written over it. -/
theorem moveChunks_at {c rounds : Nat} (hc : 0 < c) (m : Nat → α) (dst src : Nat) {n i : Nat} (hn : n ≤ rounds) (hi : i < n) :
    moveChunks c rounds m dst src n (dst + i) =
      if dst ≤ src + i ∧ src + i < dst + i / c * c then moveChunks c rounds m dst src n (src + i) else m (src + i) := by
  induction rounds generalizing m dst src n i with
  | zero => omega
  | succ rounds ih =>
    rw [moveChunks, if_neg (by omega)]
    rcases Nat.lt_or_ge i c with hic | hic
    · -- the cell is in the first chunk
      have htail : i < if c < n then c else n := by
        split <;> omega
      have hread : ¬(dst ≤ src + i ∧ src + i < dst + i / c * c) := by
        rw [Nat.div_eq_of_lt hic]
        omega
      rw [if_neg hread, moveChunks_of_outside (by omega)]
      exact move_at m dst src htail
    · obtain ⟨j, rfl⟩ := Nat.exists_eq_add_of_le hic
      have hcn : c < n := by omega
      have hdiv : (c + j) / c * c = c + j / c * c := by
        rw [Nat.add_div_left j hc, Nat.succ_mul, Nat.add_comm]
      rw [if_pos hcn, ← Nat.add_assoc dst, ← Nat.add_assoc src, ih (move m dst src c) (dst + c) (src + c) (by omega) (by omega), hdiv,
        ← Nat.add_assoc dst]
      -- where the cell that is read lies: before the range, in the first chunk, or behind it
      rcases Nat.lt_or_ge (src + c + j) dst with hb | hb
      · rw [if_neg (by omega), if_neg (by omega), move_of_outside (Or.inl hb)]
      · rcases Nat.lt_or_ge (src + c + j) (dst + c) with hb' | hb'
        · rw [if_neg (by omega), if_pos ⟨hb, by omega⟩, moveChunks_of_outside (Or.inl hb')]
        · simp only [hb, hb', true_and, move_of_outside (m := m) (Or.inr hb')]

/-- No cell that is still to be read differs from what an earlier chunk has put there. -/
def Unspoiled (c : Nat) (m : Nat → α) (dst src n : Nat) : Prop :=
  ∀ i < n, dst ≤ src + i → src + i < dst + i / c * c → m (src + i) = m (src + (src + i - dst))

instance [DecidableEq α] (c : Nat) (m : Nat → α) (dst src n : Nat) : Decidable (Unspoiled c m dst src n) :=
  inferInstanceAs (Decidable (∀ i < n, dst ≤ src + i → src + i < dst + i / c * c → m (src + i) = m (src + (src + i - dst))))

/-- Chunks do what one move does exactly when no chunk spoils a later one. -/
theorem moveChunks_eq_move_iff {c rounds : Nat} (hc : 0 < c) (m : Nat → α) (dst src : Nat) {n : Nat} (hn : n ≤ rounds) :
    moveChunks c rounds m dst src n = move m dst src n ↔ Unspoiled c m dst src n := by
  rw [eq_move_iff fun b hb => moveChunks_of_outside hb]
  constructor
  · intro h i hi h1 h2
    obtain ⟨j, hj⟩ := Nat.exists_eq_add_of_le h1
    have hji : j < n := by
      have := Nat.div_mul_le_self i c
      omega
    have hat := moveChunks_at hc m dst src hn hi
    rw [if_pos ⟨h1, h2⟩, h i hi, hj, h j hji] at hat
    rw [hj, Nat.add_sub_cancel_left]
    exact hat
  · intro h i
    induction i using Nat.strongRecOn with
    | ind i ih =>
      intro hi
      rw [moveChunks_at hc m dst src hn hi]
      split
      next hread =>
        have hle := Nat.div_mul_le_self i c
        have hlt : src + i - dst < i := by omega
        have hback := ih (src + i - dst) hlt (Nat.lt_trans hlt hi)
        rw [Nat.add_sub_cancel' hread.1] at hback
        rw [hback, h i hi hread.1 hread.2]
      next => rfl

end Lib
