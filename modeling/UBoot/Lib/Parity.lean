import Mathlib.Logic.Basic

/-!
# Masked parities

`dot m x` is the parity of the bits of `x` that the mask `m` selects. It is additive in `x`, and a shift of `x` is the
opposite shift of the mask, so a generator made of shifts and exclusive ors turns one masked parity of its output into
another of its input.
-/

namespace Lib

/-- The parity of the first `n` values. -/
def parity : Nat → (Nat → Bool) → Bool
  | 0, _ => false
  | n + 1, f => parity n f ^^ f n

theorem parity_congr {n : Nat} {f g : Nat → Bool} (h : ∀ i < n, f i = g i) : parity n f = parity n g := by
  induction n with
  | zero => rfl
  | succ n ih =>
    rw [parity, parity, h n (Nat.lt_succ_self n), ih]
    intro i hi
    exact h i (Nat.lt_succ_of_lt hi)

theorem parity_false {n : Nat} {f : Nat → Bool} (h : ∀ i < n, f i = false) : parity n f = false := by
  induction n with
  | zero => rfl
  | succ n ih =>
    rw [parity, h n (Nat.lt_succ_self n), ih]
    · rfl
    · intro i hi
      exact h i (Nat.lt_succ_of_lt hi)

theorem parity_xor (n : Nat) (f g : Nat → Bool) : parity n (fun i => f i ^^ g i) = (parity n f ^^ parity n g) := by
  induction n with
  | zero => rfl
  | succ n ih =>
    rw [parity, parity, parity, ih]
    cases parity n f <;> cases parity n g <;> cases f n <;> cases g n <;> rfl

/-- A parity splits where its range splits. -/
theorem parity_add (k n : Nat) (f : Nat → Bool) : parity (k + n) f = (parity k f ^^ parity n (fun i => f (k + i))) := by
  induction n with
  | zero => simp [parity]
  | succ n ih => rw [← Nat.add_assoc, parity, parity, ih, Bool.xor_assoc]

theorem parity_add' (k n : Nat) (f : Nat → Bool) : parity (k + n) f = (parity n f ^^ parity k (fun i => f (n + i))) := by
  rw [Nat.add_comm, parity_add]

variable {w : Nat}

/-- The parity of the bits of `x` that `m` selects. -/
def dot (m x : BitVec w) : Bool := parity w (fun i => m.getLsbD i && x.getLsbD i)

theorem dot_xor (m x y : BitVec w) : dot m (x ^^^ y) = (dot m x ^^ dot m y) := by
  rw [dot, dot, dot, ← parity_xor]
  refine parity_congr ?_
  intro i _
  rw [BitVec.getLsbD_xor, Bool.and_xor_distrib_left]

theorem dot_comm (m x : BitVec w) : dot m x = dot x m :=
  parity_congr fun _ _ => Bool.and_comm _ _

theorem xor_dot (m n x : BitVec w) : dot (m ^^^ n) x = (dot m x ^^ dot n x) := by
  rw [dot_comm, dot_xor, dot_comm x m, dot_comm x n]

theorem zero_dot (x : BitVec w) : dot 0#w x = false := by
  refine parity_false ?_
  intro i _
  rw [BitVec.getLsbD_zero, Bool.false_and]

/-- A shift of the word is the opposite shift of the mask. -/
theorem dot_shiftLeft (m x : BitVec w) {k : Nat} (hk : k ≤ w) : dot m (x <<< k) = dot (m >>> k) x := by
  obtain ⟨n, rfl⟩ := Nat.exists_eq_add_of_le hk
  have hlow : parity k (fun i => m.getLsbD i && (x <<< k).getLsbD i) = false := by
    refine parity_false ?_
    intro i hi
    simp [hi]
  have hhigh : parity k (fun i => (m >>> k).getLsbD (n + i) && x.getLsbD (n + i)) = false := by
    refine parity_false ?_
    intro i _
    rw [BitVec.getLsbD_ushiftRight, ← Nat.add_assoc, BitVec.getLsbD_of_ge m _ (Nat.le_add_right (k + n) i), Bool.false_and]
  rw [dot, parity_add, hlow, Bool.false_xor, dot, parity_add', hhigh, Bool.xor_false]
  refine parity_congr ?_
  intro i hi
  rw [BitVec.getLsbD_shiftLeft, BitVec.getLsbD_ushiftRight, Nat.add_sub_cancel_left]
  simp [hi, Nat.not_lt.2 (Nat.le_add_right k i)]

theorem dot_ushiftRight (m x : BitVec w) {k : Nat} (hk : k ≤ w) : dot m (x >>> k) = dot (m <<< k) x := by
  rw [dot_comm, ← dot_shiftLeft x m hk, dot_comm]

/-- A word mixed with a shift of itself. -/
theorem dot_xor_shiftLeft (m x : BitVec w) {k : Nat} (hk : k ≤ w) : dot m (x ^^^ (x <<< k)) = dot (m ^^^ (m >>> k)) x := by
  rw [dot_xor, dot_shiftLeft m x hk, xor_dot]

theorem dot_xor_ushiftRight (m x : BitVec w) {k : Nat} (hk : k ≤ w) : dot m (x ^^^ (x >>> k)) = dot (m ^^^ (m <<< k)) x := by
  rw [dot_xor, dot_ushiftRight m x hk, xor_dot]

/-- A mask within the bits that are set reads its own parity. -/
theorem dot_of_and_eq {m x : BitVec w} (h : m &&& x = m) : dot m x = dot m m := by
  refine parity_congr ?_
  intro i _
  rw [← BitVec.getLsbD_and, h, Bool.and_self]

end Lib
