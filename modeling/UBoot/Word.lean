import Mathlib.Algebra.Group.Int.Defs
import Mathlib.Algebra.Group.Nat.Defs
import Mathlib.Algebra.GroupWithZero.Nat

/-!
# Arithmetic in 32 bits

Sums and differences of `unsigned long` and `__u32`, the value of a `long`, and numbers from their bytes.
-/

namespace UBoot
variable {a b : Nat}


/-- A sum in 32 bits. -/
def add32 (a b : Nat) : Nat := (a + b) % 2 ^ 32

/-- A difference in 32 bits. -/
def sub32 (a b : Nat) : Nat := (a + 2 ^ 32 - b) % 2 ^ 32

/-- The number that bytes are, the lowest first. -/
def leNat : List UInt8 → Nat
  | [] => 0
  | b :: bs => b.toNat + 256 * leNat bs

/-- A 32-bit number as a `long`. -/
def toLong (a : Nat) : Int := if a < 2 ^ 31 then a else a - 2 ^ 32

theorem add32_of_lt (h : a + b < 2 ^ 32) : add32 a b = a + b := Nat.mod_eq_of_lt h

theorem add32_of_eq (h : a + b = 2 ^ 32) : add32 a b = 0 := by
  unfold add32
  rw [h, Nat.mod_self]

theorem sub32_of_le (h : b ≤ a) (ha : a < 2 ^ 32) : sub32 a b = a - b := by
  unfold sub32
  rw [show a + 2 ^ 32 - b = a - b + 2 ^ 32 by omega, Nat.add_mod_right, Nat.mod_eq_of_lt (by omega)]

theorem sub32_zero (h0 : 0 < b) (h : b < 2 ^ 32) : sub32 0 b = 2 ^ 32 - b := by
  unfold sub32
  rw [Nat.zero_add, Nat.mod_eq_of_lt (by omega)]

theorem le_last_iff {s : Nat} (hs : 0 < b + s) (htop : b + s ≤ 2 ^ 32) : a ≤ sub32 (add32 b s) 1 ↔ a < b + s := by
  rcases Nat.lt_or_eq_of_le htop with hlt | heq
  · rw [add32_of_lt hlt, sub32_of_le (by omega) hlt]
    omega
  · rw [add32_of_eq heq, sub32_zero (by decide) (by decide)]
    omega

theorem leNat_lt (bs : List UInt8) : leNat bs < 256 ^ bs.length := by
  induction bs with
  | nil => exact Nat.one_pos
  | cons b bs ih =>
    have hb := b.toNat_lt
    rw [leNat, List.length_cons, Nat.pow_succ]
    omega

theorem toLong_of_lt (h : a < 2 ^ 31) : toLong a = a := if_pos h

theorem toLong_lt (a : Nat) (h : a < 2 ^ 32) : toLong a < 2 ^ 31 := by
  unfold toLong
  split <;> omega

end UBoot
