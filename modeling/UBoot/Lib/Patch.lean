import Mathlib

/-!
# Parts of a buffer

A part of a buffer is read and written by its place and its length, if it is inside. In a buffer that is made of pieces, a piece is read
and replaced at the place where it stands. Numbers are kept with the lowest byte first.
-/

namespace Lib

open List

variable {α : Type*}

/-- The `n` elements from a place on. -/
def readAt (xs : List α) (i n : Nat) : Option (List α) := if i + n ≤ xs.length then some ((xs.drop i).take n) else none

/-- The elements from a place on are replaced. -/
def writeAt (xs : List α) (i : Nat) (ys : List α) : Option (List α) :=
  if i + ys.length ≤ xs.length then some (xs.take i ++ ys ++ xs.drop (i + ys.length)) else none

/-- A piece is read at its place. -/
theorem readAt_eq {xs a x b : List α} {i n : Nat} (h : xs = a ++ (x ++ b)) (hi : i = a.length) (hn : n = x.length) : readAt xs i n = some x := by
  subst h hi hn
  rw [readAt, if_pos (by simp only [length_append]; omega), drop_left, take_left]

/-- A piece is replaced by one of its length. -/
theorem writeAt_eq {xs a x b y : List α} {i : Nat} (h : xs = a ++ (x ++ b)) (hi : i = a.length) (hy : y.length = x.length) :
    writeAt xs i y = some (a ++ (y ++ b)) := by
  subst h hi
  rw [writeAt, if_pos (by simp only [length_append]; omega), take_left, ← drop_drop, drop_left, hy, drop_left, append_assoc]

theorem writeAt_of_outside {xs ys : List α} {i : Nat} (h : xs.length < i + ys.length) : writeAt xs i ys = none := if_neg (Nat.not_le.2 h)

/-- The `k` lowest bytes of a number. -/
def leBytes : Nat → Nat → List UInt8
  | 0, _ => []
  | k + 1, n => UInt8.ofNat n :: leBytes k (n / 256)

/-- The number of some bytes. -/
def leVal : List UInt8 → Nat
  | [] => 0
  | b :: bs => b.toNat + 256 * leVal bs

theorem length_leBytes (k n : Nat) : (leBytes k n).length = k := by
  induction k generalizing n with
  | zero => rfl
  | succ k ih => rw [leBytes, length_cons, ih]

theorem leVal_leBytes (k n : Nat) : leVal (leBytes k n) = n % 256 ^ k := by
  induction k generalizing n with
  | zero => rw [Nat.pow_zero, Nat.mod_one]; rfl
  | succ k ih =>
    have hpow : 256 ^ (k + 1) = 256 * 256 ^ k := by rw [Nat.pow_succ, Nat.mul_comm]
    rw [leBytes, leVal, ih, hpow, Nat.mod_mul, UInt8.toNat_ofNat']

theorem leVal_leBytes_of_lt {k n : Nat} (h : n < 256 ^ k) : leVal (leBytes k n) = n := by rw [leVal_leBytes, Nat.mod_eq_of_lt h]

end Lib
