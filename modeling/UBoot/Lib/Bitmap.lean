import Mathlib.Data.List.Basic

/-!
# Bits of an array of bytes

A set of numbers kept as the bits of an array of bytes, eight numbers to a byte.
-/

namespace Lib

/-- The bit of a number in its byte. -/
def bitOf (i : Nat) : UInt8 := 1 <<< UInt8.ofNat (i % 8)

/-- The number is in the set. -/
def Marked (bytes : List UInt8) (i : Nat) : Prop := ∃ byte, bytes[i / 8]? = some byte ∧ byte &&& bitOf i ≠ 0

theorem toBitVec_bitOf (i : Nat) : (bitOf i).toBitVec = BitVec.twoPow 8 (i % 8) := by
  have key : ∀ k < 8, ((1 : UInt8) <<< UInt8.ofNat k).toBitVec = BitVec.twoPow 8 k := by decide
  exact key (i % 8) (Nat.mod_lt _ (by decide))

/-- The test of a bit with its mask. -/
theorem and_bitOf (byte : UInt8) (i : Nat) : byte &&& bitOf i ≠ 0 ↔ byte.toBitVec.getLsbD (i % 8) = true := by
  have hlt : i % 8 < 8 := Nat.mod_lt _ (by decide)
  have hne : BitVec.twoPow 8 (i % 8) ≠ 0#8 := by
    intro hz
    have hbit := congrArg (fun b : BitVec 8 => b.getLsbD (i % 8)) hz
    simp [hlt] at hbit
  rw [Ne, ← UInt8.toBitVec_inj, UInt8.toBitVec_and, toBitVec_bitOf, BitVec.and_twoPow]
  cases byte.toBitVec.getLsbD (i % 8) <;> simp [hne]

theorem or_bitOf (byte : UInt8) (i j : Nat) : (byte ||| bitOf i) &&& bitOf j ≠ 0 ↔ byte &&& bitOf j ≠ 0 ∨ j % 8 = i % 8 := by
  have hlt : i % 8 < 8 := Nat.mod_lt _ (by decide)
  rw [and_bitOf, and_bitOf, UInt8.toBitVec_or, toBitVec_bitOf, BitVec.getLsbD_or, BitVec.getLsbD_twoPow, Bool.or_eq_true,
    Bool.and_eq_true, decide_eq_true_eq, decide_eq_true_eq]
  exact or_congr_right ⟨fun h => h.2.symm, fun h => ⟨hlt, h.symm⟩⟩

variable {bytes : List UInt8} {byte : UInt8} {i : Nat}

theorem marked_iff (h : bytes[i / 8]? = some byte) : Marked bytes i ↔ byte &&& bitOf i ≠ 0 := by
  simp [Marked, h]

/-- Setting the bit of a number puts it into the set. -/
theorem marked_set (h : bytes[i / 8]? = some byte) (j : Nat) : Marked (bytes.set (i / 8) (byte ||| bitOf i)) j ↔ Marked bytes j ∨ j = i := by
  obtain ⟨hlt, -⟩ := List.getElem?_eq_some_iff.1 h
  by_cases hj : j / 8 = i / 8
  · have hold : bytes[j / 8]? = some byte := hj ▸ h
    have hnew : (bytes.set (i / 8) (byte ||| bitOf i))[j / 8]? = some (byte ||| bitOf i) := by
      rw [hj, List.getElem?_set_self hlt]
    rw [marked_iff hold, marked_iff hnew, or_bitOf]
    exact or_congr_right ⟨fun hm => by omega, fun hm => by rw [hm]⟩
  · have hne : j ≠ i := by
      rintro rfl
      exact hj rfl
    simp [Marked, List.getElem?_set_ne (Ne.symm hj), hne]

/-- A byte of which all bits are set. -/
theorem eq_255_iff (byte : UInt8) : byte = 255 ↔ ∀ i < 8, byte &&& bitOf i ≠ 0 := by
  constructor
  · rintro rfl i hi
    rw [and_bitOf]
    have key : ∀ i < 8, (255 : UInt8).toBitVec.getLsbD (i % 8) = true := by decide
    exact key i hi
  · intro h
    rw [← UInt8.toBitVec_inj]
    refine BitVec.eq_of_getLsbD_eq fun i hi => ?_
    have hbit := (and_bitOf byte i).1 (h i hi)
    rw [Nat.mod_eq_of_lt hi] at hbit
    have key : ∀ i < 8, (255 : UInt8).toBitVec.getLsbD i = true := by decide
    rw [hbit, key i hi]

theorem not_marked_zero (n : Nat) : ¬Marked (List.replicate n 0) i := by
  rintro ⟨byte, hb, hne⟩
  obtain ⟨-, rfl⟩ := by simpa [List.getElem?_replicate] using hb
  simp at hne

end Lib
