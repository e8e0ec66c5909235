import Mathlib.Data.List.Basic

/-!
# A list in numbered blocks

A list is sent in blocks of a positive size `B`, numbered from 1. Every block but the last has `B` elements and the last has
fewer, so that a list whose length is a multiple of `B` ends with an empty block.
-/

namespace Lib

variable {α : Type*} {B k : Nat} {F : List α}

/-- The `k`-th block of `F`. -/
def blockOf (B : Nat) (F : List α) (k : Nat) : List α := (F.drop ((k - 1) * B)).take B

def blockCount (B : Nat) (F : List α) : Nat := F.length / B + 1

theorem length_blockOf (B : Nat) (F : List α) (k : Nat) : (blockOf B F k).length = min B (F.length - (k - 1) * B) := by
  simp [blockOf]

theorem blockCount_pos (B : Nat) (F : List α) : 0 < blockCount B F := Nat.succ_pos _

/-- A block begins inside the list or at its end. -/
theorem pred_mul_le_length (hk : k ≤ blockCount B F) : (k - 1) * B ≤ F.length := by
  have h : k - 1 ≤ F.length / B := Nat.sub_le_iff_le_add.2 hk
  exact Nat.le_trans (Nat.mul_le_mul_right B h) (Nat.div_mul_le_self F.length B)

/-- A block that is not the last one is inside the list. -/
theorem mul_le_length (hk : k < blockCount B F) : k * B ≤ F.length := by
  have h : k ≤ F.length / B := Nat.lt_succ_iff.1 hk
  exact Nat.le_trans (Nat.mul_le_mul_right B h) (Nat.div_mul_le_self F.length B)

/-- The list ends before the end of a full last block. -/
theorem length_lt_blockCount_mul (hB : 0 < B) : F.length < blockCount B F * B :=
  Nat.lt_mul_of_div_lt (Nat.lt_succ_self _) hB

/-- Only the last block is short. -/
theorem length_blockOf_lt_iff (hB : 0 < B) (h1 : 1 ≤ k) (hk : k ≤ blockCount B F) : (blockOf B F k).length < B ↔ k = blockCount B F := by
  have hb := pred_mul_le_length hk
  obtain ⟨j, rfl⟩ : ∃ j, k = j + 1 := ⟨k - 1, by omega⟩
  rw [length_blockOf, Nat.add_sub_cancel] at *
  constructor
  · intro hlt
    by_contra hne
    have hm := mul_le_length (Nat.lt_of_le_of_ne hk hne)
    rw [Nat.add_mul, Nat.one_mul] at hm
    omega
  · intro he
    have hlen := length_lt_blockCount_mul (F := F) hB
    rw [← he, Nat.add_mul, Nat.one_mul] at hlen
    omega

/-- The blocks before the `k`-th one, and then this one. -/
theorem take_append_blockOf (h1 : 1 ≤ k) : F.take ((k - 1) * B) ++ blockOf B F k = F.take (k * B) := by
  obtain ⟨j, rfl⟩ : ∃ j, k = j + 1 := ⟨k - 1, by omega⟩
  rw [blockOf, Nat.add_sub_cancel, Nat.add_mul, Nat.one_mul, List.take_add]

/-- All blocks are the list. -/
theorem take_blockCount_mul (hB : 0 < B) : F.take (blockCount B F * B) = F :=
  List.take_of_length_le (Nat.le_of_lt (length_lt_blockCount_mul hB))

/-- The end of the `k`-th block is where the next one begins, or the end of the list. -/
theorem pred_mul_add_length_blockOf (h1 : 1 ≤ k) (hk : k ≤ blockCount B F) : (k - 1) * B + (blockOf B F k).length = min (k * B) F.length := by
  have hb := pred_mul_le_length hk
  obtain ⟨j, rfl⟩ : ∃ j, k = j + 1 := ⟨k - 1, by omega⟩
  rw [length_blockOf, Nat.add_sub_cancel, Nat.add_mul, Nat.one_mul] at *
  omega

/-- A block of a list that is given by index. -/
theorem blockOf_map_range (B n k : Nat) (g : Nat → α) :
    blockOf B ((List.range n).map g) k = (List.range (min (n - (k - 1) * B) B)).map fun i => g ((k - 1) * B + i) := by
  refine List.ext_getElem ?_ ?_
  · rw [length_blockOf, List.length_map, List.length_range, List.length_map, List.length_range, Nat.min_comm]
  · intro i h1 h2
    simp [blockOf]

end Lib
