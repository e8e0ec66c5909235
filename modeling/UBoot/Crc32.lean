import Mathlib.Algebra.Group.Nat.Defs
import Mathlib.Data.Vector.Defs

/-!
# CRC-32

lib/crc32.c on a little-endian machine. Bytes from an address that is a multiple of 4 on are taken four at a time, as a word, with the same
result as one at a time; an entry of the table is what `make_crc_table` computes.
-/

namespace UBoot
variable {b : UInt8} {n : Nat} {c d : UInt32}


/-- The inner loop of `make_crc_table`. -/
def crcTableLoop : Nat → UInt32 → UInt32
  | 0, c => c
  | k + 1, c => crcTableLoop k (if c &&& 1 ≠ 0 then (0xedb88320 : UInt32) ^^^ (c >>> 1) else c >>> 1)

/-- An entry of `crc_table`. -/
def crcTable (n : UInt32) : UInt32 := crcTableLoop 8 n

def doCrc (crc : UInt32) (x : UInt8) : UInt32 := crcTable ((crc ^^^ x.toUInt32) &&& 255) ^^^ (crc >>> 8)

/-- A word in memory. -/
def crcWord (b0 b1 b2 b3 : UInt8) : UInt32 := UInt32.ofNat (b0.toNat + 256 * (b1.toNat + 256 * (b2.toNat + 256 * b3.toNat)))

/-- The loop of `crc32_no_comp` over the words, and that over the last few bytes. -/
def crcWords (crc : UInt32) : List UInt8 → UInt32
  | b0 :: b1 :: b2 :: b3 :: buf => crcWords (doCrc (doCrc (doCrc (doCrc (crc ^^^ crcWord b0 b1 b2 b3) 0) 0) 0) 0) buf
  | buf => buf.foldl doCrc crc

/-- `crc32_no_comp`, with the bytes at `addr` -/
def crc32NoComp (addr : Nat) (crc : UInt32) (buf : List UInt8) : UInt32 :=
  let align := if addr % 4 ≠ 0 then min buf.length (4 - addr % 4) else 0
  crcWords ((buf.take align).foldl doCrc crc) (buf.drop align)

/-! ## Words and bytes -/

theorem doCrc_word (crc w : UInt32) : doCrc (crc ^^^ w) 0 = doCrc crc w.toUInt8 ^^^ (w >>> 8) := by
  have hlow : (crc ^^^ w ^^^ (0 : UInt8).toUInt32) &&& 255 = (crc ^^^ w.toUInt8.toUInt32) &&& 255 := by
    refine UInt32.toNat_inj.1 ?_
    show (crc.toNat ^^^ w.toNat ^^^ 0) &&& 2 ^ 8 - 1 = (crc.toNat ^^^ w.toNat % 2 ^ 8) &&& 2 ^ 8 - 1
    rw [Nat.xor_zero, Nat.and_two_pow_sub_one_eq_mod, Nat.and_two_pow_sub_one_eq_mod, Nat.xor_mod_two_pow, Nat.xor_mod_two_pow, Nat.mod_mod]
  rw [doCrc, doCrc, hlow, UInt32.shiftRight_xor, UInt32.xor_assoc]

/-- The lowest byte of the number `b + 256 * n`, and the others. -/
theorem crcWord_low (hn : b.toNat + 256 * n < 2 ^ 32) :
    (UInt32.ofNat (b.toNat + 256 * n)).toUInt8 = b ∧ UInt32.ofNat (b.toNat + 256 * n) >>> 8 = UInt32.ofNat n := by
  have hb := b.toNat_lt
  constructor
  · refine UInt8.toNat_inj.1 ?_
    rw [UInt32.toNat_toUInt8, UInt32.toNat_ofNat', Nat.mod_eq_of_lt hn]
    omega
  · refine UInt32.toNat_inj.1 ?_
    rw [UInt32.toNat_shiftRight, UInt32.toNat_ofNat', UInt32.toNat_ofNat', Nat.mod_eq_of_lt hn, Nat.shiftRight_eq_div_pow]
    show (b.toNat + 256 * n) / 2 ^ 8 = n % 2 ^ 32
    omega

theorem doCrc_crcWord (crc : UInt32) (b0 b1 b2 b3 : UInt8) :
    doCrc (doCrc (doCrc (doCrc (crc ^^^ crcWord b0 b1 b2 b3) 0) 0) 0) 0 = doCrc (doCrc (doCrc (doCrc crc b0) b1) b2) b3 := by
  have h0 := b0.toNat_lt
  have h1 := b1.toNat_lt
  have h2 := b2.toNat_lt
  have h3 := b3.toNat_lt
  obtain ⟨hlow0, hrest0⟩ := @crcWord_low b0 (b1.toNat + 256 * (b2.toNat + 256 * b3.toNat)) (by omega)
  obtain ⟨hlow1, hrest1⟩ := @crcWord_low b1 (b2.toNat + 256 * b3.toNat) (by omega)
  obtain ⟨hlow2, hrest2⟩ := @crcWord_low b2 b3.toNat (by omega)
  obtain ⟨hlow3, hrest3⟩ := @crcWord_low b3 0 (by omega)
  rw [Nat.mul_zero, Nat.add_zero] at hlow3 hrest3
  rw [crcWord, doCrc_word, hlow0, hrest0, doCrc_word, hlow1, hrest1, doCrc_word, hlow2, hrest2, doCrc_word, hlow3, hrest3]
  exact UInt32.xor_zero

theorem crcWords_eq (crc : UInt32) (buf : List UInt8) : crcWords crc buf = buf.foldl doCrc crc := by
  fun_induction crcWords crc buf with
  | case1 crc b0 b1 b2 b3 buf ih => rw [ih, doCrc_crcWord, List.foldl_cons, List.foldl_cons, List.foldl_cons, List.foldl_cons]
  | case2 crc buf => exact Eq.refl (buf.foldl doCrc crc)

theorem crc32NoComp_eq (addr : Nat) (crc : UInt32) (buf : List UInt8) : crc32NoComp addr crc buf = buf.foldl doCrc crc := by
  unfold crc32NoComp
  rw [crcWords_eq, ← List.foldl_append, List.take_append_drop]

/-- `crc32`, with the bytes at an address that is a multiple of 4 -/
def crc32 (crc : UInt32) (buf : List UInt8) : UInt32 := crc32NoComp 0 (crc ^^^ 0xffffffff) buf ^^^ 0xffffffff

/-- The check value of `"123456789"`. -/
example : crc32 0 [0x31, 0x32, 0x33, 0x34, 0x35, 0x36, 0x37, 0x38, 0x39] = 0xcbf43926 := by decide +kernel

/-! ## Errors that it detects -/

open List

/-- The index of an entry, from its top byte. -/
def crcIndex : Nat → UInt32 → UInt32
  | 0, c => c &&& 255
  | k + 1, c => crcIndex k (if c >>> 31 ≠ 0 then (c ^^^ 0xedb88320) <<< 1 ||| 1 else c <<< 1)

theorem crcIndex_top : ∀ n : Fin 256, crcIndex 8 (.ofBitVec ((crcTable (.ofNat n)).toBitVec >>> 24 <<< 24)) = .ofNat n := by decide +kernel

/-- What a round leaves above its lowest `n` bits tells the byte it took, and what was above the lowest `n + 8`. -/
theorem round_back (hn : n ≤ 24) {a : UInt8}
    (h : (doCrc c a).toBitVec >>> n = (doCrc d b).toBitVec >>> n) :
    c.toUInt8 ^^^ a = d.toUInt8 ^^^ b ∧ c.toBitVec >>> (n + 8) = d.toBitVec >>> (n + 8) := by
  have hround (c : UInt32) (a : UInt8) (n : Nat) : (doCrc c a).toBitVec >>> n =
      (crcTable ((c ^^^ a.toUInt32) &&& 255)).toBitVec >>> n ^^^ c.toBitVec >>> (n + 8) := by
    rw [Nat.add_comm, BitVec.shiftRight_add, ← BitVec.ushiftRight_xor_distrib]
    rfl
  have hz (c : UInt32) : c.toBitVec >>> (24 + 8) = 0#32 := BitVec.ushiftRight_eq_zero (by decide)
  have htop : (doCrc c a).toBitVec >>> 24 = (doCrc d b).toBitVec >>> 24 := by
    rw [← Nat.add_sub_cancel' hn, BitVec.shiftRight_add, h, BitVec.shiftRight_add]
  rw [hround, hround, hz, hz, BitVec.xor_zero, BitVec.xor_zero] at htop
  -- the top byte of an entry tells which it is
  have hindex (i : UInt32) : crcIndex 8 (.ofBitVec ((crcTable (i &&& 255)).toBitVec >>> 24 <<< 24)) = i &&& 255 := by
    simpa using crcIndex_top ⟨(i &&& 255).toNat, Nat.lt_succ_of_le Nat.and_le_right⟩
  have hlow := (hindex _).symm.trans (htop ▸ hindex _)
  rw [hround, hround, hlow, BitVec.xor_right_inj] at h
  have h255 (x : UInt8) : x &&& 255 = x := UInt8.and_neg_one
  exact ⟨by simpa [h255] using congrArg UInt32.toUInt8 hlow.symm, h⟩

theorem foldl_doCrc_inj {s : List UInt8} (h : s.foldl doCrc c = s.foldl doCrc d) : c = d := by
  induction s generalizing c d with
  | nil => exact h
  | cons b s ih =>
    obtain ⟨hlow, hhigh⟩ := round_back (Nat.zero_le _) (congrArg (fun c : UInt32 => c.toBitVec >>> 0) (ih h))
    have h1 := congrArg UInt8.toNat ((UInt8.xor_left_inj b).1 hlow)
    have h2 := congrArg BitVec.toNat hhigh
    simp [Nat.shiftRight_eq_div_pow] at h1 h2
    exact UInt32.toNat_inj.1 (by omega)

theorem foldl_doCrc_back {m m' : List UInt8} (hlen : m.length = m'.length) (h4 : m.length ≤ 4)
    (h : m.foldl doCrc c = m'.foldl doCrc d) : c.toBitVec >>> (8 * m.length) = d.toBitVec >>> (8 * m.length) ∧ (c = d → m = m') := by
  induction m generalizing c d m' with
  | nil =>
    obtain rfl := length_eq_zero_iff.1 hlen.symm
    exact ⟨congrArg (fun c : UInt32 => c.toBitVec >>> 0) h, fun _ => rfl⟩
  | cons a m ih =>
    obtain ⟨b, m', rfl⟩ := exists_cons_of_length_eq_add_one hlen.symm
    rw [length_cons] at h4
    obtain ⟨hhigh, hrest⟩ := ih (Nat.succ.inj hlen) (by omega) h
    obtain ⟨hlow, hshift⟩ := round_back (by omega) hhigh
    refine ⟨hshift, fun heq => ?_⟩
    subst heq
    obtain rfl := (UInt8.xor_right_inj _).1 hlow
    rw [hrest rfl]

/-- `crc32` detects every error that spans at most four bytes. -/
theorem crc32_detects_burst (crc : UInt32) (p s : List UInt8) (n : Fin 5) (m m' : List.Vector UInt8 n) :
    crc32 crc (p ++ m.1 ++ s) = crc32 crc (p ++ m'.1 ++ s) ↔ m = m' := by
  refine ⟨fun h => ?_, fun h => by rw [h]⟩
  rw [crc32, crc32, UInt32.xor_left_inj, crc32NoComp_eq, crc32NoComp_eq] at h
  simp only [foldl_append] at h
  have hback := foldl_doCrc_back (m.2.trans m'.2.symm) (Nat.le_of_lt_succ (m.2.symm ▸ n.2)) (foldl_doCrc_inj h)
  exact Subtype.ext (hback.2 rfl)

end UBoot
