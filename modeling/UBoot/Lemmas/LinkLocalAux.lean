import UBoot.LinkLocal
import UBoot.Lib.Parity
import Mathlib.Logic.Function.Iterate

/-!
# Picking an address

`rand_r` is made of shifts and exclusive ors, so every masked parity of a number it draws is a masked parity of the seed. The
masks of `drawMasks` select bits of five numbers in a row whose parity is 0 for every seed; if `pick` refused all five, the
selected bits would be ones, and there is an odd number of them.
-/

namespace UBoot

open Lib

/-! ## Network order -/

variable {seed : UInt32} {n : Nat}

/-- `htonl` puts the four bytes in the other order. -/
theorem htonl_bytes {a b c d : Nat} (ha : a < 256) (hb : b < 256) (hc : c < 256) (hd : d < 256) :
    htonl (UInt32.ofNat (a + 256 * b + 65536 * c + 16777216 * d)) = UInt32.ofNat (d + 256 * c + 65536 * b + 16777216 * a) := by
  have hmod : (a + 256 * b + 65536 * c + 16777216 * d) % 2 ^ 32 = a + 256 * b + 65536 * c + 16777216 * d := by omega
  rw [htonl, UInt32.toNat_ofNat', hmod]
  apply congrArg
  omega

theorem htonl_htonl (x : UInt32) : htonl (htonl x) = x := by
  have hx := x.toNat_lt
  have hbytes : x = UInt32.ofNat (x.toNat % 256 + 256 * (x.toNat / 256 % 256) + 65536 * (x.toNat / 65536 % 256) +
      16777216 * (x.toNat / 16777216)) := by
    apply UInt32.toNat.inj
    rw [UInt32.toNat_ofNat']
    omega
  have h0 : x.toNat % 256 < 256 := by omega
  have h1 : x.toNat / 256 % 256 < 256 := by omega
  have h2 : x.toNat / 65536 % 256 < 256 := by omega
  have h3 : x.toNat / 16777216 < 256 := by omega
  generalize x.toNat % 256 = a at *
  generalize x.toNat / 256 % 256 = b at *
  generalize x.toNat / 65536 % 256 = c at *
  generalize x.toNat / 16777216 = d at *
  rw [hbytes, htonl_bytes h0 h1 h2 h3, htonl_bytes h3 h2 h1 h0]

/-! ## Parities of drawn numbers -/

/-- The mask that a mask of the number drawn becomes on the seed. -/
def randMask (m : BitVec 32) : BitVec 32 :=
  let m := m ^^^ (m >>> 5)
  let m := m ^^^ (m <<< 17)
  m ^^^ (m >>> 13)

theorem dot_randR (m : BitVec 32) (seed : UInt32) : dot m (randR seed).toBitVec = dot (randMask m) seed.toBitVec := by
  let x := seed.toBitVec ^^^ (seed.toBitVec <<< 13)
  let y := x ^^^ (x >>> 17)
  calc dot m (randR seed).toBitVec
      = dot m (y ^^^ (y <<< 5)) := rfl
    _ = dot (m ^^^ (m >>> 5)) y := dot_xor_shiftLeft m y (by decide)
    _ = dot (m ^^^ (m >>> 5) ^^^ ((m ^^^ (m >>> 5)) <<< 17)) x := dot_xor_ushiftRight _ x (by decide)
    _ = dot (randMask m) seed.toBitVec := dot_xor_shiftLeft _ seed.toBitVec (by decide)

/-- The parity of bits of numbers drawn in a row, one mask for each number. -/
def drawParity : List (BitVec 32) → UInt32 → Bool
  | [], _ => false
  | m :: ms, seed => dot m (randR seed).toBitVec ^^ drawParity ms (randR seed)

/-- The mask of the seed that has the same parity. -/
def seedMask : List (BitVec 32) → BitVec 32
  | [] => 0
  | m :: ms => randMask (m ^^^ seedMask ms)

theorem drawParity_eq (ms : List (BitVec 32)) (seed : UInt32) : drawParity ms seed = dot (seedMask ms) seed.toBitVec := by
  induction ms generalizing seed with
  | nil => exact (zero_dot _).symm
  | cons m ms ih => rw [drawParity, ih, seedMask, ← dot_randR, xor_dot]

/-- A number that `pick` refuses has its bits 9 to 15 set. -/
theorem and_of_drawsAgain {draw : UInt32} (h : drawsAgain draw) : 0xfe00#32 &&& draw.toBitVec = 0xfe00#32 := by
  have hd : draw.toNat / 512 % 128 = 127 := by
    have hlt : 0xfdff < (draw &&& inClassbHost).toNat := UInt32.lt_iff_toNat_lt.1 h
    have hand : (draw &&& inClassbHost).toNat = draw.toNat % 65536 := by
      rw [UInt32.toNat_and]
      exact Nat.and_two_pow_sub_one_eq_mod draw.toNat 16
    omega
  apply BitVec.eq_of_getLsbD_eq
  intro i hi
  rw [BitVec.getLsbD_and]
  by_cases hm : (0xfe00#32).getLsbD i = true
  · have h9 : 9 ≤ i ∧ i < 16 := by
      revert hm
      revert i
      decide
    obtain ⟨j, rfl⟩ := Nat.exists_eq_add_of_le h9.1
    have hj : j < 7 := by omega
    have hbit : draw.toBitVec.getLsbD (9 + j) = true := by
      rw [BitVec.getLsbD, UInt32.toNat_toBitVec, Nat.add_comm, ← Nat.testBit_div_two_pow]
      have h127 := congrArg (fun n => Nat.testBit n j) hd
      rw [show (128 : Nat) = 2 ^ 7 from rfl, Nat.testBit_mod_two_pow] at h127
      have hones : Nat.testBit 127 j = true := by
        have := Nat.testBit_two_pow_sub_one 7 j
        rw [this]
        exact decide_eq_true hj
      rw [hones] at h127
      exact (Bool.and_eq_true_iff.1 h127).2
    rw [hbit, Bool.and_true]
  · rw [Bool.eq_false_iff.2 hm, Bool.false_and]

theorem drawParity_of_refused {ms : List (BitVec 32)} (hms : ∀ m ∈ ms, m &&& 0xfe00#32 = m)
    (h : ∀ k < ms.length, drawsAgain (randR^[k + 1] seed)) :
    drawParity ms seed = ms.foldr (fun m b => dot m m ^^ b) false := by
  induction ms generalizing seed with
  | nil => rfl
  | cons m ms ih =>
    have hm : m &&& (randR seed).toBitVec = m := by
      have hones := and_of_drawsAgain (h 0 (Nat.zero_lt_succ _))
      rw [← hms m (List.mem_cons_self ..), BitVec.and_assoc]
      exact congrArg (m &&& ·) hones
    rw [drawParity, dot_of_and_eq hm, ih (fun m' hm' => hms m' (List.mem_cons_of_mem _ hm')), List.foldr_cons]
    intro k hk
    exact h (k + 1) (Nat.succ_lt_succ hk)

/-- The masks over five numbers. -/
def drawMasks : List (BitVec 32) := [0xca00, 0x8c00, 0x7600, 0xcc00, 0x9400]

theorem not_five_refused (seed : UInt32) : ¬∀ k < 5, drawsAgain (randR^[k + 1] seed) := by
  intro h
  have hzero : drawParity drawMasks seed = false := by
    rw [drawParity_eq, show seedMask drawMasks = 0 by decide]
    exact zero_dot _
  have hones : drawParity drawMasks seed = drawMasks.foldr (fun m b => dot m m ^^ b) false :=
    drawParity_of_refused (by simp [drawMasks]) h
  rw [hzero] at hones
  simp [drawMasks, dot, parity] at hones

theorem refused_of_pickLoop (h : drawsAgain (pickLoop n seed)) : ∀ k < n + 1, drawsAgain (randR^[k + 1] seed) := by
  induction n generalizing seed with
  | zero =>
    intro k hk
    obtain rfl : k = 0 := by omega
    exact h
  | succ n ih =>
    rw [pickLoop] at h
    split at h
    · rename_i hd
      intro k hk
      cases k with
      | zero => exact hd
      | succ k => exact ih h k (Nat.lt_of_succ_lt_succ hk)
    · exact absurd h ‹_›

theorem pickSeed_inRange (seed : UInt32) : ¬drawsAgain (pickSeed seed) := by
  intro h
  exact not_five_refused seed (refused_of_pickLoop h)

theorem pickLoop_eq (h : ¬drawsAgain (pickLoop n seed)) (m : Nat) : pickLoop (n + m) seed = pickLoop n seed := by
  induction n generalizing seed with
  | zero =>
    cases m with
    | zero => rfl
    | succ m =>
      rw [Nat.zero_add]
      exact if_neg h
  | succ n ih =>
    rw [Nat.succ_add, pickLoop, pickLoop]
    rw [pickLoop] at h
    split
    · rename_i hd
      rw [if_pos hd] at h
      exact ih h
    · rfl

theorem pickSeed_eq (seed : UInt32) : pickSeed seed = if drawsAgain (randR seed) then pickSeed (randR seed) else randR seed := by
  exact (pickLoop_eq (pickSeed_inRange seed) 1).symm

/-! ## The range -/

/-- 169.254.1.0 to 169.254.254.255. -/
def InLinkLocalRange (a : UInt32) : Prop := 0xa9fe0100 ≤ htonl a ∧ htonl a ≤ 0xa9fefeff

instance (a : UInt32) : Decidable (InLinkLocalRange a) := inferInstanceAs (Decidable (_ ∧ _))

theorem pick_inRange (seed : UInt32) : InLinkLocalRange (pick seed) := by
  have hdraw := pickSeed_inRange seed
  rw [InLinkLocalRange, pick, htonl_htonl]
  generalize hm : pickSeed seed &&& inClassbHost = tmp
  have htmp : tmp.toNat ≤ 0xfdff := by
    rw [drawsAgain, hm] at hdraw
    exact UInt32.le_iff_toNat_le.1 (UInt32.not_lt.1 hdraw)
  have hsum : (linklocalAddr + 0x0100 + tmp).toNat = 0xa9fe0100 + tmp.toNat := by
    rw [UInt32.toNat_add]
    exact Nat.mod_eq_of_lt (show 0xa9fe0100 + tmp.toNat < _ by omega)
  rw [UInt32.le_iff_toNat_le, UInt32.le_iff_toNat_le, hsum]
  constructor
  · exact Nat.le_add_right _ _
  · exact Nat.add_le_add_left htmp 0xa9fe0100

theorem pick_ends (seed : UInt32) : (∀ n, pickLoop (4 + n) seed = pickSeed seed) ∧
    pickSeed seed = (if drawsAgain (randR seed) then pickSeed (randR seed) else randR seed) ∧ InLinkLocalRange (pick seed) :=
  ⟨pickLoop_eq (pickSeed_inRange seed), pickSeed_eq seed, pick_inRange seed⟩

end UBoot
