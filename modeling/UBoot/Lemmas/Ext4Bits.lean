import UBoot.Ext4Alloc
import UBoot.Lib.Alloc
import UBoot.Lib.Bitmap

/-!
# The bits of the bitmaps of an ext4 file system

What `setBit` and `getNewNo` do to the set of numbers that a bitmap is, and the bitmaps of all groups together as a set of
numbers in use.
-/

namespace UBoot

open List

namespace Ext4Bits

open Lib

variable {buffer buffer' : List UInt8} {k : Nat}
variable {n : Nat} {stop : Nat → Bool}

/-- The bitmap has one number more. -/
structure Adds (buffer : List UInt8) (k : Nat) (buffer' : List UInt8) : Prop where
  length : buffer'.length = buffer.length
  marked : ∀ j, Marked buffer' j ↔ Marked buffer j ∨ j = k

/-- The place of a number. -/
def placeOf (k : Nat) : BitPlace := ⟨((k / 8 : Nat) : Int), bitOf k⟩

theorem placeFrom0_eq {i : Int} (hi : i = ((k / 8 : Nat) : Int)) (hn : n = k % 8) : placeFrom0 i n = placeOf k := by
  rw [hi, hn]
  rfl

theorem placeFrom1_eq {i : Int} (hi : i = (((k + 1) / 8 : Nat) : Int)) (hn : n = (k + 1) % 8) : placeFrom1 i n = placeOf k := by
  rw [hi, hn, placeFrom1, placeOf]
  split
  · next h =>
    have hbit : bitOf k = 1 <<< (7 : UInt8) := by
      rw [bitOf, show k % 8 = 7 by omega]
      rfl
    rw [hbit, BitPlace.mk.injEq]
    exact ⟨by omega, rfl⟩
  · next h =>
    rw [show (k + 1) % 8 - 1 = k % 8 by omega, show (k + 1) / 8 = k / 8 by omega]
    rfl

theorem bmapByte_placeOf (hk : k < 8 * buffer.length) : ∃ byte, buffer[k / 8]? = some byte ∧ bmapByte buffer (placeOf k).byte = some byte := by
  have hlt : k / 8 < buffer.length := by omega
  refine ⟨buffer[k / 8], getElem?_eq_getElem hlt, ?_⟩
  have hbyte : bmapByte buffer (placeOf k).byte = buffer[k / 8]? := if_neg (Int.not_lt.2 (Int.natCast_nonneg _))
  rw [hbyte, getElem?_eq_getElem hlt]

theorem setBit_of_marked (hk : k < 8 * buffer.length) (h : Marked buffer k) : setBit buffer (placeOf k) = some none := by
  obtain ⟨byte, hget, hbyte⟩ := bmapByte_placeOf hk
  rw [setBit, hbyte]
  exact congrArg some (if_pos ((marked_iff hget).1 h))

theorem setBit_of_clear (hk : k < 8 * buffer.length) (h : ¬Marked buffer k) :
    ∃ buffer', setBit buffer (placeOf k) = some (some buffer') ∧ Adds buffer k buffer' := by
  obtain ⟨byte, hget, hbyte⟩ := bmapByte_placeOf hk
  refine ⟨buffer.set (k / 8) (byte ||| bitOf k), ?_, length_set .., marked_set hget⟩
  rw [setBit, hbyte]
  exact congrArg some (if_neg fun hne => h ((marked_iff hget).2 hne))

/-! ## The first number that is not in a bitmap -/

/-- The bytes before the first number that is missing are 255. -/
theorem skipFull_spec (count : Nat) (rest : List UInt8) (hlen : i < rest.length)
    (hfull : ∀ j, j < i → rest[j]? = some 255) (hbyte : rest[i]? ≠ some 255) (hstop : ∀ j, 0 < j → j ≤ i → stop (count + 8 * j) = false)
    (ptr : Nat) : skipFull stop rest ptr count = some (some (ptr + i, count + 8 * i)) := by
  induction i generalizing count rest ptr with
  | zero =>
    cases rest with
    | nil => exact absurd hlen (Nat.not_lt_zero _)
    | cons b rest => exact if_neg fun hb => hbyte (by rw [hb]; rfl)
  | succ i ih =>
    cases rest with
    | nil => exact absurd hlen (Nat.not_lt_zero _)
    | cons b rest =>
      have hb : b = 255 := Option.some.inj (hfull 0 (Nat.succ_pos i))
      have h1 : stop (count + 8) = false := hstop 1 Nat.one_pos (Nat.succ_le_succ (Nat.zero_le i))
      have hrest := ih (count + 8) rest (Nat.lt_of_succ_lt_succ hlen) (fun j hj => hfull (j + 1) (Nat.succ_lt_succ hj)) hbyte (fun j _ hj => by
          have := hstop (j + 1) (Nat.succ_pos j) (Nat.succ_le_succ hj)
          rwa [show count + 8 * (j + 1) = count + 8 + 8 * j by omega] at this) (ptr + 1)
      rw [skipFull, if_pos hb, h1, if_neg Bool.false_ne_true, hrest]
      simp only [Option.some.injEq, Prod.mk.injEq]
      omega

theorem find_clear {byte : UInt8} (hi : i < 8) (hclear : ¬ byte &&& bitOf i ≠ 0) (hset : ∀ j, j < i → byte &&& bitOf j ≠ 0) :
    (List.range 8).find? (fun i => decide (byte &&& (1 <<< UInt8.ofNat i) = 0)) = some i := by
  have hbit (j : Nat) (hj : j < 8) : bitOf j = 1 <<< UInt8.ofNat j := by rw [bitOf, Nat.mod_eq_of_lt hj]
  rw [find?_range_eq_some]
  refine ⟨?_, mem_range.2 hi, fun j hj => ?_⟩
  · rw [← hbit i hi, decide_eq_true_iff]
    exact not_not.1 hclear
  · rw [← hbit j (by omega), decide_eq_false (hset j hj)]
    rfl

/-- The first number that is missing is given out. -/
theorem getNewNo_spec {count : Nat} (hblksz : 0 < blksz) (hk : k < 8 * buffer.length) (hclear : ¬Marked buffer k)
    (hset : ∀ j, j < k → Marked buffer j) (hstop : ∀ j, 0 < j → 8 * j ≤ k → stop (count + 8 * j) = false) :
    ∃ buffer', getNewNo stop blksz count buffer = some (some (count + k, buffer')) ∧ Adds buffer k buffer' := by
  obtain ⟨byte, hget, -⟩ := bmapByte_placeOf hk
  have hbit (i : Nat) (hi : i < 8) : Marked buffer (8 * (k / 8) + i) ↔ byte &&& bitOf i ≠ 0 := by
    have hdiv : (8 * (k / 8) + i) / 8 = k / 8 := by omega
    rw [marked_iff (by rw [hdiv]; exact hget), show bitOf (8 * (k / 8) + i) = bitOf i by rw [bitOf, bitOf, Nat.mul_add_mod]]
  have hfull (j : Nat) (hj : j < k / 8) : buffer[j]? = some 255 := by
    have hlt : j < buffer.length := by omega
    rw [getElem?_eq_getElem hlt, Option.some.injEq, eq_255_iff]
    intro i hi
    have hmarked := hset (8 * j + i) (by omega)
    rwa [@marked_iff buffer buffer[j] (8 * j + i) (by rw [show (8 * j + i) / 8 = j by omega]; exact getElem?_eq_getElem hlt),
      show bitOf (8 * j + i) = bitOf i by rw [bitOf, bitOf, Nat.mul_add_mod]] at hmarked
  have hmod : ¬ byte &&& bitOf (k % 8) ≠ 0 := by
    rw [← hbit (k % 8) (Nat.mod_lt k (by decide)), show 8 * (k / 8) + k % 8 = k by omega]
    exact hclear
  have hnot : buffer[k / 8]? ≠ some 255 := by
    intro h
    rw [hget, Option.some.injEq, eq_255_iff] at h
    exact hmod (h _ (Nat.mod_lt k (by decide)))
  have hfind := find_clear (Nat.mod_lt k (by decide)) hmod fun j hj => (hbit j (by omega)).1 (hset _ (by omega))
  have hskip := skipFull_spec count buffer (by omega) hfull hnot (fun j h0 hj => hstop j h0 (by omega)) 0
  refine ⟨buffer.set (k / 8) (byte ||| bitOf k), ?_, length_set .., marked_set hget⟩
  obtain ⟨left, rfl⟩ := Nat.exists_eq_add_of_lt hblksz
  rw [getNewNo, hskip]
  simp only [Nat.zero_add, findClear, hget, hfind]
  rw [Nat.add_assoc, show 8 * (k / 8) + k % 8 = k by omega]
  rfl

/-! ## The bitmaps of the groups -/

/-- The bitmap of a group of `per` numbers holds those in use, if it was initialised, and the count is that of the free ones. -/
structure GroupHolds (blksz per : Nat) (used : Nat → Bool) (i : Nat) (uninit : Bool) (bmap : List UInt8) (free : Nat) : Prop where
  length : bmap.length = blksz
  bits : ∀ k, k < per → uninit = false → (Marked bmap k ↔ used (i * per + k) = true)
  count : free = freeFrom used (i * per) per

theorem group_of_number {p : Nat} (hk : k < p) (h1 : j * p ≤ i * p + k) (h2 : i * p + k < j * p + p) : j = i := by
  have hp : 0 < p := Nat.zero_lt_of_lt hk
  have hi : (i * p + k) / p = i := by rw [Nat.mul_comm, Nat.mul_add_div hp, Nat.div_eq_of_lt hk, Nat.add_zero]
  have hj : (i * p + k) / p = j := by
    rw [show i * p + k = p * j + (i * p + k - j * p) by rw [Nat.mul_comm p]; omega, Nat.mul_add_div hp, Nat.div_eq_of_lt (by omega),
      Nat.add_zero]
  exact hj.symm.trans hi

variable {blksz per i j free : Nat} {used : Nat → Bool} {uninit : Bool}

theorem GroupHolds.cleared (h : GroupHolds blksz per used i uninit buffer free) (hnone : ∀ k, k < per → used (i * per + k) = false) :
    GroupHolds blksz per used i false (List.replicate blksz 0) free := by
  refine ⟨length_replicate .., fun k hk _ => ?_, h.count⟩
  rw [hnone k hk]
  exact ⟨fun hm => absurd hm (not_marked_zero _), nofun⟩

theorem GroupHolds.adds (h : GroupHolds blksz per used i false buffer free) (hk : k < per) (hfree : used (i * per + k) = false)
    (hadds : Adds buffer k buffer') : GroupHolds blksz per (Function.update used (i * per + k) true) i false buffer' (free - 1) := by
  refine ⟨hadds.length.trans h.length, fun k' hk' _ => ?_, ?_⟩
  · rw [hadds.marked, h.bits k' hk' rfl, Function.update_apply]
    by_cases hkk : k' = k
    · rw [if_pos (by rw [hkk])]
      exact ⟨fun _ => rfl, fun _ => Or.inr hkk⟩
    · rw [if_neg (by omega)]
      exact ⟨fun hm => hm.resolve_right hkk, Or.inl⟩
  · have hcount := freeFrom_update hfree (Nat.le_add_right (i * per) k) (Nat.add_lt_add_left hk _)
    have := h.count
    omega

theorem update_other {k' : Nat} (hij : j ≠ i) (hk : k < per) (hk' : k' < per) :
    Function.update used (i * per + k) true (j * per + k') = used (j * per + k') :=
  Function.update_of_ne (fun heq => hij (group_of_number hk (by omega) (by omega))) true used

theorem GroupHolds.other (h : GroupHolds blksz per used j uninit buffer free) (hij : j ≠ i) (hk : k < per) :
    GroupHolds blksz per (Function.update used (i * per + k) true) j uninit buffer free := by
  refine ⟨h.length, fun k' hk' hu => ?_, ?_⟩
  · rw [h.bits k' hk' hu, update_other hij hk hk']
  · rw [h.count]
    refine (freeFrom_congr fun n h1 h2 => ?_).symm
    obtain ⟨k', rfl⟩ := Nat.exists_eq_add_of_le h1
    exact update_other hij hk (by omega)

theorem GroupHolds.free_ne_zero (h : GroupHolds blksz per used i uninit buffer free) (hk : k < per) (hfree : used (i * per + k) = false) :
    free ≠ 0 := by
  rw [h.count]
  intro h0
  have := freeFrom_eq_zero.1 h0 (i * per + k) (Nat.le_add_right ..) (by omega)
  rw [hfree] at this
  cases this

theorem GroupHolds.full {t : Nat} (h : GroupHolds blksz per used i uninit buffer free) (hused : ∀ n, n < t → used n = true)
    (ht : i * per + per ≤ t) : free = 0 := by
  rw [h.count, freeFrom_eq_zero]
  exact fun n _ hn => hused n (by omega)

theorem split_number {p total : Nat} (hp : 0 < p) (h : n < total * p) : ∃ i k, i < total ∧ k < p ∧ n = i * p + k := by
  refine ⟨n / p, n % p, (Nat.div_lt_iff_lt_mul hp).2 h, Nat.mod_lt n hp, ?_⟩
  exact (Nat.div_add_mod' n p).symm

theorem range_split {m : Nat} (h : i < m) : List.range m = List.range i ++ i :: List.range' (i + 1) (m - i - 1) := by
  have hlen : m = i + (m - i - 1 + 1) := by omega
  have happend := range'_append_1 (s := 0) (m := i) (n := m - i - 1 + 1)
  rw [Nat.zero_add, ← hlen, range'_succ] at happend
  rw [range_eq_range', range_eq_range', happend]

variable {fs : ExtFilesystem} {g : ExtGroup}

theorem getElem?_setGroup (fs : ExtFilesystem) {g' : ExtGroup} (h : (fs.setGroup i g).bgd[j]? = some g') :
    (j = i ∧ g' = g) ∨ (j ≠ i ∧ fs.bgd[j]? = some g') := by
  unfold ExtFilesystem.setGroup at h
  by_cases hij : j = i
  · subst hij
    rw [getElem?_set_self' ] at h
    left
    cases hg : fs.bgd[j]? with
    | none =>
      rw [hg] at h
      cases h
    | some g₀ =>
      rw [hg] at h
      exact ⟨rfl, (Option.some.inj h).symm⟩
  · rw [getElem?_set_ne (Ne.symm hij)] at h
    exact Or.inr ⟨hij, h⟩

theorem setGroup_self (h : fs.bgd[i]? = some g) : fs.setGroup i g = fs := by
  obtain ⟨hlt, rfl⟩ := List.getElem?_eq_some_iff.1 h
  rw [ExtFilesystem.setGroup, List.set_getElem_self]

end Ext4Bits

end UBoot
