import UBoot.NandUtil

/-!
# The good bytes of a NAND device

The bytes of an image go to the good bytes of the device from the offset on, in order. The three loops walk over the blocks, and each block
adds to the good bytes either all its bytes from the offset on or none.
-/

namespace UBoot

open Lib List

namespace NandChip

variable {chip : NandChip}
variable {offset a b acc length fuel : Nat} {ret : Int}

/-- The good bytes from an offset to the end of the device. -/
def goodAddrs (chip : NandChip) (offset : Nat) : List Nat :=
  (List.range' offset (chip.size - offset)).filter fun a => !chip.bad (a / chip.erasesize)

/-- How many good bytes lie between two offsets. -/
def goodBefore (chip : NandChip) (offset b : Nat) : Nat := ((chip.goodAddrs offset).filter (· < b)).length

/-- A walk from an offset comes to the block of `a` with fewer than `n` good bytes. -/
def Visited (chip : NandChip) (offset n a : Nat) : Prop :=
  offset ≤ a ∧ a < chip.size ∧ chip.goodBefore offset (a / chip.erasesize * chip.erasesize) < n

/-! ## Blocks -/

/-- The start of the next block. -/
def next (chip : NandChip) (offset : Nat) : Nat := offset + (chip.erasesize - offset % chip.erasesize)

theorem erasesize_pos (chip : NandChip) : 0 < chip.erasesize := by
  obtain ⟨k, -, hk⟩ := chip.erasesize_pow
  rw [hk]
  exact Nat.two_pow_pos k

theorem erasesize_dvd_pow (chip : NandChip) : chip.erasesize ∣ 2 ^ 32 := by
  obtain ⟨k, hle, hk⟩ := chip.erasesize_pow
  rw [hk]
  exact Nat.pow_dvd_pow 2 (by omega)

theorem erasesize_le (chip : NandChip) : chip.erasesize ≤ 2 ^ 31 := by
  obtain ⟨k, hle, hk⟩ := chip.erasesize_pow
  rw [hk]
  exact Nat.pow_le_pow_right (by decide) hle

theorem next_eq (chip : NandChip) (offset : Nat) : chip.next offset = (offset / chip.erasesize + 1) * chip.erasesize := by
  have hmod := Nat.mod_lt offset chip.erasesize_pos
  have hdiv := Nat.div_add_mod' offset chip.erasesize
  rw [next, Nat.add_mul, Nat.one_mul]
  omega

theorem lt_next (chip : NandChip) (offset : Nat) : offset < chip.next offset := by
  have hmod := Nat.mod_lt offset chip.erasesize_pos
  rw [next]
  omega

theorem next_div (chip : NandChip) (offset : Nat) : chip.next offset / chip.erasesize = offset / chip.erasesize + 1 := by
  rw [next_eq, Nat.mul_div_cancel _ chip.erasesize_pos]

theorem next_le_size (chip : NandChip) (h : offset < chip.size) : chip.next offset ≤ chip.size := by
  obtain ⟨k, hk⟩ := chip.erasesize_dvd
  rw [next_eq, hk, Nat.mul_comm]
  apply Nat.mul_le_mul_left
  rw [hk] at h
  exact Nat.div_lt_of_lt_mul h

theorem div_eq_of_lt_next (h : offset ≤ a) (h' : a < chip.next offset) : a / chip.erasesize = offset / chip.erasesize := by
  rw [next_eq] at h'
  exact Nat.le_antisymm (Nat.le_of_lt_succ (Nat.div_lt_of_lt_mul (by rwa [Nat.mul_comm]))) (Nat.div_le_div_right h)

theorem next_le_blockStart (h : chip.next offset ≤ a) : chip.next offset ≤ a / chip.erasesize * chip.erasesize := by
  rw [next_eq] at h ⊢
  exact Nat.mul_le_mul_right _ ((Nat.le_div_iff_mul_le chip.erasesize_pos).2 h)

/-! ## Good bytes -/

theorem mem_goodAddrs : a ∈ chip.goodAddrs offset ↔ offset ≤ a ∧ a < chip.size ∧ chip.bad (a / chip.erasesize) = false := by
  rw [goodAddrs, mem_filter, mem_range'_1, Bool.not_eq_true']
  constructor
  · rintro ⟨⟨h1, h2⟩, h3⟩
    exact ⟨h1, by omega, h3⟩
  · rintro ⟨h1, h2, h3⟩
    exact ⟨⟨h1, by omega⟩, h3⟩

theorem goodAddrs_end (h : chip.size ≤ offset) : chip.goodAddrs offset = [] := by
  rw [goodAddrs, Nat.sub_eq_zero_of_le h]
  rfl

theorem goodAddrs_split (h : offset < chip.size) : chip.goodAddrs offset =
      (List.range' offset (chip.next offset - offset)).filter (fun a => !chip.bad (a / chip.erasesize)) ++
        chip.goodAddrs (chip.next offset) := by
  have hlt := chip.lt_next offset
  have hle := chip.next_le_size h
  have hsum : chip.size - offset = (chip.next offset - offset) + (chip.size - chip.next offset) := by omega
  have hstart : offset + (chip.next offset - offset) = chip.next offset := by omega
  rw [goodAddrs, hsum, ← range'_append_1, filter_append, hstart]
  rfl

theorem goodAddrs_bad (h : offset < chip.size) (hb : chip.bad (offset / chip.erasesize) = true) :
    chip.goodAddrs offset = chip.goodAddrs (chip.next offset) := by
  rw [goodAddrs_split h, filter_eq_nil_iff.2, nil_append]
  intro a ha
  rw [mem_range'_1] at ha
  have hlt := chip.lt_next offset
  rw [div_eq_of_lt_next ha.1 (by omega), hb]
  decide

theorem goodAddrs_good (h : offset < chip.size) (hb : chip.bad (offset / chip.erasesize) = false) :
    chip.goodAddrs offset = List.range' offset (chip.next offset - offset) ++ chip.goodAddrs (chip.next offset) := by
  rw [goodAddrs_split h, filter_eq_self.2]
  intro a ha
  rw [mem_range'_1] at ha
  have hlt := chip.lt_next offset
  rw [div_eq_of_lt_next ha.1 (by omega), hb]
  rfl

theorem fits_next {left : Nat} (h : offset < chip.size) (hb : chip.bad (offset / chip.erasesize) = false)
    (hfits : left ≤ (chip.goodAddrs offset).length) :
    left - (chip.next offset - offset) ≤ (chip.goodAddrs (chip.next offset)).length := by
  rw [goodAddrs_good h hb, length_append, length_range'] at hfits
  omega

theorem take_goodAddrs (h : offset < chip.size) (hb : chip.bad (offset / chip.erasesize) = false) (n : Nat) :
    (chip.goodAddrs offset).take n =
      List.range' offset (min n (chip.next offset - offset)) ++ (chip.goodAddrs (chip.next offset)).take (n - (chip.next offset - offset)) := by
  rw [goodAddrs_good h hb, take_append, length_range']
  rcases Nat.le_total n (chip.next offset - offset) with hn | hn
  · rw [take_range'_of_length_ge hn, Nat.min_eq_left hn]
  · rw [take_range'_of_length_le hn, Nat.min_eq_right hn]

theorem range'_split (chip : NandChip) (offset n : Nat) : List.range' offset n =
      List.range' offset (min n (chip.next offset - offset)) ++ List.range' (chip.next offset) (n - (chip.next offset - offset)) := by
  have hlt := chip.lt_next offset
  rcases Nat.le_total n (chip.next offset - offset) with hn | hn
  · rw [Nat.min_eq_left hn, Nat.sub_eq_zero_of_le hn, range'_zero, append_nil]
  · rw [Nat.min_eq_right hn]
    have hstart : chip.next offset = offset + (chip.next offset - offset) := by omega
    have hsum : n = (chip.next offset - offset) + (n - (chip.next offset - offset)) := by omega
    generalize chip.next offset - offset = k at *
    rw [hstart, range'_append_1, ← hsum]

theorem goodBefore_bad (h : offset < chip.size) (hb : chip.bad (offset / chip.erasesize) = true) :
    chip.goodBefore offset b = chip.goodBefore (chip.next offset) b := by
  rw [goodBefore, goodAddrs_bad h hb, goodBefore]

theorem goodBefore_good (h : offset < chip.size) (hb : chip.bad (offset / chip.erasesize) = false)
    (hle : chip.next offset ≤ b) : chip.goodBefore offset b = (chip.next offset - offset) + chip.goodBefore (chip.next offset) b := by
  rw [goodBefore, goodAddrs_good h hb, filter_append, length_append, goodBefore, filter_eq_self.2, length_range']
  intro a ha
  rw [mem_range'_1] at ha
  have hlt := chip.lt_next offset
  exact decide_eq_true (by omega)

theorem goodBefore_self (h : b ≤ offset) : chip.goodBefore offset b = 0 := by
  rw [goodBefore, filter_eq_nil_iff.2]
  · rfl
  · intro a ha
    have := (mem_goodAddrs.1 ha).1
    simpa using Nat.le_trans h this

/-! ## The blocks of a walk -/

theorem visited_self {n : Nat} (h : offset < chip.size) (hn : 0 < n) : chip.Visited offset n offset :=
  ⟨Nat.le_refl _, h, by rwa [goodBefore_self (Nat.div_mul_le_self _ _)]⟩

theorem visited_of_bad {n : Nat} (h : offset < chip.size) (hb : chip.bad (offset / chip.erasesize) = true)
    (hv : chip.Visited (chip.next offset) n a) : chip.Visited offset n a := by
  obtain ⟨h1, h2, h3⟩ := hv
  exact ⟨Nat.le_trans (Nat.le_of_lt (chip.lt_next offset)) h1, h2, by rwa [goodBefore_bad h hb]⟩

theorem visited_of_good {n : Nat} (h : offset < chip.size) (hb : chip.bad (offset / chip.erasesize) = false)
    (hv : chip.Visited (chip.next offset) n a) : chip.Visited offset (chip.next offset - offset + n) a := by
  obtain ⟨h1, h2, h3⟩ := hv
  refine ⟨Nat.le_trans (Nat.le_of_lt (chip.lt_next offset)) h1, h2, ?_⟩
  rw [goodBefore_good h hb (next_le_blockStart h1)]
  exact Nat.add_lt_add_left h3 _

/-- How many blocks a walk has before it. -/
def blocksLeft (chip : NandChip) (offset : Nat) : Nat := chip.size / chip.erasesize - offset / chip.erasesize

theorem blocksLeft_next (h : offset < chip.size) : chip.blocksLeft (chip.next offset) + 1 = chip.blocksLeft offset := by
  have hle : offset / chip.erasesize < chip.size / chip.erasesize := by
    have := Nat.div_le_div_right (c := chip.erasesize) (chip.next_le_size h)
    rw [next_div] at this
    exact this
  rw [blocksLeft, blocksLeft, next_div]
  omega

/-! ## The test of the length -/

/-- The sum of `check_skip_len` stays below 2³² up to the end of the last block of the walk. -/
def NoWrap (chip : NandChip) (offset acc length : Nat) : Prop :=
  ∀ a, chip.Visited offset (length - acc) a → chip.bad (a / chip.erasesize) = false → acc + chip.goodBefore offset (chip.next a) < 2 ^ 32

theorem goodBefore_next (h : offset < chip.size) (hb : chip.bad (offset / chip.erasesize) = false) :
    chip.goodBefore offset (chip.next offset) = chip.next offset - offset := by
  rw [goodBefore_good h hb (Nat.le_refl _), goodBefore_self (Nat.le_refl _), Nat.add_zero]

theorem NoWrap.bad (hw : chip.NoWrap offset acc length) (h : offset < chip.size)
    (hb : chip.bad (offset / chip.erasesize) = true) : chip.NoWrap (chip.next offset) acc length := by
  intro a hv hgood
  rw [← goodBefore_bad h hb]
  exact hw a (visited_of_bad h hb hv) hgood

theorem NoWrap.good (hw : chip.NoWrap offset acc length) (h : offset < chip.size)
    (hb : chip.bad (offset / chip.erasesize) = false) :
    chip.NoWrap (chip.next offset) (acc + (chip.next offset - offset)) length := by
  intro a hv hgood
  have hpos : 0 < length - (acc + (chip.next offset - offset)) := Nat.lt_of_le_of_lt (Nat.zero_le _) hv.2.2
  have hv' := visited_of_good h hb hv
  have hle : chip.next offset ≤ chip.next a := Nat.le_trans hv.1 (Nat.le_of_lt (chip.lt_next a))
  have hsum := hw a (by
    rwa [show length - acc = chip.next offset - offset + (length - (acc + (chip.next offset - offset))) by omega]) hgood
  rw [goodBefore_good h hb hle] at hsum
  omega

theorem checkSkipLenLoop_succ (hlt : acc < length) (h : offset < chip.size) :
    chip.checkSkipLenLoop length (fuel + 1) offset acc ret =
      if chip.bad (offset / chip.erasesize) = false then
        chip.checkSkipLenLoop length fuel (chip.next offset) ((acc + (chip.next offset - offset)) % 2 ^ 32) ret
      else chip.checkSkipLenLoop length fuel (chip.next offset) acc 1 := by
  have hlen : chip.next offset - offset = chip.erasesize - offset % chip.erasesize := Nat.add_sub_cancel_left ..
  rw [checkSkipLenLoop, if_pos hlt, if_neg (Nat.not_le.2 h), hlen]
  simp only [blockIsbad, Nat.mul_div_cancel _ chip.erasesize_pos, Bool.not_eq_true']
  rfl

theorem checkSkipLenLoop_fits (hf : chip.blocksLeft offset < fuel)
    (hret : ret = 0 ∨ ret = 1) (hfits : length ≤ acc + (chip.goodAddrs offset).length) (hw : chip.NoWrap offset acc length) :
    ∃ v, chip.checkSkipLenLoop length fuel offset acc ret = some v ∧ (v = 0 ∨ v = 1) ∧
      (v = 0 → ret = 0 ∧ (chip.goodAddrs offset).take (length - acc) = List.range' offset (length - acc)) ∧
      (v = 1 → ret = 1 ∨ ∃ a, chip.Visited offset (length - acc) a ∧ chip.bad (a / chip.erasesize) = true) := by
  induction fuel generalizing offset acc ret with
  | zero => exact absurd hf (Nat.not_lt_zero _)
  | succ fuel ih =>
    by_cases hlt : acc < length
    · have hoff : offset < chip.size := by
        by_contra hge
        rw [goodAddrs_end (Nat.le_of_not_lt hge)] at hfits
        exact absurd hlt (Nat.not_lt.2 hfits)
      have hblocks := blocksLeft_next hoff
      rw [checkSkipLenLoop_succ hlt hoff]
      cases hb : chip.bad (offset / chip.erasesize) with
      | true =>
        rw [if_neg (by decide)]
        rw [goodAddrs_bad hoff hb] at hfits
        have hret1 : (1 : Int) = 0 ∨ (1 : Int) = 1 := Or.inr rfl
        obtain ⟨v, hv, hv01, hv0, -⟩ := ih (by omega) hret1 hfits (hw.bad hoff hb)
        refine ⟨v, hv, hv01, fun h => absurd (hv0 h).1 (by decide), fun _ => Or.inr ⟨offset, visited_self hoff (by omega), hb⟩⟩
      | false =>
        have hsum := hw offset (visited_self hoff (by omega)) hb
        rw [goodBefore_next hoff hb] at hsum
        rw [if_pos rfl, Nat.mod_eq_of_lt hsum]
        have hgood := goodAddrs_good hoff hb
        rw [hgood, length_append, length_range'] at hfits
        obtain ⟨v, hv, hv01, hv0, hv1⟩ := ih (by omega) hret (by omega) (hw.good hoff hb)
        refine ⟨v, hv, hv01, ?_, ?_⟩
        · intro h
          obtain ⟨hr, htake⟩ := hv0 h
          refine ⟨hr, ?_⟩
          rw [take_goodAddrs hoff hb, Nat.sub_sub, htake, ← Nat.sub_sub, ← range'_split]
        · intro h
          rcases hv1 h with h1 | ⟨a, ha, hbad⟩
          · exact Or.inl h1
          · refine Or.inr ⟨a, ?_, hbad⟩
            have hpos : 0 < length - (acc + (chip.next offset - offset)) := Nat.lt_of_le_of_lt (Nat.zero_le _) ha.2.2
            have := visited_of_good hoff hb ha
            rwa [show chip.next offset - offset + (length - (acc + (chip.next offset - offset))) = length - acc by omega] at this
    · refine ⟨ret, ?_, hret, ?_, fun h => Or.inl h⟩
      · rw [checkSkipLenLoop, if_neg hlt]
      · intro h
        rw [show length - acc = 0 by omega]
        exact ⟨h, rfl⟩

/-- What `check_skip_len` says when the image does not fit. -/
theorem checkSkipLenLoop_short (hf : chip.blocksLeft offset < fuel) (hlen : length < 2 ^ 32)
    (hshort : acc + (chip.goodAddrs offset).length < length) : chip.checkSkipLenLoop length fuel offset acc ret = some (-1) := by
  induction fuel generalizing offset acc ret with
  | zero => exact absurd hf (Nat.not_lt_zero _)
  | succ fuel ih =>
    have hlt : acc < length := by omega
    by_cases hoff : offset < chip.size
    · have hblocks := blocksLeft_next hoff
      rw [checkSkipLenLoop_succ hlt hoff]
      cases hb : chip.bad (offset / chip.erasesize) with
      | true =>
        rw [goodAddrs_bad hoff hb] at hshort
        rw [if_neg (by decide)]
        exact ih (by omega) hshort
      | false =>
        rw [goodAddrs_good hoff hb, length_append, length_range'] at hshort
        rw [if_pos rfl, Nat.mod_eq_of_lt (by omega)]
        exact ih (by omega) (by omega)
    · rw [checkSkipLenLoop, if_pos hlt, if_pos (Nat.le_of_not_lt hoff)]

/-- A sum that has wrapped around never reaches the length: it keeps its remainder, and the last sum below 2³² with it was too small. -/
theorem checkSkipLenLoop_wrapped {top : Nat} (hf : chip.blocksLeft offset < fuel)
    (halign : offset % chip.erasesize = 0) (htop : top < length) (hlast : 2 ^ 32 ≤ top + chip.erasesize) (hacc : acc < 2 ^ 32)
    (hmod : acc % chip.erasesize = top % chip.erasesize) : chip.checkSkipLenLoop length fuel offset acc ret = some (-1) := by
  induction fuel generalizing offset acc ret with
  | zero => exact absurd hf (Nat.not_lt_zero _)
  | succ fuel ih =>
    have hle : acc ≤ top := by
      by_contra hgt
      have hdvd : chip.erasesize ∣ acc - top := Nat.dvd_of_mod_eq_zero (Nat.sub_mod_eq_zero_of_mod_eq hmod)
      have := Nat.le_of_dvd (by omega) hdvd
      omega
    have hlt : acc < length := Nat.lt_of_le_of_lt hle htop
    by_cases hoff : offset < chip.size
    · have hblocks := blocksLeft_next hoff
      have halign' : chip.next offset % chip.erasesize = 0 := by
        rw [next_eq]
        exact Nat.mul_mod_left _ _
      rw [checkSkipLenLoop_succ hlt hoff]
      split
      · apply ih (by omega) halign' (Nat.mod_lt _ (by decide))
        have hchunk : chip.next offset - offset = chip.erasesize := by
          rw [next, halign]
          omega
        rw [Nat.mod_mod_of_dvd _ chip.erasesize_dvd_pow, hchunk, Nat.add_mod_right, hmod]
      · exact ih (by omega) halign' hacc hmod
    · rw [checkSkipLenLoop, if_pos hlt, if_pos (Nat.le_of_not_lt hoff)]

theorem checkSkipLenLoop_wraps (hf : chip.blocksLeft offset < fuel) (hlen : length < 2 ^ 32)
    (halign : 0 < acc → offset % chip.erasesize = 0) (hacc : acc < length) (hw : ¬chip.NoWrap offset acc length) :
    chip.checkSkipLenLoop length fuel offset acc ret = some (-1) := by
  induction fuel generalizing offset acc ret with
  | zero => exact absurd hf (Nat.not_lt_zero _)
  | succ fuel ih =>
    -- some good block of the walk takes the sum to 2³²
    obtain ⟨a, hv, hgood, hsum⟩ : ∃ a, chip.Visited offset (length - acc) a ∧ chip.bad (a / chip.erasesize) = false ∧
        2 ^ 32 ≤ acc + chip.goodBefore offset (chip.next a) := by
      simpa [NoWrap] using hw
    have hoff : offset < chip.size := Nat.lt_of_le_of_lt hv.1 hv.2.1
    have hblocks := blocksLeft_next hoff
    have halign' : chip.next offset % chip.erasesize = 0 := by
      rw [next_eq]
      exact Nat.mul_mod_left _ _
    rw [checkSkipLenLoop_succ hacc hoff]
    cases hb : chip.bad (offset / chip.erasesize) with
    | true =>
      have hnext : chip.next offset ≤ a := by
        by_contra hlt
        rw [div_eq_of_lt_next hv.1 (Nat.lt_of_not_le hlt), hb] at hgood
        cases hgood
      rw [if_neg (by decide)]
      apply ih (by omega) (fun _ => halign') hacc
      intro hw'
      have := hw' a ⟨hnext, hv.2.1, by rw [← goodBefore_bad hoff hb]; exact hv.2.2⟩ hgood
      rw [← goodBefore_bad hoff hb] at this
      omega
    | false =>
      rw [if_pos rfl]
      have hchunk : chip.next offset - offset ≤ chip.erasesize := by
        rw [next]
        omega
      have hE := chip.erasesize_le
      by_cases hwrap : 2 ^ 32 ≤ acc + (chip.next offset - offset)
      · have hfull : chip.next offset - offset = chip.erasesize := by
          rw [next, halign (by omega)]
          omega
        rw [hfull] at hwrap ⊢
        apply checkSkipLenLoop_wrapped (by omega) halign' hacc hwrap (Nat.mod_lt _ (by decide))
        rw [Nat.mod_mod_of_dvd _ chip.erasesize_dvd_pow, Nat.add_mod_right]
      · have hnext : chip.next offset ≤ a := by
          by_contra hlt
          have hsame : chip.next a = chip.next offset := by
            rw [next_eq, div_eq_of_lt_next hv.1 (Nat.lt_of_not_le hlt), ← next_eq]
          rw [hsame, goodBefore_next hoff hb] at hsum
          exact hwrap hsum
        have hcount := goodBefore_good hoff hb (next_le_blockStart hnext)
        have hbefore := hv.2.2
        rw [hcount] at hbefore
        rw [Nat.mod_eq_of_lt (by omega)]
        apply ih (by omega) (fun _ => halign') (by omega)
        intro hw'
        have := hw' a ⟨hnext, hv.2.1, by omega⟩ hgood
        rw [goodBefore_good hoff hb (Nat.le_trans hnext (Nat.le_of_lt (chip.lt_next a)))] at hsum
        omega

/-- More steps do not change what `check_skip_len` says. -/
theorem checkSkipLenLoop_mono {fuel' : Nat} {v : Int} (hle : fuel ≤ fuel')
    (h : chip.checkSkipLenLoop length fuel offset acc ret = some v) : chip.checkSkipLenLoop length fuel' offset acc ret = some v := by
  induction fuel generalizing fuel' offset acc ret with
  | zero => cases h
  | succ fuel ih =>
    obtain ⟨fuel', rfl⟩ : ∃ k, fuel' = k + 1 := ⟨fuel' - 1, by omega⟩
    have hle' : fuel ≤ fuel' := Nat.le_of_succ_le_succ hle
    rw [checkSkipLenLoop] at h ⊢
    split at h
    · rename_i hlt
      rw [if_pos hlt]
      split at h
      · rename_i hend
        rwa [if_pos hend]
      · rename_i hend
        rw [if_neg hend]
        dsimp only at h ⊢
        split at h
        · rename_i hbad
          rw [if_pos hbad]
          exact ih hle' h
        · rename_i hbad
          rw [if_neg hbad]
          exact ih hle' h
    · rename_i hlt
      rwa [if_neg hlt]

/-- What `check_skip_len` says with some number of steps is what it says with enough of them. -/
theorem checkSkipLen_eq {fuel' : Nat} {v v' : Int} (h : chip.checkSkipLen fuel offset length = some v)
    (h' : chip.checkSkipLen fuel' offset length = some v') : v = v' := by
  have h1 := checkSkipLenLoop_mono (Nat.le_max_left fuel fuel') h
  have h2 := checkSkipLenLoop_mono (Nat.le_max_right fuel fuel') h'
  exact Option.some.inj (h1.symm.trans h2)

end NandChip

end UBoot
