import UBoot.Lemmas.NandLoops

/-!
# Data written around bad blocks is read back

Where the blocks are tested at their own addresses, the buffer is laid over the good bytes and read in the same order.
-/

namespace UBoot

open Lib List

namespace NandChip

/-- What is asked of `nand_write_skip_bad` and a following `nand_read_skip_bad`: they refuse exactly what does not fit; otherwise no byte of
a bad block is written, what is read is what was written, and only bytes of the buffer are read. -/
def RoundTrips (chip : NandChip) (flash : Nat → UInt8) (offset length : Nat) (buffer : Nat → UInt8) (drop : Bool) : Prop :=
  ∃ fuel w r, chip.nandWriteSkipBad fuel flash offset length buffer drop = some w ∧ chip.nandReadSkipBad fuel w.flash offset length = some r ∧
    (w.rval = -EINVAL ↔ (chip.goodAddrs offset).length < length) ∧ (r.rval = -EINVAL ↔ (chip.goodAddrs offset).length < length) ∧
    (length ≤ (chip.goodAddrs offset).length → w.rval = 0 ∧ r.rval = 0 ∧ (∀ a ∈ touched w.calls, chip.bad (a / chip.erasesize) = false) ∧
      (∀ a, chip.bad (a / chip.erasesize) = true → w.flash a = flash a) ∧ r.bytes = bufferBytes buffer 0 length ∧
      ∀ x ∈ w.reads, x < length)

/-- The chunk that goes to the first good block has a byte that is not 0xff. -/
def FirstChunk (chip : NandChip) (offset length : Nat) (buffer : Nat → UInt8) : Prop :=
  ∀ g ∈ (chip.goodAddrs offset).head?, ∃ i < min length (chip.next g - g), buffer i ≠ 0xff

section

variable {chip : NandChip} {flash buffer : Nat → UInt8} {offset length fuel : Nat} {drop : Bool}
variable {v : Int}

/-- A whole write. -/
structure Written (chip : NandChip) (flash : Nat → UInt8) (offset length : Nat) (buffer : Nat → UInt8) (drop : Bool) (w : SkipWrite) : Prop
    where
  rval : w.rval = 0
  laid : Laid flash w.flash ((chip.goodAddrs offset).take length) (bufferBytes buffer 0 length)
  calls : ∀ a ∈ touched w.calls, a ∈ (chip.goodAddrs offset).take length
  all : drop = false → ∀ a ∈ (chip.goodAddrs offset).take length, a ∈ touched w.calls
  reads : ∀ x ∈ w.reads, x < length

theorem range_le_size (hoff : offset ≤ chip.size) (htake : (chip.goodAddrs offset).take length = List.range' offset length) :
    offset + length ≤ chip.size ∧ ∀ i < length, chip.bad ((offset + i) / chip.erasesize) = false := by
  have hmem : ∀ i < length, offset + i ∈ chip.goodAddrs offset := by
    intro i hi
    apply mem_of_mem_take (i := length)
    rw [htake, mem_range'_1]
    omega
  refine ⟨?_, fun i hi => (mem_goodAddrs.1 (hmem i hi)).2.2⟩
  rcases Nat.eq_zero_or_pos length with rfl | hpos
  · exact hoff
  · have := (mem_goodAddrs.1 (hmem (length - 1) (by omega))).2.1
    omega

theorem written (hpage : offset % chip.writesize = 0) (hoff : offset ≤ chip.size) (hlen : length < 2 ^ 32)
    (herased : ∀ a ∈ (chip.goodAddrs offset).take length, flash a = 0xff) (hfits : length ≤ (chip.goodAddrs offset).length)
    (hcheck : chip.checkSkipLen fuel offset length = some v) (hv : v = 0 ∨ v = 1)
    (htake : v = 0 → (chip.goodAddrs offset).take length = List.range' offset length)
    (hown : v = 1 ∨ drop = true → chip.OwnTest offset length) (hfirst : drop = true → 0 < length → chip.FirstChunk offset length buffer)
    (hf : chip.blocksLeft offset + length < fuel) :
    ∃ w, chip.nandWriteSkipBad fuel flash offset length buffer drop = some w ∧ Written chip flash offset length buffer drop w := by
  have hneg : ¬v < 0 := by
    rcases hv with rfl | rfl
    · decide
    · decide
  rw [nandWriteSkipBad, if_neg (not_not.2 hpage), hcheck]
  simp only [if_neg hneg]
  by_cases hfast : v = 0 ∧ drop = false
  · obtain ⟨hsize, hgood⟩ := range_le_size hoff (htake hfast.1)
    have hwrite := chip.write_good flash offset (bufferBytes buffer 0 length) (by rwa [length_bufferBytes])
      (by rwa [length_bufferBytes]) (fun i hi => by
        rw [length_bufferBytes] at hi
        apply herased
        rw [htake hfast.1, mem_range'_1]
        omega)
    simp only [if_pos hfast, hwrite, if_true]
    refine ⟨_, rfl, rfl, ?_, ?_, ?_, ?_⟩
    · have hlaid : Laid flash (store flash offset (bufferBytes buffer 0 length)) (List.range' offset length)
          (bufferBytes buffer 0 length ++ []) :=
        laid_store (by rw [append_nil, length_bufferBytes]) (fun i y hy => by cases hy)
      rw [htake hfast.1]
      rwa [append_nil] at hlaid
    · intro a ha
      rw [htake hfast.1]
      simpa [touched] using ha
    · intro _ a ha
      rw [htake hfast.1] at ha
      simpa [touched] using ha
    · intro x hx
      obtain ⟨i, hi, rfl⟩ := mem_map.1 hx
      rw [mem_range'_1] at hi
      rw [Nat.mod_eq_of_lt (by omega)]
      omega
  · simp only [if_neg hfast]
    have hown' : chip.OwnTest offset length := by
      apply hown
      cases drop with
      | true => exact Or.inr rfl
      | false =>
        rcases hv with h | h
        · exact absurd ⟨h, rfl⟩ hfast
        · exact Or.inl h
    obtain ⟨w', hloop, hrval, -, hwrote⟩ := writeLoop_writes (w := ⟨0, length, flash, [], []⟩) hf (Nat.zero_add length) hlen hfits hown'
      herased (fun hd hpos => Or.inr (by
        intro g hg
        obtain ⟨i, hi, hne⟩ := hfirst hd hpos g hg
        exact ⟨i, hi, by rwa [Nat.zero_add]⟩))
    refine ⟨w', hloop, hrval, hwrote.laid, ?_, fun hd a ha => hwrote.all hd a (Or.inr ha), ?_⟩
    · intro a ha
      rcases hwrote.calls a ha with h | h
      · cases h
      · exact h
    · intro x hx
      rcases hwrote.reads x hx with h | h
      · cases h
      · exact h

theorem read_back (hpage : offset % chip.writesize = 0) (hoff : offset ≤ chip.size) (hfits : length ≤ (chip.goodAddrs offset).length)
    (hcheck : chip.checkSkipLen fuel offset length = some v) (hv : v = 0 ∨ v = 1)
    (htake : v = 0 → (chip.goodAddrs offset).take length = List.range' offset length) (hown : v = 1 → chip.OwnTest offset length)
    (hf : chip.blocksLeft offset < fuel) :
    ∃ r, chip.nandReadSkipBad fuel flash offset length = some r ∧ r.rval = 0 ∧ r.bytes = ((chip.goodAddrs offset).take length).map flash := by
  rw [nandReadSkipBad, if_neg (not_not.2 hpage), hcheck]
  rcases hv with rfl | rfl
  · obtain ⟨hsize, hgood⟩ := range_le_size hoff (htake rfl)
    obtain ⟨hrval, hgot⟩ := chip.read_good flash offset length hsize hgood
    simp only [Int.lt_irrefl, if_false, if_true, if_pos hrval]
    exact ⟨_, rfl, rfl, by rw [htake rfl, hgot]⟩
  · simp only [show ¬(1 : Int) < 0 by decide, show ¬(1 : Int) = 0 by decide, if_false]
    rw [readLoop_reads hf hfits (hown rfl)]
    exact ⟨_, rfl, rfl, by rw [nil_append]⟩

/-- With `drop_ffs` and a first chunk of nothing but 0xff, no result satisfies the property. -/
theorem not_roundTrips_of_ff (hpage : offset % chip.writesize = 0) (hlen : length < 2 ^ 32) (hpos : 0 < length)
    (hfits : length ≤ (chip.goodAddrs offset).length) (hw : chip.NoWrap offset 0 length) (hown : chip.OwnTest offset length)
    (hfirst : ¬chip.FirstChunk offset length buffer) : ¬chip.RoundTrips flash offset length buffer true := by
  rintro ⟨fuel, w, r, hwrite, -, -, -, hrest⟩
  obtain ⟨g, hg, hff⟩ : ∃ g, (chip.goodAddrs offset).head? = some g ∧ ∀ i < min length (chip.next g - g), buffer i = 0xff := by
    simpa [FirstChunk] using hfirst
  obtain ⟨v, hcheck, hv, -, -⟩ := checkSkipLenLoop_fits (Nat.lt_succ_self _) (Or.inl rfl) (by rwa [Nat.zero_add]) hw
  rw [nandWriteSkipBad, if_neg (not_not.2 hpage)] at hwrite
  split at hwrite
  · cases hwrite
  · rename_i v' hcheck'
    obtain rfl := checkSkipLen_eq hcheck hcheck'
    have hneg : ¬v < 0 := by
      rcases hv with rfl | rfl
      · decide
      · decide
    simp only [if_neg hneg, Bool.true_eq_false, and_false, if_false] at hwrite
    have hbelow := writeLoop_below hpos hlen hfits hown hg hff hwrite
    have := (hrest hfits).2.2.2.2.2 _ hbelow
    omega

/-- If the sum of `check_skip_len` wraps around, the image is refused though it fits. -/
theorem not_roundTrips_of_wrap (hpage : offset % chip.writesize = 0) (hlen : length < 2 ^ 32)
    (hfits : length ≤ (chip.goodAddrs offset).length) (hw : ¬chip.NoWrap offset 0 length) :
    ¬chip.RoundTrips flash offset length buffer drop := by
  rintro ⟨fuel, w, r, hwrite, -, hiff, -⟩
  have hpos : 0 < length := by
    rcases Nat.eq_zero_or_pos length with rfl | hpos
    · exact absurd (fun a ha _ => absurd ha.2.2 (Nat.not_lt_zero _)) hw
    · exact hpos
  have hcheck : chip.checkSkipLen (chip.blocksLeft offset + 1) offset length = some (-1) :=
    checkSkipLenLoop_wraps (Nat.lt_succ_self _) hlen (fun h => absurd h (Nat.lt_irrefl 0)) hpos hw
  rw [nandWriteSkipBad, if_neg (not_not.2 hpage)] at hwrite
  split at hwrite
  · cases hwrite
  · rename_i v' hcheck'
    obtain rfl := checkSkipLen_eq hcheck hcheck'
    obtain rfl := Option.some.inj hwrite
    exact absurd (hiff.1 rfl) (Nat.not_lt.2 hfits)

end

end NandChip

/-- Where the loops test each block at its own address, an image is written and read back as it should be if and only if it does not fit, or
the sum of `check_skip_len` does not wrap around and, with `WITH_DROP_FFS`, the first chunk has a byte that is not 0xff. -/
theorem nand_skip_bad_round_trip (chip : NandChip) (flash : Nat → UInt8) (offset length : Nat) (buffer : Nat → UInt8) (drop : Bool)
    (hpage : offset % chip.writesize = 0) (hoff : offset ≤ chip.size) (hlen : length < 2 ^ 32)
    (herased : ∀ a ∈ chip.goodAddrs offset, flash a = 0xff)
    (hown : length ≤ (chip.goodAddrs offset).length →
      (drop = true ∨ ∃ a, chip.Visited offset length a ∧ chip.bad (a / chip.erasesize) = true) → chip.OwnTest offset length) :
    chip.RoundTrips flash offset length buffer drop ↔ (length ≤ (chip.goodAddrs offset).length →
        chip.NoWrap offset 0 length ∧ (drop = true → 0 < length → chip.FirstChunk offset length buffer)) := by
  constructor
  · intro h hfits
    have hw : chip.NoWrap offset 0 length := by
      by_contra hw
      exact NandChip.not_roundTrips_of_wrap hpage hlen hfits hw h
    refine ⟨hw, ?_⟩
    rintro rfl hpos
    by_contra hfirst
    exact NandChip.not_roundTrips_of_ff hpage hlen hpos hfits hw (hown hfits (Or.inl rfl)) hfirst h
  · intro hcond
    rcases Nat.lt_or_ge (chip.goodAddrs offset).length length with hshort | hfits
    · have hcheck : chip.checkSkipLen (chip.blocksLeft offset + 1) offset length = some (-1) :=
        NandChip.checkSkipLenLoop_short (Nat.lt_succ_self _) hlen (by rwa [Nat.zero_add])
      refine ⟨chip.blocksLeft offset + 1, ⟨-EINVAL, 0, flash, [], []⟩, ⟨-EINVAL, 0, []⟩, ?_, ?_, ?_, ?_, ?_⟩
      · rw [NandChip.nandWriteSkipBad, if_neg (not_not.2 hpage), hcheck]
        rfl
      · rw [NandChip.nandReadSkipBad, if_neg (not_not.2 hpage), hcheck]
        rfl
      · exact ⟨fun _ => hshort, fun _ => rfl⟩
      · exact ⟨fun _ => hshort, fun _ => rfl⟩
      · exact fun h => absurd h (Nat.not_le.2 hshort)
    · obtain ⟨hw, hfirst⟩ := hcond hfits
      have hf : chip.blocksLeft offset + length < chip.blocksLeft offset + length + 1 := Nat.lt_succ_self _
      have hf' : chip.blocksLeft offset < chip.blocksLeft offset + length + 1 := by omega
      obtain ⟨v, hcheck, hv, hv0, hv1⟩ := NandChip.checkSkipLenLoop_fits hf' (Or.inl rfl) (by rwa [Nat.zero_add]) hw
      have hone : v = 1 → ∃ a, chip.Visited offset length a ∧ chip.bad (a / chip.erasesize) = true := by
        intro h
        rcases hv1 h with h0 | h1
        · cases h0
        · exact h1
      obtain ⟨w, hwrite, hwritten⟩ := NandChip.written hpage hoff hlen (fun a ha => herased a (mem_of_mem_take ha)) hfits hcheck hv
        (fun h => (hv0 h).2) (fun h => hown hfits (h.elim (fun h => Or.inr (hone h)) Or.inl)) hfirst hf
      obtain ⟨r, hread, hrval, hbytes⟩ := NandChip.read_back hpage hoff hfits hcheck hv (fun h => (hv0 h).2)
        (fun h => hown hfits (Or.inr (hone h))) hf'
      have hno : ¬(chip.goodAddrs offset).length < length := Nat.not_lt.2 hfits
      refine ⟨_, w, r, hwrite, hread, ?_, ?_, fun _ => ⟨hwritten.rval, hrval, ?_, ?_, ?_, hwritten.reads⟩⟩
      · rw [hwritten.rval]
        exact ⟨fun h => absurd h (by decide), fun h => absurd h hno⟩
      · rw [hrval]
        exact ⟨fun h => absurd h (by decide), fun h => absurd h hno⟩
      · intro a ha
        exact (NandChip.mem_goodAddrs.1 (mem_of_mem_take (hwritten.calls a ha))).2.2
      · intro a ha
        apply hwritten.laid.frame
        intro hmem
        rw [(NandChip.mem_goodAddrs.1 (mem_of_mem_take hmem)).2.2] at ha
        cases ha
      · rw [hbytes, hwritten.laid.values]

/-! ## Devices -/

/-- A device with pages of one byte whose cells are read and written as they are. -/
def plainChip (size k : Nat) (bad : Nat → Bool) (hk : k ≤ 31) (hsize : 2 ^ k ∣ size) : NandChip where
  size := size
  erasesize := 2 ^ k
  writesize := 1
  bad := bad
  nandWrite flash offset bytes := if offset + bytes.length ≤ size then (0, bytes.length, store flash offset bytes) else (-EINVAL, 0, flash)
  nandRead flash offset length := if offset + length ≤ size then (0, (List.range' offset length).map flash) else (-EINVAL, [])
  erasesize_pow := ⟨k, hk, rfl⟩
  writesize_pow := ⟨0, rfl⟩
  writesize_dvd := ⟨2 ^ k, (Nat.one_mul _).symm⟩
  erasesize_dvd := hsize
  write_good _ _ _ h _ _ := if_pos h
  read_good _ _ _ h _ := by
    rw [if_pos h]
    exact ⟨Or.inl rfl, rfl⟩

/-- Four blocks of two bytes, the second one bad. -/
def smallChip : NandChip := plainChip 8 1 (· == 1) (by decide) (by decide)

/-- Three bytes from the middle of the first block on, the last two of them 0xff. -/
theorem nand_skip_bad_round_trip_small : smallChip.RoundTrips (fun _ => 0xff) 1 3 (fun i => if i = 0 then 0x55 else 0xff) true := by
  refine (nand_skip_bad_round_trip smallChip (fun _ => 0xff) 1 3 _ true rfl (by decide) (by decide) (fun _ _ => rfl) ?_).2 ?_
  · intro _ _ a ha
    rw [Nat.mod_eq_of_lt (Nat.lt_trans ha.2.1 (by decide))]
  · intro _
    refine ⟨?_, ?_⟩
    · intro a _ _
      rw [Nat.zero_add]
      exact Nat.lt_of_le_of_lt (length_filter_le _ _) (by decide)
    · intro _ _ g hg
      obtain rfl : 1 = g := Option.some.inj hg
      exact ⟨0, by decide, by decide⟩

/-- Blocks of two bytes on both sides of 4 GiB; the one at 4 GiB is bad. -/
def largeChip : NandChip := plainChip (2 ^ 32 + 4) 1 (· == 2 ^ 31) (by decide) (by decide)

/-- With `WITH_DROP_FFS` a buffer that begins with 0xff is read below its start; without, the bad block at 4 GiB is written, since the
block that is tested is the one at 0. -/
theorem nand_skip_bad_round_trip_false :
    (¬∀ (chip : NandChip) (flash : Nat → UInt8) (offset length : Nat) (buffer : Nat → UInt8), offset % chip.writesize = 0 →
      offset ≤ chip.size → length < 2 ^ 32 → (∀ a ∈ chip.goodAddrs offset, flash a = 0xff) → chip.RoundTrips flash offset length buffer true) ∧
    ¬∀ (chip : NandChip) (flash : Nat → UInt8) (offset length : Nat) (buffer : Nat → UInt8), offset % chip.writesize = 0 →
      offset ≤ chip.size → length < 2 ^ 32 → (∀ a ∈ chip.goodAddrs offset, flash a = 0xff) →
        chip.RoundTrips flash offset length buffer false := by
  refine ⟨?_, ?_⟩
  · intro h
    refine NandChip.not_roundTrips_of_ff rfl (by decide) (by decide) (by decide) ?_ ?_ ?_
      (h smallChip (fun _ => 0xff) 0 2 (fun i => if i < 2 then 0xff else 0) rfl (by decide) (by decide) (fun _ _ => rfl))
    · intro a _ _
      rw [Nat.zero_add]
      exact Nat.lt_of_le_of_lt (length_filter_le _ _) (by decide)
    · intro a ha
      rw [Nat.mod_eq_of_lt (Nat.lt_trans ha.2.1 (by decide))]
    · intro hfirst
      obtain ⟨i, hi, hne⟩ := hfirst 0 rfl
      have : i < 2 := Nat.lt_of_lt_of_le hi (by decide)
      simp [this] at hne
  · intro h
    obtain ⟨fuel, w, r, hwrite, -, -, -, hrest⟩ := h largeChip (fun _ => 0xff) (2 ^ 32 - 2) 3 (fun _ => 0) rfl (by decide) (by decide)
      (fun _ _ => rfl)
    rcases fuel with _ | _ | _ | _ | fuel
    iterate 4 cases hwrite
    have hcalls : some [(2 ^ 32 - 2, 2), (2 ^ 32, 1)] = some w.calls := congrArg (Option.map NandChip.SkipWrite.calls) hwrite
    have hbad := (hrest (by decide)).2.2.1 (2 ^ 32)
    rw [← Option.some.inj hcalls] at hbad
    exact absurd (hbad (by decide)) (by decide)

end UBoot
