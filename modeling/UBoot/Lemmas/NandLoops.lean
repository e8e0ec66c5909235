import UBoot.Lemmas.NandWalk

/-!
# The loops that write and read around bad blocks

Where the test of each block is made at the block's own address, the loop of `nand_write_skip_bad` lays the buffer over the good bytes in
order, and the loop of `nand_read_skip_bad` reads them in the same order.
-/

namespace UBoot

open Lib List Option

namespace NandChip

variable {chip : NandChip} {buffer : Nat → UInt8} {pos : Nat}
variable {fuel i j n offset left length : Nat} {reads : List Nat} {drop : Bool} {w w' : SkipWrite}

/-! ## Trailing 0xff bytes -/

/-- The scan of `drop_ffs` stops at the last byte that is not 0xff, if there is one at or below the index it starts from. -/
theorem dropFfsLoop_stops {x z : Nat} (hxz : x ≤ z) (hz : z < 2 ^ 32) (hi : i < 2 ^ 32) (hzi : (pos + i) % 2 ^ 32 = z)
    (hx : buffer x ≠ 0xff) (hf : z - x < fuel) :
    ∃ j y reads, dropFfsLoop buffer pos fuel i = some (j, reads) ∧ x ≤ y ∧ y ≤ z ∧ j = (i + 2 ^ 32 - (z - y)) % 2 ^ 32 ∧
      (∀ k, y < k → k ≤ z → buffer k = 0xff) ∧ ∀ r ∈ reads, r ≤ z := by
  induction fuel generalizing i z with
  | zero => exact absurd hf (Nat.not_lt_zero _)
  | succ fuel ih =>
    rw [dropFfsLoop, hzi]
    by_cases hb : buffer z ≠ 0xff
    · refine ⟨i, z, [z], by rw [if_pos hb], hxz, Nat.le_refl _, by omega, fun k h1 h2 => absurd h1 (Nat.not_lt.2 h2), ?_⟩
      intro r hr
      exact Nat.le_of_eq (mem_singleton.1 hr)
    · have hff : buffer z = 0xff := not_not.1 hb
      have hne : x ≠ z := by
        rintro rfl
        exact hx hff
      obtain ⟨j, y, reads, hloop, h1, h2, h3, h4, h5⟩ :=
        ih (z := z - 1) (i := (i + 2 ^ 32 - 1) % 2 ^ 32) (by omega) (by omega) (by omega) (by omega) (by omega)
      refine ⟨j, y, z :: reads, by rw [if_neg hb, hloop]; rfl, h1, by omega, by omega, ?_, ?_⟩
      · intro k hk hkz
        rcases Nat.eq_or_lt_of_le hkz with rfl | hlt
        · exact hff
        · exact h4 k hk (by omega)
      · intro r hr
        rcases mem_cons.1 hr with rfl | hr
        · exact Nat.le_refl _
        · exact Nat.le_trans (h5 r hr) (Nat.sub_le _ _)

theorem dropFfsLoop_first (h : dropFfsLoop buffer pos fuel i = some (j, reads)) :
    (pos + i) % 2 ^ 32 ∈ reads := by
  cases fuel with
  | zero => cases h
  | succ fuel =>
    rw [dropFfsLoop] at h
    split at h
    · obtain ⟨-, rfl⟩ := Prod.mk.inj (some.inj h)
      exact mem_singleton_self _
    · obtain ⟨⟨j', reads'⟩, -, heq⟩ := map_eq_some_iff.1 h
      obtain ⟨-, rfl⟩ := Prod.mk.inj heq
      exact mem_cons_self ..

theorem dropFfsLoop_below (hi : i < 2 ^ 32) (hall : ∀ k ≤ i, buffer k = 0xff)
    (h : dropFfsLoop buffer 0 fuel i = some (j, reads)) : 2 ^ 32 - 1 ∈ reads := by
  induction fuel generalizing i j reads with
  | zero => cases h
  | succ fuel ih =>
    rw [dropFfsLoop, Nat.zero_add, Nat.mod_eq_of_lt hi, hall i (Nat.le_refl i), if_neg (by simp)] at h
    obtain ⟨⟨j', reads'⟩, hrest, heq⟩ := map_eq_some_iff.1 h
    obtain ⟨-, rfl⟩ := Prod.mk.inj heq
    apply mem_cons_of_mem
    rcases Nat.eq_zero_or_pos i with rfl | hpos
    · simpa using dropFfsLoop_first hrest
    · exact ih (Nat.mod_lt _ (by decide)) (fun k hk => hall k (by omega)) hrest

theorem le_roundUp (chip : NandChip) (hj : j < chip.erasesize) :
    j + 1 ≤ ((j + 1) % 2 ^ 32 + chip.writesize - 1) % 2 ^ 32 / chip.writesize * chip.writesize % 2 ^ 32 := by
  have hE := chip.erasesize_le
  have hws : chip.writesize ≤ chip.erasesize := Nat.le_of_dvd chip.erasesize_pos chip.writesize_dvd
  have hpos : 0 < chip.writesize := by
    obtain ⟨k, hk⟩ := chip.writesize_pow
    rw [hk]
    exact Nat.two_pow_pos k
  have hround := Nat.div_mul_le_self (j + 1 + chip.writesize - 1) chip.writesize
  have hmod := Nat.div_add_mod' (j + 1 + chip.writesize - 1) chip.writesize
  have hrem := Nat.mod_lt (j + 1 + chip.writesize - 1) hpos
  rw [Nat.mod_eq_of_lt (show j + 1 < 2 ^ 32 by omega), Nat.mod_eq_of_lt (show j + 1 + chip.writesize - 1 < 2 ^ 32 by omega),
    Nat.mod_eq_of_lt (show (j + 1 + chip.writesize - 1) / chip.writesize * chip.writesize < 2 ^ 32 by omega)]
  omega

/-- What is left of a chunk to write, and what was read to find it. -/
theorem truncatedSize_spec (hn : 0 < n) (hnE : n ≤ chip.erasesize) (hpos : pos + n < 2 ^ 32)
    (hx : drop = true → ∃ x < pos + n, buffer x ≠ 0xff) (hf : pos + n ≤ fuel) :
    ∃ t reads, chip.truncatedSize drop buffer pos n fuel = some (t, reads) ∧ t ≤ n ∧
      (∀ k, pos + t ≤ k → k < pos + n → buffer k = 0xff) ∧ ∀ r ∈ reads, r < pos + n := by
  cases drop with
  | false =>
    refine ⟨n, [], rfl, Nat.le_refl _, fun k h1 h2 => absurd h2 (Nat.not_lt.2 h1), ?_⟩
    intro r hr
    cases hr
  | true =>
    obtain ⟨x, hxn, hx⟩ := hx rfl
    have hE := chip.erasesize_le
    have hlast : (pos + (n + 2 ^ 32 - 1) % 2 ^ 32) % 2 ^ 32 = pos + n - 1 := by omega
    have hsteps : pos + n - 1 - x < fuel := by omega
    obtain ⟨j, y, reads, hloop, hxy, hyz, hj, hff, hreads⟩ :=
      dropFfsLoop_stops (by omega) (by omega) (Nat.mod_lt _ (by decide)) hlast hx hsteps
    refine ⟨_, reads, by rw [truncatedSize, if_pos rfl, dropFfs, hloop]; rfl, Nat.min_le_right _ _, ?_, ?_⟩
    · intro k hk hkn
      apply hff k _ (by omega)
      by_contra hky
      -- the scan stopped inside the chunk, and the rounded length covers the byte
      have hjy : j = y - pos := by omega
      have hround := chip.le_roundUp (j := j) (by omega)
      omega
    · intro r hr
      have := hreads r hr
      omega

/-! ## The test of a block -/

/-- Each block of the walk is as good or as bad as the one at its address modulo 2³², which is the one the loops look at. -/
def OwnTest (chip : NandChip) (offset n : Nat) : Prop :=
  ∀ a, chip.Visited offset n a → chip.bad (a % 2 ^ 32 / chip.erasesize) = chip.bad (a / chip.erasesize)

theorem OwnTest.test (h : chip.OwnTest offset n) (hoff : offset < chip.size) (hn : 0 < n) :
    chip.blockIsbad (chip.maskedStart offset) = chip.bad (offset / chip.erasesize) := by
  rw [blockIsbad, maskedStart, Nat.mul_div_cancel _ chip.erasesize_pos]
  exact h offset (visited_self hoff hn)

theorem OwnTest.bad (h : chip.OwnTest offset n) (hoff : offset < chip.size)
    (hb : chip.bad (offset / chip.erasesize) = true) : chip.OwnTest (chip.next offset) n :=
  fun a ha => h a (visited_of_bad hoff hb ha)

theorem OwnTest.good (h : chip.OwnTest offset n) (hoff : offset < chip.size)
    (hb : chip.bad (offset / chip.erasesize) = false) (hn : chip.next offset - offset ≤ n) :
    chip.OwnTest (chip.next offset) (n - (chip.next offset - offset)) := by
  intro a ha
  apply h a
  have := visited_of_good hoff hb ha
  rwa [Nat.add_sub_cancel' hn] at this

theorem lt_size_of_fits (hleft : 0 < left) (hfits : left ≤ (chip.goodAddrs offset).length) : offset < chip.size := by
  by_contra hge
  rw [goodAddrs_end (Nat.le_of_not_lt hge)] at hfits
  exact absurd hleft (Nat.not_lt.2 hfits)

/-! ## Writing -/

theorem length_bufferBytes (buffer : Nat → UInt8) (pos n : Nat) : (bufferBytes buffer pos n).length = n := by
  simp [bufferBytes]

theorem bufferBytes_add (buffer : Nat → UInt8) (pos k n : Nat) :
    bufferBytes buffer pos (k + n) = bufferBytes buffer pos k ++ bufferBytes buffer (pos + k) n := by
  rw [bufferBytes, ← range'_append_1, map_append]
  rfl

theorem getElem?_bufferBytes {y : UInt8} (h : (bufferBytes buffer pos n)[i]? = some y) :
    i < n ∧ y = buffer ((pos + i) % 2 ^ 32) := by
  obtain ⟨hi, hy⟩ := List.getElem?_eq_some_iff.1 h
  rw [length_bufferBytes] at hi
  refine ⟨hi, ?_⟩
  rw [← hy]
  simp [bufferBytes]

/-- The cells that were asked to be written. -/
def touched (calls : List (Nat × Nat)) : List Nat := calls.flatMap fun c => List.range' c.1 c.2

/-- A part of the buffer was laid over the good bytes from an offset on. -/
structure Wrote (chip : NandChip) (drop : Bool) (buffer : Nat → UInt8) (length offset left pos : Nat) (w w' : SkipWrite) : Prop where
  laid : Laid w.flash w'.flash ((chip.goodAddrs offset).take left) (bufferBytes buffer pos left)
  calls : ∀ a ∈ touched w'.calls, a ∈ touched w.calls ∨ a ∈ (chip.goodAddrs offset).take left
  all : drop = false → ∀ a, a ∈ touched w.calls ∨ a ∈ (chip.goodAddrs offset).take left → a ∈ touched w'.calls
  reads : ∀ x ∈ w'.reads, x ∈ w.reads ∨ x < length

/-- The result of one chunk. -/
def chunkWritten (buffer : Nat → UInt8) (offset pos t : Nat) (reads : List Nat) (w : SkipWrite) : SkipWrite :=
  { w with
    flash := store w.flash offset (bufferBytes buffer pos t)
    calls := w.calls ++ [(offset, t)]
    reads := w.reads ++ reads ++ (List.range' pos t).map (· % 2 ^ 32) }

theorem chunk_size (chip : NandChip) (offset left : Nat) :
    (if left < chip.erasesize - offset % chip.erasesize then left else chip.erasesize - offset % chip.erasesize) =
      min left (chip.next offset - offset) := by
  have hchunk : chip.next offset - offset = chip.erasesize - offset % chip.erasesize := Nat.add_sub_cancel_left ..
  rw [hchunk]
  split
  · exact (Nat.min_eq_left (by omega)).symm
  · exact (Nat.min_eq_right (by omega)).symm

theorem writeLoop_good (hleft : 0 < left) (hoff : offset < chip.size)
    (htest : chip.blockIsbad (chip.maskedStart offset) = false) (hb : chip.bad (offset / chip.erasesize) = false)
    {t : Nat} (hn : n = min left (chip.next offset - offset)) (ht : t ≤ n)
    (htrunc : chip.truncatedSize drop buffer pos n fuel = some (t, reads))
    (herased : ∀ a ∈ List.range' offset n, w.flash a = 0xff) :
    chip.writeLoop drop buffer length (fuel + 1) offset left pos w =
      chip.writeLoop drop buffer length fuel (offset + n) (left - n) (pos + n) (chunkWritten buffer offset pos t reads w) := by
  have hsize := chip.chunk_size offset left
  rw [← hn] at hsize
  have hle := chip.next_le_size hoff
  have hlt := chip.lt_next offset
  have hwrite := chip.write_good w.flash offset (bufferBytes buffer pos t) (by rw [length_bufferBytes]; omega) (fun i hi => by
      rw [length_bufferBytes] at hi
      have hblock := div_eq_of_lt_next (Nat.le_add_right offset i) (show offset + i < chip.next offset by omega)
      rw [hblock, hb])
    (fun i hi => by
      rw [length_bufferBytes] at hi
      exact herased _ (mem_range'_1.2 (by omega)))
  rw [writeLoop, if_neg (Nat.pos_iff_ne_zero.1 hleft)]
  simp only [htest, hsize, htrunc, hwrite, Bool.false_eq_true, if_false]
  rfl

theorem wrote_chunk (hoff : offset < chip.size)
    (hb : chip.bad (offset / chip.erasesize) = false) {t : Nat} (hn : n = min left (chip.next offset - offset))
    (ht : t ≤ n) (hdrop : drop = false → t = n) (hlen : pos + n ≤ length) (hlen' : length < 2 ^ 32)
    (hff : ∀ k, pos + t ≤ k → k < pos + n → buffer k = 0xff) (hreads : ∀ r ∈ reads, r < pos + n)
    (herased : ∀ a ∈ List.range' offset n, w.flash a = 0xff) :
    Wrote chip drop buffer length offset n pos w (chunkWritten buffer offset pos t reads w) := by
  have htake : (chip.goodAddrs offset).take n = List.range' offset n := by
    rw [take_goodAddrs hoff hb, show min n (chip.next offset - offset) = n by omega, show n - (chip.next offset - offset) = 0 by omega,
      take_zero, append_nil]
  have hcalls : touched (chunkWritten buffer offset pos t reads w).calls = touched w.calls ++ List.range' offset t := by
    simp [touched, chunkWritten]
  refine ⟨?_, ?_, ?_, ?_⟩
  · rw [htake]
    have hbytes : bufferBytes buffer pos n = bufferBytes buffer pos t ++ bufferBytes buffer (pos + t) (n - t) := by
      rw [← bufferBytes_add, Nat.add_sub_cancel' ht]
    rw [hbytes]
    apply laid_store
    · rw [← hbytes, length_bufferBytes]
    · intro i y hy
      obtain ⟨hi, rfl⟩ := getElem?_bufferBytes hy
      rw [length_bufferBytes, herased _ (mem_range'_1.2 (by omega)), Nat.mod_eq_of_lt (by omega), hff _ (by omega) (by omega)]
  · intro a ha
    rw [hcalls] at ha
    rcases mem_append.1 ha with ha | ha
    · exact Or.inl ha
    · right
      rw [htake]
      rw [mem_range'_1] at ha ⊢
      omega
  · rintro hd a ha
    rw [hcalls, hdrop hd, mem_append, ← htake]
    exact ha
  · intro x hx
    simp only [chunkWritten, List.mem_append, List.mem_map, List.mem_range'_1] at hx
    rcases hx with (hx | hx) | ⟨i, hi, rfl⟩
    · exact Or.inl hx
    · exact Or.inr (Nat.lt_of_lt_of_le (hreads x hx) hlen)
    · right
      rw [Nat.mod_eq_of_lt (by omega)]
      omega

theorem take_block (hoff : offset < chip.size) (hb : chip.bad (offset / chip.erasesize) = false) :
    (chip.goodAddrs offset).take (chip.next offset - offset) = List.range' offset (chip.next offset - offset) := by
  rw [take_goodAddrs hoff hb, Nat.min_self, Nat.sub_self, take_zero, append_nil]

/-- A chunk and what is written behind its block. -/
theorem Wrote.append {w'' : SkipWrite} (hoff : offset < chip.size)
    (hb : chip.bad (offset / chip.erasesize) = false) (hleft : chip.next offset - offset ≤ left)
    (h : Wrote chip drop buffer length offset (chip.next offset - offset) pos w w')
    (h' : Wrote chip drop buffer length (chip.next offset) (left - (chip.next offset - offset)) (pos + (chip.next offset - offset)) w' w'') :
    Wrote chip drop buffer length offset left pos w w'' := by
  have hfirst := take_block hoff hb
  have htake : (chip.goodAddrs offset).take left = (chip.goodAddrs offset).take (chip.next offset - offset) ++
      (chip.goodAddrs (chip.next offset)).take (left - (chip.next offset - offset)) := by
    rw [hfirst, take_goodAddrs hoff hb, Nat.min_eq_right hleft]
  have hbytes : bufferBytes buffer pos left = bufferBytes buffer pos (chip.next offset - offset) ++
      bufferBytes buffer (pos + (chip.next offset - offset)) (left - (chip.next offset - offset)) := by
    rw [← bufferBytes_add, Nat.add_sub_cancel' hleft]
  refine ⟨?_, ?_, ?_, ?_⟩
  · rw [htake, hbytes]
    apply h.laid.append h'.laid
    intro a ha ha'
    rw [hfirst, mem_range'_1] at ha
    have := (mem_goodAddrs.1 (mem_of_mem_take ha')).1
    have := chip.lt_next offset
    omega
  · intro a ha
    rw [htake, mem_append]
    rcases h'.calls a ha with ha | ha
    · rcases h.calls a ha with ha | ha
      · exact Or.inl ha
      · exact Or.inr (Or.inl ha)
    · exact Or.inr (Or.inr ha)
  · rintro hd a ha
    rw [htake, mem_append] at ha
    apply h'.all hd
    rcases ha with ha | ha | ha
    · exact Or.inl (h.all hd a (Or.inl ha))
    · exact Or.inl (h.all hd a (Or.inr ha))
    · exact Or.inr ha
  · intro x hx
    rcases h'.reads x hx with hx | hx
    · exact h.reads x hx
    · exact Or.inr hx

theorem wrote_zero (chip : NandChip) (drop : Bool) (buffer : Nat → UInt8) (length offset pos : Nat) (w : SkipWrite) (rval : Int) (n : Nat) :
    Wrote chip drop buffer length offset 0 pos w { w with rval := rval, length := n } := by
  refine ⟨Laid.nil w.flash, fun a ha => Or.inl ha, ?_, fun x hx => Or.inl hx⟩
  rintro - a (ha | ha)
  · exact ha
  · cases ha

/-- What remains to be written has a byte before or in the chunk of its first block that is not 0xff. -/
def Stops (chip : NandChip) (buffer : Nat → UInt8) (offset left pos : Nat) : Prop :=
  (∃ x < pos, buffer x ≠ 0xff) ∨ ∀ g ∈ (chip.goodAddrs offset).head?, ∃ i < min left (chip.next g - g), buffer (pos + i) ≠ 0xff

theorem Stops.chunk (h : chip.Stops buffer offset left pos) (hoff : offset < chip.size)
    (hb : chip.bad (offset / chip.erasesize) = false) : ∃ x < pos + min left (chip.next offset - offset), buffer x ≠ 0xff := by
  have hlt := chip.lt_next offset
  rcases h with ⟨x, hx, hne⟩ | hfirst
  · exact ⟨x, by omega, hne⟩
  · have hhead : (chip.goodAddrs offset).head? = some offset := by
      rw [goodAddrs_good hoff hb, show chip.next offset - offset = chip.next offset - offset - 1 + 1 by omega, range'_succ]
      rfl
    obtain ⟨i, hi, hne⟩ := hfirst offset hhead
    exact ⟨pos + i, by omega, hne⟩

theorem Wrote.erased_next (hoff : offset < chip.size)
    (hb : chip.bad (offset / chip.erasesize) = false)
    (hchunk : Wrote chip drop buffer length offset (chip.next offset - offset) pos w w')
    (herased : ∀ a ∈ (chip.goodAddrs offset).take left, w.flash a = 0xff) :
    ∀ a ∈ (chip.goodAddrs (chip.next offset)).take (left - (chip.next offset - offset)), w'.flash a = 0xff := by
  intro a ha
  have hout : a ∉ (chip.goodAddrs offset).take (chip.next offset - offset) := by
    rw [take_block hoff hb, mem_range'_1]
    have := (mem_goodAddrs.1 (mem_of_mem_take ha)).1
    omega
  rw [hchunk.laid.frame a hout]
  apply herased
  rw [take_goodAddrs hoff hb]
  exact mem_append_right _ ha

theorem writeLoop_writes (hf : chip.blocksLeft offset + length < fuel)
    (hlen : pos + left = length) (hlen' : length < 2 ^ 32) (hfits : left ≤ (chip.goodAddrs offset).length)
    (hown : chip.OwnTest offset left) (herased : ∀ a ∈ (chip.goodAddrs offset).take left, w.flash a = 0xff)
    (hstops : drop = true → 0 < left → chip.Stops buffer offset left pos) :
    ∃ w', chip.writeLoop drop buffer length fuel offset left pos w = some w' ∧ w'.rval = 0 ∧ w'.length = length ∧
      Wrote chip drop buffer length offset left pos w w' := by
  induction fuel generalizing offset left pos w with
  | zero => exact absurd hf (Nat.not_lt_zero _)
  | succ fuel ih =>
    rcases Nat.eq_zero_or_pos left with rfl | hleft
    · exact ⟨_, by rw [writeLoop, if_pos rfl], rfl, rfl, wrote_zero ..⟩
    · have hoff := lt_size_of_fits hleft hfits
      have hblocks := blocksLeft_next hoff
      have htest := hown.test hoff hleft
      cases hb : chip.bad (offset / chip.erasesize) with
      | true =>
        rw [hb] at htest
        have hgood := goodAddrs_bad hoff hb
        rw [hgood] at hfits herased
        have hstops' : drop = true → 0 < left → chip.Stops buffer (chip.next offset) left pos := by
          rw [Stops, ← hgood]
          exact hstops
        obtain ⟨w', hloop, hrval, hlength, hwrote⟩ := ih (by omega) hlen hfits (hown.bad hoff hb) herased hstops'
        refine ⟨w', ?_, hrval, hlength, ?_⟩
        · rw [writeLoop, if_neg (Nat.pos_iff_ne_zero.1 hleft)]
          simp only [htest, if_true]
          exact hloop
        · exact ⟨hgood ▸ hwrote.laid, hgood ▸ hwrote.calls, hgood ▸ hwrote.all, hwrote.reads⟩
      | false =>
        rw [hb] at htest
        have hlt := chip.lt_next offset
        have hle := chip.next_le_size hoff
        have hchunkE : chip.next offset - offset ≤ chip.erasesize := by
          rw [next]
          omega
        obtain ⟨n, hn⟩ : ∃ n, n = min left (chip.next offset - offset) := ⟨_, rfl⟩
        -- the chunk ends behind a byte that is not 0xff
        have hx : drop = true → ∃ x < pos + n, buffer x ≠ 0xff := fun hd => hn ▸ (hstops hd hleft).chunk hoff hb
        obtain ⟨t, reads, htrunc, ht, hff, hreads⟩ :=
          truncatedSize_spec (show 0 < n by omega) (show n ≤ chip.erasesize by omega) (by omega) hx (show pos + n ≤ fuel by omega)
        have hdrop : drop = false → t = n := by
          rintro rfl
          exact (Prod.mk.inj (some.inj htrunc)).1.symm
        have hrange : ∀ a ∈ List.range' offset n, a ∈ (chip.goodAddrs offset).take left := by
          intro a ha
          rw [take_goodAddrs hoff hb, ← hn]
          exact mem_append_left _ ha
        have hchunk : Wrote chip drop buffer length offset n pos w (chunkWritten buffer offset pos t reads w) :=
          wrote_chunk hoff hb hn ht hdrop (by omega) hlen' hff hreads (fun a ha => herased a (hrange a ha))
        rw [writeLoop_good hleft hoff htest hb hn ht htrunc (fun a ha => herased a (hrange a ha))]
        rcases Nat.lt_or_ge left (chip.next offset - offset) with hpart | hfull
        · obtain rfl : n = left := by omega
          obtain ⟨fuel, rfl⟩ : ∃ k, fuel = k + 1 := ⟨fuel - 1, by omega⟩
          rw [Nat.sub_self, writeLoop, if_pos rfl]
          exact ⟨_, rfl, rfl, rfl, ⟨hchunk.laid, hchunk.calls, hchunk.all, hchunk.reads⟩⟩
        · obtain rfl : n = chip.next offset - offset := by omega
          have hnext : offset + (chip.next offset - offset) = chip.next offset := by omega
          rw [hnext]
          have hfits' := fits_next hoff hb hfits
          have herased' := hchunk.erased_next hoff hb herased
          obtain ⟨w', hloop, hrval, hlength, hwrote⟩ := ih (by omega)
            (show pos + (chip.next offset - offset) + (left - (chip.next offset - offset)) = length by omega) hfits'
            (hown.good hoff hb hfull) herased' (fun hd _ => Or.inl (hx hd))
          exact ⟨w', hloop, hrval, hlength, hchunk.append hoff hb hfull hwrote⟩

theorem writeLoop_reads (h : chip.writeLoop drop buffer length fuel offset left pos w = some w') : ∀ x ∈ w.reads, x ∈ w'.reads := by
  induction fuel generalizing offset left pos w with
  | zero => cases h
  | succ fuel ih =>
    rw [writeLoop] at h
    split at h
    · obtain rfl := some.inj h
      exact fun x hx => hx
    · dsimp only at h
      split at h
      · exact ih h
      · split at h
        · cases h
        · have hread {w1 : SkipWrite} {rs1 rs2 : List Nat} (hw1 : w1.reads = w.reads ++ rs1 ++ rs2) : ∀ x ∈ w.reads, x ∈ w1.reads := by
            intro x hx
            rw [hw1]
            exact mem_append_left _ (mem_append_left _ hx)
          split at h
          · obtain rfl := some.inj h
            exact hread rfl
          · intro x hx
            exact ih h x (hread rfl x hx)

theorem writeLoop_below (hleft : 0 < left) (hlen : left < 2 ^ 32)
    (hfits : left ≤ (chip.goodAddrs offset).length) (hown : chip.OwnTest offset left) {g : Nat}
    (hg : (chip.goodAddrs offset).head? = some g) (hff : ∀ i < min left (chip.next g - g), buffer i = 0xff)
    (h : chip.writeLoop true buffer length fuel offset left 0 w = some w') : 2 ^ 32 - 1 ∈ w'.reads := by
  induction fuel generalizing offset w with
  | zero => cases h
  | succ fuel ih =>
    have hoff := lt_size_of_fits hleft hfits
    have htest := hown.test hoff hleft
    rw [writeLoop, if_neg (Nat.pos_iff_ne_zero.1 hleft)] at h
    cases hb : chip.bad (offset / chip.erasesize) with
    | true =>
      rw [hb] at htest
      simp only [htest, if_true] at h
      rw [goodAddrs_bad hoff hb] at hfits hg
      exact ih hfits (hown.bad hoff hb) hg h
    | false =>
      rw [hb] at htest
      have hlt := chip.lt_next offset
      have hchunk : chip.next offset - offset = chip.erasesize - offset % chip.erasesize := Nat.add_sub_cancel_left ..
      obtain rfl : offset = g := by
        rw [goodAddrs_good hoff hb, show chip.next offset - offset = chip.next offset - offset - 1 + 1 by omega, range'_succ] at hg
        exact some.inj hg
      simp only [htest, Bool.false_eq_true, if_false, truncatedSize, if_true, dropFfs] at h
      rw [← hchunk] at h
      have hsize : (if left < chip.next offset - offset then left else chip.next offset - offset) = min left (chip.next offset - offset) := by
        split <;> omega
      rw [hsize] at h
      split at h
      · cases h
      · rename_i t reads htrunc
        obtain ⟨⟨j, reads'⟩, hloop, heq⟩ := map_eq_some_iff.1 htrunc
        obtain ⟨-, rfl⟩ := Prod.mk.inj heq
        have hbelow : 2 ^ 32 - 1 ∈ reads' := by
          refine dropFfsLoop_below (Nat.mod_lt _ (by decide)) ?_ hloop
          intro k hk
          exact hff k (by omega)
        have hread {w1 : SkipWrite} {rs : List Nat} (hw1 : w1.reads = w.reads ++ reads' ++ rs) : 2 ^ 32 - 1 ∈ w1.reads := by
          rw [hw1]
          exact mem_append_left _ (mem_append_right _ hbelow)
        split at h
        · obtain rfl := some.inj h
          exact hread rfl
        · exact writeLoop_reads h _ (hread rfl)

/-! ## Reading -/

theorem readLoop_reads {flash : Nat → UInt8} {bytes : List UInt8} (hf : chip.blocksLeft offset < fuel)
    (hfits : left ≤ (chip.goodAddrs offset).length) (hown : chip.OwnTest offset left) :
    chip.readLoop flash length fuel offset left bytes = some ⟨0, length, bytes ++ ((chip.goodAddrs offset).take left).map flash⟩ := by
  induction fuel generalizing offset left bytes with
  | zero => exact absurd hf (Nat.not_lt_zero _)
  | succ fuel ih =>
    rcases Nat.eq_zero_or_pos left with rfl | hleft
    · rw [readLoop, if_pos rfl, take_zero, map_nil, append_nil]
    · have hoff := lt_size_of_fits hleft hfits
      have hblocks := blocksLeft_next hoff
      have htest := hown.test hoff hleft
      rw [readLoop, if_neg (Nat.pos_iff_ne_zero.1 hleft)]
      cases hb : chip.bad (offset / chip.erasesize) with
      | true =>
        rw [hb] at htest
        have hgood := goodAddrs_bad hoff hb
        rw [hgood] at hfits ⊢
        simp only [htest, if_true]
        exact ih (show chip.blocksLeft (chip.next offset) < fuel by omega) hfits (hown.bad hoff hb)
      | false =>
        rw [hb] at htest
        have hlt := chip.lt_next offset
        have hle := chip.next_le_size hoff
        have hchunk : chip.next offset - offset = chip.erasesize - offset % chip.erasesize := Nat.add_sub_cancel_left ..
        obtain ⟨n, hn⟩ : ∃ n, n = min left (chip.next offset - offset) := ⟨_, rfl⟩
        have hsize : (if left < chip.erasesize - offset % chip.erasesize then left else chip.erasesize - offset % chip.erasesize) = n := by
          rw [hn, hchunk]
          split <;> omega
        obtain ⟨hrval, hgot⟩ := chip.read_good flash offset n (by omega) (fun i hi => by
          have hblock := div_eq_of_lt_next (Nat.le_add_right offset i) (show offset + i < chip.next offset by omega)
          rw [hblock, hb])
        have hno : ¬((chip.nandRead flash offset n).1 ≠ 0 ∧ (chip.nandRead flash offset n).1 ≠ -EUCLEAN) := by
          rintro ⟨h0, h1⟩
          rcases hrval with h | h
          · exact h0 h
          · exact h1 h
        simp only [htest, hsize, Bool.false_eq_true, if_false, if_neg hno, hgot, length_map, length_range']
        rw [take_goodAddrs hoff hb, ← hn, map_append, ← append_assoc]
        rcases Nat.lt_or_ge left (chip.next offset - offset) with hpart | hfull
        · obtain rfl : n = left := by omega
          obtain ⟨fuel, rfl⟩ : ∃ k, fuel = k + 1 := ⟨fuel - 1, by omega⟩
          rw [Nat.sub_self, readLoop, if_pos rfl, Nat.sub_eq_zero_of_le (Nat.le_of_lt hpart), take_zero, map_nil, append_nil]
        · obtain rfl : n = chip.next offset - offset := by omega
          rw [show offset + (chip.next offset - offset) = chip.next offset by omega]
          have hfits' := fits_next hoff hb hfits
          exact ih (by omega) hfits' (hown.good hoff hb hfull)

end NandChip

end UBoot
