import UBoot.Theorems.NandRoundTrip

/-!
# A spread erase and the write behind it

`nand_erase_opts` with `spread` counts the good blocks, whether their erase succeeds or not.
-/

namespace UBoot

open Lib List Option

namespace NandChip

/-- Every cell of the block of `a` is erased. -/
def Blank (chip : NandChip) (flash : Nat → UInt8) (a : Nat) : Prop := ∀ b, b / chip.erasesize = a / chip.erasesize → flash b = 0xff

/-- What is asked of `nand_erase_opts` with `spread` and a following `nand_write_skip_bad`: the erase comes to an end, and if its result is 0,
the blocks that are written are erased, no bad block was erased, and no other block has changed. -/
def SpreadPrepares (chip : NandChip) (fails : Nat → Bool) (flash : Nat → UInt8) (offset length : Nat) (buffer : Nat → UInt8) : Prop :=
  ∃ fuel ret flash' erased w, chip.nandEraseOpts fuel fails flash offset length = some (ret, flash', erased) ∧
    chip.nandWriteSkipBad fuel flash' offset length buffer false = some w ∧
    (ret = 0 → (∀ a ∈ touched w.calls, chip.Blank flash' a) ∧ (∀ a ∈ erased, chip.bad (a / chip.erasesize) = false) ∧
      ∀ b, flash' b ≠ flash b → ∃ a ∈ touched w.calls, a / chip.erasesize = b / chip.erasesize)

section

variable {chip : NandChip} {fails : Nat → Bool} {flash buffer : Nat → UInt8} {length fuel : Nat}

/-! ## The erase loop -/

/-- Enough good blocks from `base` on for `len` bytes, where the end of the device counts as one if it is not taken for bad. -/
def Through (chip : NandChip) (base r len : Nat) : Prop :=
  len ≤ (chip.goodAddrs base).length ∨ (r = 0 ∧ (chip.goodAddrs base).length < len ∧ len ≤ (chip.goodAddrs base).length + chip.erasesize ∧
      chip.bad (chip.size / chip.erasesize) = false)

/-- The cell is in one of the good blocks for `len` bytes from `base` on, and its erase at a distance `r` from the start of the block
succeeds. -/
def SpreadErased (chip : NandChip) (fails : Nat → Bool) (base r len b : Nat) : Prop :=
  r = 0 ∧ fails (b / chip.erasesize * chip.erasesize) = false ∧ ∃ a ∈ (chip.goodAddrs base).take len, a / chip.erasesize = b / chip.erasesize

theorem next_of_aligned {base : Nat} (h : base % chip.erasesize = 0) : chip.next base = base + chip.erasesize := by
  rw [next, h, Nat.sub_zero]

theorem next_aligned (chip : NandChip) (base : Nat) : chip.next base % chip.erasesize = 0 := by
  rw [next_eq]
  exact Nat.mul_mod_left _ _

theorem blocks_pos {len : Nat} (h : 0 < len) :
    (len + chip.erasesize - 1) / chip.erasesize = (len - chip.erasesize + chip.erasesize - 1) / chip.erasesize + 1 := by
  have hE := chip.erasesize_pos
  rcases Nat.le_total len chip.erasesize with hle | hle
  · rw [Nat.sub_eq_zero_of_le hle, Nat.zero_add, Nat.div_eq_of_lt (show chip.erasesize - 1 < chip.erasesize by omega),
      show len + chip.erasesize - 1 = len - 1 + chip.erasesize by omega, Nat.add_div_right _ hE, Nat.div_eq_of_lt (by omega)]
  · rw [Nat.sub_add_cancel hle, show len + chip.erasesize - 1 = len - 1 + chip.erasesize by omega, Nat.add_div_right _ hE]

theorem blocks_zero_iff {len : Nat} : (len + chip.erasesize - 1) / chip.erasesize = 0 ↔ len = 0 := by
  have hE := chip.erasesize_pos
  constructor
  · intro h
    rcases Nat.eq_zero_or_pos len with h0 | h0
    · exact h0
    · rw [blocks_pos h0] at h
      cases h
  · rintro rfl
    exact Nat.div_eq_of_lt (by omega)

theorem mtdBlockIsbad_some {addr : Nat} {b : Bool} (h : chip.mtdBlockIsbad addr = some b) :
    addr ≤ chip.size ∧ chip.bad (addr / chip.erasesize) = b := by
  rw [mtdBlockIsbad] at h
  split at h
  · cases h
  · rename_i hle
    exact ⟨Nat.le_of_not_lt hle, some.inj h⟩

/-- The erase loop comes to an end: the addresses grow beyond the device. -/
theorem eraseLoop_returns {n addr cnt : Nat} {erased : List Nat} (hf : chip.size / chip.erasesize + 1 - addr / chip.erasesize < fuel) :
    ∃ res, chip.eraseLoop fails n fuel addr cnt flash erased = some res := by
  induction fuel generalizing addr cnt flash erased with
  | zero => exact absurd hf (Nat.not_lt_zero _)
  | succ fuel ih =>
    have hnext : addr ≤ chip.size → chip.size / chip.erasesize + 1 - (addr + chip.erasesize) / chip.erasesize < fuel := by
      intro hle
      have hdiv := Nat.div_le_div_right (c := chip.erasesize) hle
      rw [Nat.add_div_right _ chip.erasesize_pos]
      omega
    rw [eraseLoop]
    split
    · split
      · exact ⟨_, rfl⟩
      · rename_i hbad
        exact ih (hnext (mtdBlockIsbad_some hbad).1)
      · rename_i hbad
        exact ih (hnext (mtdBlockIsbad_some hbad).1)
    · exact ⟨_, rfl⟩

theorem eraseLoop_behind {n addr cnt : Nat} {erased : List Nat} {res : Int × (Nat → UInt8) × List Nat} (hcnt : cnt < n)
    (haddr : chip.size < addr) (h : chip.eraseLoop fails n fuel addr cnt flash erased = some res) : res = (-1, flash, erased) := by
  cases fuel with
  | zero => cases h
  | succ fuel =>
    rw [eraseLoop, if_pos hcnt, mtdBlockIsbad, if_pos haddr] at h
    exact (some.inj h).symm

/-- What the erase loop has done when it returns. -/
structure EraseSpec (chip : NandChip) (fails : Nat → Bool) (base r len : Nat) (flash : Nat → UInt8) (erased : List Nat)
    (res : Int × (Nat → UInt8) × List Nat) : Prop where
  ret : res.1 = 0 ↔ chip.Through base r len
  done : ∀ b, chip.SpreadErased fails base r len b → res.2.1 b = 0xff
  other : ∀ b, ¬chip.SpreadErased fails base r len b → res.2.1 b = flash b
  good : ∀ a ∈ res.2.2, a ∈ erased ∨ chip.bad (a / chip.erasesize) = false

theorem eraseLoop_end {n r len cnt : Nat} {erased : List Nat} {res : Int × (Nat → UInt8) × List Nat} (hlen : 0 < len)
    (hn : n = cnt + (len + chip.erasesize - 1) / chip.erasesize)
    (h : chip.eraseLoop fails n fuel (chip.size + r) cnt flash erased = some res) : EraseSpec chip fails chip.size r len flash erased res := by
  have hE := chip.erasesize_pos
  have hcnt : cnt < n := by
    rw [hn, blocks_pos hlen]
    exact Nat.lt_add_of_pos_right (Nat.succ_pos _)
  have hnil : chip.goodAddrs chip.size = [] := goodAddrs_end (Nat.le_refl _)
  have hnone (b : Nat) : ¬chip.SpreadErased fails chip.size r len b := by
    rintro ⟨-, -, a, ha, -⟩
    rw [hnil, take_nil] at ha
    cases ha
  -- the cells stay as they are, so only the result has to be compared
  suffices hres : (res = (-1, flash, erased) ∧ ¬chip.Through chip.size r len) ∨ (res = (0, flash, erased) ∧ chip.Through chip.size r len) by
    rcases hres with ⟨rfl, hthrough⟩ | ⟨rfl, hthrough⟩
    · exact ⟨⟨fun h => absurd h (show ¬(-1 : Int) = 0 by decide), fun h => absurd h hthrough⟩, fun b hb => absurd hb (hnone b),
        fun _ _ => rfl, fun a ha => Or.inl ha⟩
    · exact ⟨⟨fun _ => hthrough, fun _ => rfl⟩, fun b hb => absurd hb (hnone b), fun _ _ => rfl, fun a ha => Or.inl ha⟩
  rcases Nat.eq_zero_or_pos r with rfl | hr
  · cases fuel with
    | zero => cases h
    | succ fuel =>
      simp only [Nat.add_zero] at h
      rw [eraseLoop, if_pos hcnt, mtdBlockIsbad, if_neg (Nat.lt_irrefl _)] at h
      cases hb : chip.bad (chip.size / chip.erasesize) with
      | true =>
        simp only [blockIsbad, hb] at h
        refine Or.inl ⟨eraseLoop_behind hcnt (Nat.lt_add_of_pos_right hE) h, ?_⟩
        rintro (hle | ⟨-, -, -, hfalse⟩)
        · rw [hnil] at hle
          exact absurd hlen (Nat.not_lt.2 hle)
        · rw [hb] at hfalse
          cases hfalse
      | false =>
        have hfail : chip.mtdErase fails flash chip.size = (false, flash) := by
          rw [mtdErase, if_pos]
          right
          left
          omega
        simp only [blockIsbad, hb, hfail] at h
        by_cases hone : len ≤ chip.erasesize
        · have hdone : n = cnt + 1 := by
            rw [hn, blocks_pos hlen, blocks_zero_iff.2 (Nat.sub_eq_zero_of_le hone)]
          cases fuel with
          | zero => cases h
          | succ fuel =>
            rw [eraseLoop, if_neg (by omega)] at h
            exact Or.inr ⟨(some.inj h).symm, Or.inr ⟨rfl, by rwa [hnil], by rw [hnil]; simpa using hone, hb⟩⟩
        · have hmore : cnt + 1 < n := by
            rw [hn, blocks_pos hlen, blocks_pos (by omega)]
            exact Nat.add_lt_add_left (Nat.succ_lt_succ (Nat.succ_pos _)) cnt
          refine Or.inl ⟨eraseLoop_behind hmore (Nat.lt_add_of_pos_right hE) h, ?_⟩
          rintro (hle | ⟨-, -, hle, -⟩)
          · rw [hnil] at hle
            exact absurd hlen (Nat.not_lt.2 hle)
          · rw [hnil] at hle
            exact hone (by simpa using hle)
  · refine Or.inl ⟨eraseLoop_behind hcnt (Nat.lt_add_of_pos_right hr) h, ?_⟩
    rintro (hle | ⟨h0, -⟩)
    · rw [hnil] at hle
      exact absurd hlen (Nat.not_lt.2 hle)
    · exact absurd h0 (Nat.pos_iff_ne_zero.1 hr)

theorem through_good {base r len : Nat} (hbase : base % chip.erasesize = 0) (hlt : base < chip.size)
    (hb : chip.bad (base / chip.erasesize) = false) : chip.Through base r len ↔ chip.Through (chip.next base) r (len - chip.erasesize) := by
  have hlen : (chip.goodAddrs base).length = chip.erasesize + (chip.goodAddrs (chip.next base)).length := by
    rw [goodAddrs_good hlt hb, length_append, length_range', next_of_aligned hbase, Nat.add_sub_cancel_left]
  rw [Through, Through, hlen]
  constructor
  · rintro (h | ⟨h0, h1, h2, h3⟩)
    · exact Or.inl (by omega)
    · exact Or.inr ⟨h0, by omega, by omega, h3⟩
  · rintro (h | ⟨h0, h1, h2, h3⟩)
    · exact Or.inl (by omega)
    · exact Or.inr ⟨h0, by omega, by omega, h3⟩

theorem spreadErased_good {base r len b : Nat} (hbase : base % chip.erasesize = 0) (hlt : base < chip.size)
    (hb : chip.bad (base / chip.erasesize) = false) (hlen : 0 < len) :
    chip.SpreadErased fails base r len b ↔ (r = 0 ∧ fails base = false ∧ b / chip.erasesize = base / chip.erasesize) ∨
        chip.SpreadErased fails (chip.next base) r (len - chip.erasesize) b := by
  have hE := chip.erasesize_pos
  have hstart : base / chip.erasesize * chip.erasesize = base := Nat.div_mul_cancel (Nat.dvd_of_mod_eq_zero hbase)
  have hnext := next_of_aligned hbase
  have htake := take_goodAddrs hlt hb len
  rw [hnext, Nat.add_sub_cancel_left, ← hnext] at htake
  rw [SpreadErased, SpreadErased, htake]
  constructor
  · rintro ⟨h0, h1, a, ha, hab⟩
    rcases mem_append.1 ha with ha | ha
    · rw [mem_range'_1] at ha
      have hdiv : a / chip.erasesize = base / chip.erasesize := div_eq_of_lt_next ha.1 (by omega)
      rw [← hab, hdiv, hstart] at h1
      exact Or.inl ⟨h0, h1, hab.symm.trans hdiv⟩
    · exact Or.inr ⟨h0, h1, a, ha, hab⟩
  · rintro (⟨h0, h1, hab⟩ | ⟨h0, h1, a, ha, hab⟩)
    · refine ⟨h0, by rwa [hab, hstart], base, mem_append_left _ (mem_range'_1.2 (by omega)), hab.symm⟩
    · exact ⟨h0, h1, a, mem_append_right _ ha, hab⟩

/-- One erase at a distance `r` from the start of a block. -/
theorem mtdErase_eq (fails : Nat → Bool) (flash : Nat → UInt8) {base r : Nat} (hbase : base % chip.erasesize = 0) (hlt : base < chip.size)
    (hr : r < chip.erasesize) :
    (r = 0 ∧ fails base = false ∧ chip.mtdErase fails flash (base + r) =
      (true, fun a => if a / chip.erasesize = base / chip.erasesize then 0xff else flash a)) ∨
    (¬(r = 0 ∧ fails base = false) ∧ chip.mtdErase fails flash (base + r) = (false, flash)) := by
  have hsize := chip.next_le_size hlt
  rw [next_of_aligned hbase] at hsize
  rw [mtdErase]
  by_cases h : r = 0 ∧ fails base = false
  · obtain ⟨rfl, hf⟩ := h
    refine Or.inl ⟨rfl, hf, ?_⟩
    rw [Nat.add_zero, if_neg]
    rintro (h | h | h | h)
    · omega
    · omega
    · exact h hbase
    · rw [hf] at h
      cases h
  · refine Or.inr ⟨h, if_pos ?_⟩
    rcases Nat.eq_zero_or_pos r with rfl | hpos
    · right
      right
      right
      rw [Nat.add_zero]
      simpa using h
    · right
      right
      left
      have hdvd := Nat.add_mod base r chip.erasesize
      rw [hbase, Nat.zero_add, Nat.mod_mod, Nat.mod_eq_of_lt hr] at hdvd
      omega

theorem eraseLoop_spec {n base r len cnt : Nat} {erased : List Nat} {res : Int × (Nat → UInt8) × List Nat} (hr : r < chip.erasesize)
    (hbase : base % chip.erasesize = 0) (hle : base ≤ chip.size) (hn : n = cnt + (len + chip.erasesize - 1) / chip.erasesize)
    (h : chip.eraseLoop fails n fuel (base + r) cnt flash erased = some res) : EraseSpec chip fails base r len flash erased res := by
  induction fuel generalizing base len cnt flash erased with
  | zero => cases h
  | succ fuel ih =>
    rcases Nat.eq_zero_or_pos len with rfl | hlen
    · rw [blocks_zero_iff.2 rfl, Nat.add_zero] at hn
      rw [eraseLoop, if_neg (by omega)] at h
      obtain rfl := some.inj h
      refine ⟨⟨fun _ => Or.inl (Nat.zero_le _), fun _ => rfl⟩, ?_, fun _ _ => rfl, fun a ha => Or.inl ha⟩
      rintro b ⟨-, -, a, ha, -⟩
      cases ha
    · rcases Nat.eq_or_lt_of_le hle with rfl | hlt
      · exact eraseLoop_end hlen hn h
      · have hsize := chip.next_le_size hlt
        have hnext := next_of_aligned hbase
        have haddr : base + r + chip.erasesize = chip.next base + r := by omega
        have hdiv : (base + r) / chip.erasesize = base / chip.erasesize := div_eq_of_lt_next (Nat.le_add_right _ _) (by omega)
        rw [eraseLoop, if_pos (by rw [hn, blocks_pos hlen]; exact Nat.lt_add_of_pos_right (Nat.succ_pos _)), mtdBlockIsbad,
          if_neg (by omega), blockIsbad, hdiv] at h
        cases hb : chip.bad (base / chip.erasesize) with
        | true =>
          rw [hb] at h
          simp only [haddr] at h
          have hgood := goodAddrs_bad hlt hb
          have hspec := ih (next_aligned chip base) hsize hn h
          refine ⟨?_, ?_, ?_, hspec.good⟩
          · rw [Through, hgood]
            exact hspec.ret
          · intro b hs
            rw [SpreadErased, hgood] at hs
            exact hspec.done b hs
          · intro b hs
            rw [SpreadErased, hgood] at hs
            exact hspec.other b hs
        | false =>
          rw [hb] at h
          have hn' : n = cnt + 1 + (len - chip.erasesize + chip.erasesize - 1) / chip.erasesize := by
            rw [hn, blocks_pos hlen, Nat.add_assoc, Nat.add_comm 1]
          rcases mtdErase_eq fails flash hbase hlt hr with ⟨h0, hf, herase⟩ | ⟨hno, herase⟩
          · simp only [herase, haddr, if_true] at h
            have hspec := ih (next_aligned chip base) hsize hn' h
            refine ⟨hspec.ret.trans (through_good hbase hlt hb).symm, ?_, ?_, ?_⟩
            · intro b hs
              rcases (spreadErased_good hbase hlt hb hlen).1 hs with ⟨-, -, hbb⟩ | hs
              · by_cases hs' : chip.SpreadErased fails (chip.next base) r (len - chip.erasesize) b
                · exact hspec.done b hs'
                · rw [hspec.other b hs', if_pos hbb]
              · exact hspec.done b hs
            · intro b hs
              rw [spreadErased_good hbase hlt hb hlen, not_or] at hs
              rw [hspec.other b hs.2, if_neg fun hbb => hs.1 ⟨h0, hf, hbb⟩]
            · intro a ha
              rcases hspec.good a ha with ha | ha
              · rcases mem_append.1 ha with ha | ha
                · exact Or.inl ha
                · rw [mem_singleton.1 ha, hdiv]
                  exact Or.inr hb
              · exact Or.inr ha
          · simp only [herase, haddr, Bool.false_eq_true, if_false] at h
            have hspec := ih (next_aligned chip base) hsize hn' h
            refine ⟨hspec.ret.trans (through_good hbase hlt hb).symm, ?_, ?_, hspec.good⟩
            · intro b hs
              rcases (spreadErased_good hbase hlt hb hlen).1 hs with ⟨h0, hf, -⟩ | hs
              · exact absurd ⟨h0, hf⟩ hno
              · exact hspec.done b hs
            · intro b hs
              rw [spreadErased_good hbase hlt hb hlen, not_or] at hs
              exact hspec.other b hs.2

/-! ## The write -/

/-- The write from `w` to `w'` has gone to all good bytes, or at least to one that was not erased. -/
def Touches (chip : NandChip) (offset left : Nat) (w w' : SkipWrite) : Prop :=
  (∀ a ∈ touched w.calls, a ∈ touched w'.calls) ∧ ((∀ a ∈ (chip.goodAddrs offset).take left, a ∈ touched w'.calls) ∨
      ∃ a ∈ (chip.goodAddrs offset).take left, a ∈ touched w'.calls ∧ w.flash a ≠ 0xff)

theorem touches_zero (chip : NandChip) (offset : Nat) (w : SkipWrite) : chip.Touches offset 0 w w := by
  refine ⟨fun a ha => ha, Or.inl ?_⟩
  intro a ha
  cases ha

theorem touches_of_zero {pos offset offset' : Nat} {w w' : SkipWrite}
    (h : chip.writeLoop false buffer length fuel offset 0 pos w = some w') : chip.Touches offset' 0 w w' := by
  cases fuel with
  | zero => cases h
  | succ fuel =>
    rw [writeLoop, if_pos rfl] at h
    obtain rfl := some.inj h
    exact touches_zero chip offset' w

theorem Touches.chunk {offset left n pos : Nat} {reads : List Nat} {w w' : SkipWrite} (hoff : offset < chip.size)
    (hb : chip.bad (offset / chip.erasesize) = false) (hn : n = min left (chip.next offset - offset))
    (h : chip.Touches (chip.next offset) (left - (chip.next offset - offset)) (chunkWritten buffer offset pos n reads w) w') :
    chip.Touches offset left w w' := by
  obtain ⟨hmono, hall⟩ := h
  have htake := take_goodAddrs hoff hb left
  have hcalls : touched (chunkWritten buffer offset pos n reads w).calls = touched w.calls ++ List.range' offset n := by
    simp [touched, chunkWritten]
  simp only [hcalls, mem_append] at hmono
  rw [← hn] at htake
  rw [Touches, htake]
  refine ⟨fun a ha => hmono a (Or.inl ha), ?_⟩
  rcases hall with hall | ⟨a, ha, htouched, hne⟩
  · left
    intro a ha
    rcases mem_append.1 ha with ha | ha
    · exact hmono a (Or.inr ha)
    · exact hall a ha
  · refine Or.inr ⟨a, mem_append_right _ ha, htouched, ?_⟩
    have hge := (mem_goodAddrs.1 (mem_of_mem_take ha)).1
    have hlt := chip.lt_next offset
    have hframe : (chunkWritten buffer offset pos n reads w).flash a = w.flash a :=
      store_of_outside (Or.inr (by rw [length_bufferBytes]; omega))
    rwa [hframe] at hne

theorem touches_of_notErased {offset left n : Nat} {w w' : SkipWrite} (hoff : offset < chip.size)
    (hb : chip.bad (offset / chip.erasesize) = false) (hn : n = min left (chip.next offset - offset))
    (hno : ¬∀ a ∈ List.range' offset n, w.flash a = 0xff)
    (hmono : ∀ a ∈ touched (w.calls ++ [(offset, n)]), a ∈ touched w'.calls) : chip.Touches offset left w w' := by
  obtain ⟨a, ha, hne⟩ : ∃ a ∈ List.range' offset n, w.flash a ≠ 0xff := by
    simpa only [not_forall, exists_prop] using hno
  have htake := take_goodAddrs hoff hb left
  have hcalls : touched (w.calls ++ [(offset, n)]) = touched w.calls ++ List.range' offset n := by
    simp [touched]
  simp only [hcalls, mem_append] at hmono
  rw [← hn] at htake
  rw [Touches, htake]
  exact ⟨fun a ha => hmono a (Or.inl ha), Or.inr ⟨a, mem_append_left _ ha, hmono a (Or.inr ha), hne⟩⟩

/-- The loop of `nand_write_skip_bad` writes to all good bytes, or at least to one that was not erased. -/
theorem writeLoop_touches {pos offset left : Nat} {w w' : SkipWrite} (hfits : left ≤ (chip.goodAddrs offset).length)
    (hown : chip.OwnTest offset left) (h : chip.writeLoop false buffer length fuel offset left pos w = some w') :
    chip.Touches offset left w w' := by
  induction fuel generalizing offset left pos w with
  | zero => cases h
  | succ fuel ih =>
    rcases Nat.eq_zero_or_pos left with rfl | hleft
    · exact touches_of_zero h
    · have hoff := lt_size_of_fits hleft hfits
      have htest := hown.test hoff hleft
      cases hb : chip.bad (offset / chip.erasesize) with
      | true =>
        rw [hb] at htest
        rw [writeLoop, if_neg (Nat.pos_iff_ne_zero.1 hleft)] at h
        simp only [htest, if_true] at h
        have hgood := goodAddrs_bad hoff hb
        rw [hgood] at hfits
        rw [Touches, hgood]
        exact ih hfits (hown.bad hoff hb) h
      | false =>
        rw [hb] at htest
        have hlt := chip.lt_next offset
        obtain ⟨n, hn⟩ : ∃ n, n = min left (chip.next offset - offset) := ⟨_, rfl⟩
        -- what is written behind the chunk
        have hrest {w1 : SkipWrite} (h1 : chip.writeLoop false buffer length fuel (offset + n) (left - n) (pos + n) w1 = some w') :
            chip.Touches (chip.next offset) (left - (chip.next offset - offset)) w1 w' := by
          rcases Nat.lt_or_ge left (chip.next offset - offset) with hpart | hfull
          · obtain rfl : n = left := by omega
            rw [Nat.sub_self] at h1
            rw [Nat.sub_eq_zero_of_le (Nat.le_of_lt hpart)]
            exact touches_of_zero h1
          · obtain rfl : n = chip.next offset - offset := by omega
            rw [show offset + (chip.next offset - offset) = chip.next offset by omega] at h1
            exact ih (fits_next hoff hb hfits) (hown.good hoff hb hfull) h1
        by_cases herased : ∀ a ∈ List.range' offset n, w.flash a = 0xff
        · rw [writeLoop_good hleft hoff htest hb hn (Nat.le_refl n) rfl herased] at h
          exact (hrest h).chunk hoff hb hn
        · refine touches_of_notErased hoff hb hn herased ?_
          have hsize := chip.chunk_size offset left
          rw [← hn] at hsize
          rw [writeLoop, if_neg (Nat.pos_iff_ne_zero.1 hleft)] at h
          simp only [htest, hsize, truncatedSize, Bool.false_eq_true, if_false] at h
          split at h
          · obtain rfl := some.inj h
            exact fun a ha => ha
          · exact (hrest h).1

/-- What the blocks of the image need for the write to be accepted. -/
def Writable (chip : NandChip) (offset length : Nat) : Prop := length ≤ (chip.goodAddrs offset).length ∧ chip.NoWrap offset 0 length

theorem checkSkipLen_refuses {offset : Nat} (hf : chip.blocksLeft offset < fuel) (hlen : length < 2 ^ 32) (h : ¬chip.Writable offset length) :
    chip.checkSkipLen fuel offset length = some (-1) := by
  rcases Nat.lt_or_ge (chip.goodAddrs offset).length length with hshort | hfits
  · exact checkSkipLenLoop_short hf hlen (by rwa [Nat.zero_add])
  · have hw : ¬chip.NoWrap offset 0 length := fun hw => h ⟨hfits, hw⟩
    rcases Nat.eq_zero_or_pos length with rfl | hpos
    · exact absurd (fun a ha _ => absurd ha.2.2 (Nat.not_lt_zero _)) hw
    · exact checkSkipLenLoop_wraps hf hlen (fun h => absurd h (Nat.lt_irrefl 0)) hpos hw

theorem calls_of_refused {offset : Nat} (hpage : offset % chip.writesize = 0) (hlen : length < 2 ^ 32) (h : ¬chip.Writable offset length)
    {w : SkipWrite} (hwrite : chip.nandWriteSkipBad fuel flash offset length buffer false = some w) : w.calls = [] := by
  rw [nandWriteSkipBad, if_neg (not_not.2 hpage)] at hwrite
  split at hwrite
  · cases hwrite
  · rename_i v hcheck
    obtain rfl := checkSkipLen_eq (checkSkipLen_refuses (Nat.lt_succ_self _) hlen h) hcheck
    obtain rfl := some.inj hwrite
    rfl

theorem calls_of_writable {offset : Nat} (hpage : offset % chip.writesize = 0) (h : chip.Writable offset length)
    (hown : (∃ a, chip.Visited offset length a ∧ chip.bad (a / chip.erasesize) = true) → chip.OwnTest offset length)
    {w : SkipWrite} (hwrite : chip.nandWriteSkipBad fuel flash offset length buffer false = some w) :
    (∀ a ∈ (chip.goodAddrs offset).take length, a ∈ touched w.calls) ∨
      ∃ a ∈ (chip.goodAddrs offset).take length, a ∈ touched w.calls ∧ flash a ≠ 0xff := by
  obtain ⟨v, hcheck, hv, hv0, hv1⟩ := checkSkipLenLoop_fits (Nat.lt_succ_self _) (Or.inl rfl) (by rw [Nat.zero_add]; exact h.1) h.2
  rw [nandWriteSkipBad, if_neg (not_not.2 hpage)] at hwrite
  split at hwrite
  · cases hwrite
  · rename_i v' hcheck'
    obtain rfl := checkSkipLen_eq hcheck hcheck'
    rcases hv with rfl | rfl
    · simp only [Int.lt_irrefl, and_self, if_false, if_true] at hwrite
      have htake : (chip.goodAddrs offset).take length = List.range' offset length := (hv0 rfl).2
      left
      intro a ha
      rw [htake] at ha
      split at hwrite
      · obtain rfl := some.inj hwrite
        simpa [touched] using ha
      · obtain rfl := some.inj hwrite
        simpa [touched] using ha
    · simp only [show ¬(1 : Int) < 0 by decide, show ¬(1 : Int) = 0 by decide, false_and, if_false] at hwrite
      rcases hv1 rfl with h0 | hbad
      · cases h0
      · exact (writeLoop_touches h.1 (hown hbad) hwrite).2

/-! ## Erase and write -/

theorem length_goodAddrs_le {base offset : Nat} (h : base ≤ offset) (hoff : offset ≤ chip.size) :
    (chip.goodAddrs offset).length ≤ (chip.goodAddrs base).length := by
  have hsplit : List.range' base (chip.size - base) = List.range' base (offset - base) ++ List.range' offset (chip.size - offset) := by
    rw [show chip.size - base = (offset - base) + (chip.size - offset) by omega, ← range'_append_1, Nat.add_sub_cancel' h]
  rw [goodAddrs, goodAddrs, hsplit, filter_append, length_append]
  exact Nat.le_add_left _ _

theorem nandEraseOpts_spec {offset : Nat} (hpage : offset % chip.writesize = 0) (hoff : offset ≤ chip.size) (hlen : length < 2 ^ 32)
    {res : Int × (Nat → UInt8) × List Nat} (h : chip.nandEraseOpts fuel fails flash offset length = some res) :
    EraseSpec chip fails (offset / chip.erasesize * chip.erasesize) (offset % chip.erasesize) length flash [] res := by
  have hE := chip.erasesize_pos
  have hblocks : (length + chip.erasesize - 1) / chip.erasesize < 2 ^ 32 := Nat.div_lt_of_lt_mul (by omega)
  rw [nandEraseOpts, if_neg (not_not.2 hpage), Nat.mod_eq_of_lt hblocks] at h
  have hsplit : chip.eraseLoop fails ((length + chip.erasesize - 1) / chip.erasesize) fuel
      (offset / chip.erasesize * chip.erasesize + offset % chip.erasesize) 0 flash [] = some res := by
    rwa [Nat.div_add_mod']
  exact eraseLoop_spec (Nat.mod_lt _ hE) (Nat.mul_mod_left _ _) (Nat.le_trans (Nat.div_mul_le_self _ _) hoff) (Nat.zero_add _).symm hsplit

theorem nandEraseOpts_returns (chip : NandChip) (fails : Nat → Bool) (flash : Nat → UInt8) (offset length : Nat)
    (hf : chip.size / chip.erasesize + 1 < fuel) : ∃ res, chip.nandEraseOpts fuel fails flash offset length = some res := by
  rw [nandEraseOpts]
  split
  · exact ⟨_, rfl⟩
  · exact eraseLoop_returns (Nat.lt_of_le_of_lt (Nat.sub_le _ _) hf)

theorem Blank.of_other {base r len a : Nat} {res : Int × (Nat → UInt8) × List Nat} (hspec : EraseSpec chip fails base r len flash [] res)
    (hno : ¬(r = 0 ∧ fails (a / chip.erasesize * chip.erasesize) = false)) (h : chip.Blank res.2.1 a) : chip.Blank flash a := by
  intro b hb
  rw [← hspec.other b, h b hb]
  rintro ⟨h0, hf, -⟩
  rw [hb] at hf
  exact hno ⟨h0, hf⟩

theorem Blank.erased {base r len a : Nat} {res : Int × (Nat → UInt8) × List Nat} (hspec : EraseSpec chip fails base r len flash [] res)
    (h : chip.Blank flash a) : chip.Blank res.2.1 a := by
  intro b hb
  by_cases hs : chip.SpreadErased fails base r len b
  · exact hspec.done b hs
  · rw [hspec.other b hs, h b hb]

theorem EraseSpec.spreadErased {base r len b : Nat} {res : Int × (Nat → UInt8) × List Nat}
    (hspec : EraseSpec chip fails base r len flash [] res) (h : res.2.1 b ≠ flash b) : chip.SpreadErased fails base r len b := by
  by_contra hs
  exact h (hspec.other b hs)

theorem EraseSpec.erased_good {base r len : Nat} {res : Int × (Nat → UInt8) × List Nat}
    (hspec : EraseSpec chip fails base r len flash [] res) : ∀ a ∈ res.2.2, chip.bad (a / chip.erasesize) = false :=
  fun a ha => (hspec.good a ha).resolve_left not_mem_nil

section

variable {offset : Nat} {res : Int × (Nat → UInt8) × List Nat} {w : SkipWrite}

theorem start_of_aligned (h : offset % chip.erasesize = 0) : offset / chip.erasesize * chip.erasesize = offset :=
  Nat.div_mul_cancel (Nat.dvd_of_mod_eq_zero h)

theorem blank_of_prepared (hpage : offset % chip.writesize = 0) (hwritable : chip.Writable offset length)
    (hown : (∃ a, chip.Visited offset length a ∧ chip.bad (a / chip.erasesize) = true) → chip.OwnTest offset length)
    (hspec : EraseSpec chip fails (offset / chip.erasesize * chip.erasesize) (offset % chip.erasesize) length flash [] res)
    (hwrite : chip.nandWriteSkipBad fuel res.2.1 offset length buffer false = some w) (hblank : ∀ a ∈ touched w.calls, chip.Blank res.2.1 a) :
    ∀ a ∈ (chip.goodAddrs offset).take length, chip.Blank flash a ∨
      (offset % chip.erasesize = 0 ∧ fails (a / chip.erasesize * chip.erasesize) = false) := by
  intro a ha
  by_contra hno
  rw [not_or] at hno
  rcases calls_of_writable hpage hwritable hown hwrite with hall | ⟨a', -, ha', hne⟩
  · exact hno.1 ((hblank a (hall a ha)).of_other hspec hno.2)
  · exact hne (hblank a' ha' a' rfl)

/-- Where no block changes, each good block of the image was erased, or its erase fails. -/
theorem blank_of_unchanged (halign : offset % chip.erasesize = 0)
    (hspec : EraseSpec chip fails (offset / chip.erasesize * chip.erasesize) (offset % chip.erasesize) length flash [] res)
    (hsame : ∀ b, res.2.1 b = flash b) :
    ∀ a ∈ (chip.goodAddrs offset).take length, chip.Blank flash a ∨ fails (a / chip.erasesize * chip.erasesize) = true := by
  intro a ha
  by_contra hno
  rw [not_or] at hno
  rw [halign, start_of_aligned halign] at hspec
  obtain ⟨b, hb, hne⟩ : ∃ b, b / chip.erasesize = a / chip.erasesize ∧ flash b ≠ 0xff := by
    simpa [Blank] using hno.1
  have hfails : fails (b / chip.erasesize * chip.erasesize) = false := by
    rw [hb]
    simpa using hno.2
  have hdone := hspec.done b ⟨rfl, hfails, a, ha, hb.symm⟩
  exact hne ((hsame b).symm.trans hdone)

/-- An image that is accepted is written where its blocks are erased, and to all of them. -/
theorem writes_of_writable (hpage : offset % chip.writesize = 0) (hoff : offset ≤ chip.size) (hlen : length < 2 ^ 32)
    (hwritable : chip.Writable offset length)
    (hown : (∃ a, chip.Visited offset length a ∧ chip.bad (a / chip.erasesize) = true) → chip.OwnTest offset length)
    (hf : chip.blocksLeft offset + length < fuel) (hblank : ∀ a ∈ (chip.goodAddrs offset).take length, chip.Blank flash a) :
    ∃ w, chip.nandWriteSkipBad fuel flash offset length buffer false = some w ∧
      Written chip flash offset length buffer false w := by
  have hblocks : chip.blocksLeft offset < fuel := Nat.lt_of_le_of_lt (Nat.le_add_right _ _) hf
  obtain ⟨v, hcheck, hv, hv0, hv1⟩ := checkSkipLenLoop_fits hblocks (Or.inl rfl) (by rw [Nat.zero_add]; exact hwritable.1) hwritable.2
  have hown' : v = 1 ∨ false = true → chip.OwnTest offset length := by
    rintro (h | h)
    · rcases hv1 h with h0 | hbad
      · cases h0
      · exact hown hbad
    · cases h
  exact written hpage hoff hlen (fun a ha => hblank a ha a rfl) hwritable.1 hcheck hv (fun h => (hv0 h).2) hown' (fun h => by cases h) hf

theorem writes_of_refused (hpage : offset % chip.writesize = 0) (hlen : length < 2 ^ 32) (hrefused : ¬chip.Writable offset length)
    (hf : chip.blocksLeft offset < fuel) :
    chip.nandWriteSkipBad fuel flash offset length buffer false = some ⟨-EINVAL, 0, flash, [], []⟩ := by
  rw [nandWriteSkipBad, if_neg (not_not.2 hpage), checkSkipLen_refuses hf hlen hrefused]
  rfl

theorem blank_erased (hspec : EraseSpec chip fails (offset / chip.erasesize * chip.erasesize) (offset % chip.erasesize) length flash [] res)
    (h : ∀ a ∈ (chip.goodAddrs offset).take length, chip.Blank flash a ∨
      (offset % chip.erasesize = 0 ∧ fails (a / chip.erasesize * chip.erasesize) = false)) :
    ∀ a ∈ (chip.goodAddrs offset).take length, chip.Blank res.2.1 a := by
  intro a ha
  rcases h a ha with h | ⟨halign, hfails⟩
  · exact h.erased hspec
  · intro b hb
    rw [halign, start_of_aligned halign] at hspec
    exact hspec.done b ⟨rfl, by rwa [hb], a, ha, hb.symm⟩

theorem mem_of_changed
    (hspec : EraseSpec chip fails (offset / chip.erasesize * chip.erasesize) (offset % chip.erasesize) length flash [] res) {b : Nat}
    (hne : res.2.1 b ≠ flash b) : offset % chip.erasesize = 0 ∧ fails (b / chip.erasesize * chip.erasesize) = false ∧ res.2.1 b = 0xff ∧
      ∃ a ∈ (chip.goodAddrs offset).take length, a / chip.erasesize = b / chip.erasesize := by
  have hs := hspec.spreadErased hne
  have hdone := hspec.done b hs
  obtain ⟨halign, hfails, a, ha, hab⟩ := hs
  rw [start_of_aligned halign] at ha
  exact ⟨halign, hfails, hdone, a, ha, hab⟩

end

end

end NandChip

/-- Where the write of an image that is accepted tests each block at its own address, a spread erase prepares it if and only if each block of
such an image was erased before, or is erased from its start without a failure, and for an image that is refused no block changes. -/
theorem nand_erase_spread_prepares (chip : NandChip) (fails : Nat → Bool) (flash : Nat → UInt8) (offset length : Nat) (buffer : Nat → UInt8)
    (hpage : offset % chip.writesize = 0) (hoff : offset ≤ chip.size) (hlen : length < 2 ^ 32)
    (hown : chip.Writable offset length → (∃ a, chip.Visited offset length a ∧ chip.bad (a / chip.erasesize) = true) →
      chip.OwnTest offset length) :
    chip.SpreadPrepares fails flash offset length buffer ↔
      (chip.Writable offset length → ∀ a ∈ (chip.goodAddrs offset).take length, chip.Blank flash a ∨
        (offset % chip.erasesize = 0 ∧ fails (a / chip.erasesize * chip.erasesize) = false)) ∧
      (¬chip.Writable offset length → offset % chip.erasesize = 0 → chip.Through offset 0 length →
        ∀ a ∈ (chip.goodAddrs offset).take length, chip.Blank flash a ∨ fails (a / chip.erasesize * chip.erasesize) = true) := by
  constructor
  · rintro ⟨fuel, ret, flash', erased, w, herase, hwrite, hprop⟩
    have hspec := NandChip.nandEraseOpts_spec hpage hoff hlen herase
    refine ⟨?_, ?_⟩
    · intro hwritable
      have hret : ret = 0 := hspec.ret.2 (Or.inl (Nat.le_trans hwritable.1 (NandChip.length_goodAddrs_le (Nat.div_mul_le_self _ _) hoff)))
      exact NandChip.blank_of_prepared hpage hwritable (hown hwritable) hspec hwrite (hprop hret).1
    · intro hrefused halign hthrough
      have hret : ret = 0 := hspec.ret.2 (by rw [halign, NandChip.start_of_aligned halign]; exact hthrough)
      refine NandChip.blank_of_unchanged halign hspec ?_
      intro b
      by_contra hne
      obtain ⟨c, hc, -⟩ := (hprop hret).2.2 b hne
      rw [NandChip.calls_of_refused hpage hlen hrefused hwrite] at hc
      cases hc
  · rintro ⟨hcond, hcond'⟩
    obtain ⟨fuel, hf, hf'⟩ : ∃ fuel, chip.size / chip.erasesize + 1 < fuel ∧ chip.blocksLeft offset + length < fuel :=
      ⟨_, Nat.lt_succ_of_le (Nat.le_add_right _ _), Nat.lt_succ_of_le (Nat.le_add_left _ _)⟩
    obtain ⟨⟨ret, flash', erased⟩, herase⟩ := NandChip.nandEraseOpts_returns chip fails flash offset length hf
    have hspec := NandChip.nandEraseOpts_spec hpage hoff hlen herase
    by_cases hwritable : chip.Writable offset length
    · have hblank : ∀ a ∈ (chip.goodAddrs offset).take length, chip.Blank flash' a := NandChip.blank_erased hspec (hcond hwritable)
      obtain ⟨w, hwrite, hwritten⟩ : ∃ w, chip.nandWriteSkipBad fuel flash' offset length buffer false = some w ∧
          NandChip.Written chip flash' offset length buffer false w :=
        NandChip.writes_of_writable hpage hoff hlen hwritable (hown hwritable) hf' hblank
      refine ⟨fuel, ret, flash', erased, w, herase, hwrite, ?_⟩
      intro _
      refine ⟨fun a ha => hblank a (hwritten.calls a ha), hspec.erased_good, ?_⟩
      intro b hne
      obtain ⟨-, -, -, a, ha, hab⟩ := NandChip.mem_of_changed hspec hne
      exact ⟨a, hwritten.all rfl a ha, hab⟩
    · refine ⟨fuel, ret, flash', erased, _, herase, NandChip.writes_of_refused hpage hlen hwritable
        (Nat.lt_of_le_of_lt (Nat.le_add_right _ _) hf'), ?_⟩
      intro hret
      refine ⟨fun a ha => (by cases ha), hspec.erased_good, ?_⟩
      -- a block that changes would be one whose erase fails
      intro b hne
      obtain ⟨halign, hfails, hdone, a, ha, hab⟩ := NandChip.mem_of_changed hspec hne
      have hthrough := hspec.ret.1 hret
      rw [halign, NandChip.start_of_aligned halign] at hthrough
      rcases hcond' hwritable halign hthrough a ha with h | h
      · exact absurd (hdone.trans (h b hab.symm).symm) hne
      · rw [hab, hfails] at h
        cases h

/-- Three bytes from the start of the device: the first and the third block are erased. -/
theorem nand_erase_spread_prepares_small : smallChip.SpreadPrepares (fun a => a == 6) (fun _ => 0) 0 3 (fun _ => 0x55) := by
  refine (nand_erase_spread_prepares smallChip (fun a => a == 6) (fun _ => 0) 0 3 (fun _ => 0x55) rfl (by decide) (by decide) ?_).2 ⟨?_, ?_⟩
  · rintro - - a ha
    rw [Nat.mod_eq_of_lt (Nat.lt_trans ha.2.1 (by decide))]
  · intro _ a ha
    have hmem : a ∈ [0, 1, 4] := ha
    simp only [mem_cons, not_mem_nil, or_false] at hmem
    right
    rcases hmem with rfl | rfl | rfl
    · decide
    · decide
    · decide
  · intro hno
    refine absurd ⟨by decide, ?_⟩ hno
    intro a _ _
    rw [Nat.zero_add]
    exact Nat.lt_of_le_of_lt (length_filter_le _ _) (by decide)

/-- An erase that fails is not reported: the block is written as it was. -/
theorem nand_erase_spread_prepares_false :
    ¬∀ (chip : NandChip) (fails : Nat → Bool) (flash : Nat → UInt8) (offset length : Nat) (buffer : Nat → UInt8),
      offset % chip.writesize = 0 → offset ≤ chip.size → length < 2 ^ 32 → chip.SpreadPrepares fails flash offset length buffer := by
  intro h
  obtain ⟨fuel, ret, flash', erased, w, herase, hwrite, hprop⟩ :=
    h smallChip (fun a => a == 0) (fun _ => 0) 0 1 (fun _ => 0x55) rfl (by decide) (by decide)
  rcases fuel with _ | _ | fuel
  iterate 2 cases herase
  obtain ⟨hret, hflash⟩ : (0 : Int) = ret ∧ (fun _ => 0) = flash' := by
    have hres := some.inj herase
    exact ⟨congrArg Prod.fst hres, congrArg (fun res => res.2.1) hres⟩
  have hcalls : some [(0, 1)] = some w.calls := congrArg (Option.map NandChip.SkipWrite.calls) hwrite
  have hblank := (hprop hret.symm).1 0
  rw [← some.inj hcalls, ← hflash] at hblank
  exact absurd (hblank (by decide) 0 rfl) (by decide)

end UBoot
