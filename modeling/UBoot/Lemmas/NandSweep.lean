import UBoot.Lib.Sweep
import UBoot.Lemmas.NandWalk

/-!
# What the loops of the nand command access

Each of the three loops makes the accesses of a sweep: whatever the driver answers, no byte is accessed that the sweep does not reach, and a
driver that never fails is asked for all of them. The chunks of the sweeps are blocks, or pages for the raw access.
-/

namespace UBoot

open Lib List Option

namespace NandAccess

/-- The access is one of this byte. -/
def Covers (x : NandAccess) (a : Nat) : Prop := x.offset ≤ a ∧ a < x.offset + x.length

/-- The access has bytes, and all of them are reached. -/
def Within (x : NandAccess) (s : Sweep) : Prop := 0 < x.length ∧ ∀ a, x.Covers a → s.Reaches a

theorem Within.mono {x : NandAccess} {s s' : Sweep} (h : x.Within s) (hs : ∀ a, s.Reaches a → s'.Reaches a) : x.Within s' :=
  ⟨h.1, fun a ha => hs a (h.2 a ha)⟩

end NandAccess

namespace NandChip

variable {chip : NandChip} {answer : List NandAccess → Int} {op : NandOp} {s : Sweep} {made : List NandAccess}
variable {offset a n left fuel length addr eraseLength erasedLength count : Nat} {x : NandAccess} {ret : Int}

/-! ## Reading and writing -/

/-- The block of an address is good, as the loops that read and write test it. -/
def testsGood (chip : NandChip) (a : Nat) : Bool := !chip.blockIsbad (chip.maskedStart a)

theorem testsGood_of_lt_next (h : offset ≤ a) (h' : a < chip.next offset) : chip.testsGood a = chip.testsGood offset := by
  obtain ⟨k, hk⟩ := chip.erasesize_dvd_pow
  have hblock := div_eq_of_lt_next h h'
  simp only [testsGood, blockIsbad, maskedStart, Nat.mul_div_cancel _ chip.erasesize_pos]
  rw [hk, Nat.mod_mul_right_div_self, Nat.mod_mul_right_div_self, hblock]

theorem mtdReadWrite_cases (chip : NandChip) (answer : List NandAccess → Int) (op : NandOp) (offset n : Nat) (made : List NandAccess) :
    (chip.mtdReadWrite answer op offset n made).2 = made ∨
      (0 < n ∧ offset + n ≤ chip.size ∧ (chip.mtdReadWrite answer op offset n made).2 = made ++ [⟨op, offset, n⟩]) := by
  rw [mtdReadWrite]
  split
  · exact Or.inl rfl
  · split
    · exact Or.inl rfl
    · exact Or.inr ⟨by omega, by omega, rfl⟩

theorem mtdReadWrite_inside (hn : 0 < n) (h : offset + n ≤ chip.size) :
    chip.mtdReadWrite answer op offset n made = (answer (made ++ [⟨op, offset, n⟩]), made ++ [⟨op, offset, n⟩]) := by
  rw [mtdReadWrite, if_neg (by omega), if_neg (Nat.pos_iff_ne_zero.1 hn)]

/-- A driver that never fails. -/
def succeeds (_ : List NandAccess) : Int := 0

theorem failed_zero (op : NandOp) : failed op 0 = false := rfl

/-- The bytes of the first chunk of a good block, and what is reached behind it. -/
theorem reaches_good (hcounts : s.counts = chip.testsGood) (htakes : s.takes = chip.testsGood)
    (hgood : chip.testsGood offset = true) (hn : n = min left (chip.next offset - offset)) :
    (s.behind offset left).Reaches a ↔ (offset ≤ a ∧ a < offset + n ∧ a < s.stop) ∨ (s.behind (offset + n) (left - n)).Reaches a := by
  have hlt := chip.lt_next offset
  have hc : ∀ b, offset ≤ b → b < offset + n → s.counts b = true := by
    intro b h₁ h₂
    rw [hcounts, testsGood_of_lt_next h₁ (by omega), hgood]
  have ht : ∀ b, offset ≤ b → b < offset + n → s.takes b = true := by
    intro b h₁ h₂
    rw [htakes, testsGood_of_lt_next h₁ (by omega), hgood]
  rw [Sweep.reaches_chunk (Nat.le_add_right offset n) hc ht, if_pos rfl, if_pos rfl, Nat.add_sub_cancel_left]
  constructor
  · rintro (⟨h₁, h₂, h₃, -, -⟩ | h)
    · exact Or.inl ⟨h₁, h₂, h₃⟩
    · exact Or.inr h
  · rintro (⟨h₁, h₂, h₃⟩ | h)
    · exact Or.inl ⟨h₁, h₂, h₃, rfl, by omega⟩
    · exact Or.inr h

theorem reaches_bad (hcounts : s.counts = chip.testsGood) (htakes : s.takes = chip.testsGood)
    (hbad : chip.testsGood offset = false) : (s.behind offset left).Reaches a ↔ (s.behind (chip.next offset) left).Reaches a := by
  have hc : ∀ b, offset ≤ b → b < chip.next offset → chip.testsGood b = false := by
    intro b h₁ h₂
    rw [testsGood_of_lt_next h₁ h₂, hbad]
  rw [Sweep.reaches_chunk (Nat.le_of_lt (chip.lt_next offset)) (hcounts ▸ hc) (htakes ▸ hc), if_neg Bool.false_ne_true, if_neg Bool.false_ne_true,
    Nat.sub_zero]
  constructor
  · rintro (⟨-, -, -, h, -⟩ | h)
    · cases h
    · exact h
  · exact Or.inr

theorem skipBadLoop_succ (hleft : 0 < left) (hn : n = min left (chip.next offset - offset)) :
    chip.skipBadLoop answer op (fuel + 1) offset left made =
      if chip.testsGood offset = true then
        if failed op (chip.mtdReadWrite answer op offset n made).1 then
          (some (chip.mtdReadWrite answer op offset n made).1, (chip.mtdReadWrite answer op offset n made).2)
        else chip.skipBadLoop answer op fuel (offset + n) (left - n) (chip.mtdReadWrite answer op offset n made).2
      else chip.skipBadLoop answer op fuel (chip.next offset) left made := by
  have hchunk : chip.next offset - offset = chip.erasesize - offset % chip.erasesize := Nat.add_sub_cancel_left ..
  have hsize : (if left < chip.erasesize - offset % chip.erasesize then left else chip.erasesize - offset % chip.erasesize) = n := by
    rw [hn, hchunk]
    split <;> omega
  rw [skipBadLoop, if_neg (Nat.pos_iff_ne_zero.1 hleft), testsGood]
  simp only [hsize]
  cases chip.blockIsbad (chip.maskedStart offset) with
  | true => rfl
  | false => rfl

/-- The loop that reads or writes accesses what its sweep reaches. -/
theorem skipBadLoop_within (hstop : s.stop = chip.size) (hcounts : s.counts = chip.testsGood) (htakes : s.takes = chip.testsGood) : ∀ x ∈ (chip.skipBadLoop answer op fuel offset left made).2, x ∈ made ∨ x.Within (s.behind offset left) := by
  induction fuel generalizing offset left made with
  | zero => exact fun x hx => Or.inl hx
  | succ fuel ih =>
    rcases Nat.eq_zero_or_pos left with rfl | hleft
    · rw [skipBadLoop, if_pos rfl]
      exact fun x hx => Or.inl hx
    · obtain ⟨n, hn⟩ : ∃ n, n = min left (chip.next offset - offset) := ⟨_, rfl⟩
      rw [skipBadLoop_succ hleft hn]
      cases hgood : chip.testsGood offset with
      | false =>
        rw [if_neg Bool.false_ne_true]
        intro x hx
        rcases ih x hx with h | h
        · exact Or.inl h
        · exact Or.inr (h.mono fun a ha => (reaches_bad hcounts htakes hgood).2 ha)
      | true =>
        rw [if_pos rfl]
        -- the access of this chunk, if it is made
        have hfirst : ∀ x ∈ (chip.mtdReadWrite answer op offset n made).2, x ∈ made ∨ x.Within (s.behind offset left) := by
          intro x hx
          rcases chip.mtdReadWrite_cases answer op offset n made with h | ⟨hpos, hin, h⟩
          · rw [h] at hx
            exact Or.inl hx
          · rw [h, mem_append, mem_singleton] at hx
            rcases hx with hx | rfl
            · exact Or.inl hx
            · refine Or.inr ⟨hpos, ?_⟩
              rintro a ⟨h₁, h₂⟩
              exact (reaches_good hcounts htakes hgood hn).2 (Or.inl ⟨h₁, h₂, by rw [hstop]; exact Nat.lt_of_lt_of_le h₂ hin⟩)
        split
        · exact hfirst
        · intro x hx
          rcases ih x hx with h | h
          · exact hfirst x h
          · exact Or.inr (h.mono fun a ha => (reaches_good hcounts htakes hgood hn).2 (Or.inr ha))

theorem mem_skipBadLoop (h : x ∈ made) : x ∈ (chip.skipBadLoop answer op fuel offset left made).2 := by
  induction fuel generalizing offset left made with
  | zero => exact h
  | succ fuel ih =>
    rcases Nat.eq_zero_or_pos left with rfl | hleft
    · rw [skipBadLoop, if_pos rfl]
      exact h
    · rw [skipBadLoop_succ hleft rfl]
      have hfirst (n : Nat) : x ∈ (chip.mtdReadWrite answer op offset n made).2 := by
        rcases chip.mtdReadWrite_cases answer op offset n made with h' | ⟨-, -, h'⟩
        · rwa [h']
        · rw [h']
          exact mem_append_left _ h
      split
      · split
        · exact hfirst _
        · exact ih (hfirst _)
      · exact ih h

/-- Where the driver never fails, the loop that reads or writes accesses all that its sweep reaches. -/
theorem skipBadLoop_covers (hstop : s.stop = chip.size) (hcounts : s.counts = chip.testsGood) (htakes : s.takes = chip.testsGood) (hf : chip.blocksLeft offset < fuel) (ha : (s.behind offset left).Reaches a) :
    ∃ x ∈ (chip.skipBadLoop succeeds op fuel offset left made).2, x.Covers a := by
  induction fuel generalizing offset left made with
  | zero => exact absurd hf (Nat.not_lt_zero _)
  | succ fuel ih =>
    have hleft : 0 < left := Nat.lt_of_le_of_lt (Nat.zero_le _) ha.2.2.2
    have hoff : offset < chip.size := Nat.lt_of_le_of_lt ha.1 (hstop ▸ ha.2.1)
    have hblocks := blocksLeft_next hoff
    obtain ⟨n, hn⟩ : ∃ n, n = min left (chip.next offset - offset) := ⟨_, rfl⟩
    rw [skipBadLoop_succ hleft hn]
    cases hgood : chip.testsGood offset with
    | false =>
      rw [if_neg Bool.false_ne_true]
      exact ih (by omega) ((reaches_bad hcounts htakes hgood).1 ha)
    | true =>
      have hlt := chip.lt_next offset
      have hle := chip.next_le_size hoff
      rw [if_pos rfl, mtdReadWrite_inside (show 0 < n by omega) (show offset + n ≤ chip.size by omega), succeeds, failed_zero,
        if_neg Bool.false_ne_true]
      rcases (reaches_good hcounts htakes hgood hn).1 ha with ⟨h₁, h₂, -⟩ | h
      · exact ⟨⟨op, offset, n⟩, mem_skipBadLoop (mem_append_right _ (mem_singleton_self _)), h₁, h₂⟩
      · rcases Nat.lt_or_ge left (chip.next offset - offset) with hpart | hfull
        · obtain rfl : n = left := by omega
          rw [Nat.sub_self] at h
          exact absurd h Sweep.not_reaches_zero
        · have hnext : offset + n = chip.next offset := by omega
          exact ih (by rw [hnext]; omega) h

/-! ## The test of the length -/

theorem checkSkipLenLoop_returns {acc : Nat} (hf : chip.blocksLeft offset < fuel) :
    ∃ v, chip.checkSkipLenLoop length fuel offset acc ret = some v := by
  induction fuel generalizing offset acc ret with
  | zero => exact absurd hf (Nat.not_lt_zero _)
  | succ fuel ih =>
    by_cases hlt : acc < length
    · by_cases hoff : offset < chip.size
      · have hblocks := blocksLeft_next hoff
        rw [checkSkipLenLoop_succ hlt hoff]
        split <;> exact ih (by omega)
      · exact ⟨-1, by rw [checkSkipLenLoop, if_pos hlt, if_pos (Nat.le_of_not_lt hoff)]⟩
    · exact ⟨ret, by rw [checkSkipLenLoop, if_neg hlt]⟩

/-- Where nothing has to be skipped, the length fits. -/
theorem checkSkipLenLoop_zero {acc : Nat} (h : chip.checkSkipLenLoop length fuel offset acc ret = some 0) :
    ret = 0 ∧ (length ≤ acc ∨ offset + (length - acc) ≤ chip.size) := by
  induction fuel generalizing offset acc ret with
  | zero => cases h
  | succ fuel ih =>
    by_cases hlt : acc < length
    · by_cases hoff : offset < chip.size
      · have hnext := chip.lt_next offset
        have hle := chip.next_le_size hoff
        rw [checkSkipLenLoop_succ hlt hoff] at h
        split at h
        · obtain ⟨hret, hfits⟩ := ih h
          have hmod := Nat.mod_le (acc + (chip.next offset - offset)) (2 ^ 32)
          exact ⟨hret, Or.inr (by omega)⟩
        · exact absurd (ih h).1 (by decide)
      · rw [checkSkipLenLoop, if_pos hlt, if_pos (Nat.le_of_not_lt hoff)] at h
        exact absurd (some.inj h) (by decide)
    · rw [checkSkipLenLoop, if_neg hlt] at h
      exact ⟨some.inj h, Or.inl (Nat.le_of_not_lt hlt)⟩

/-- What `check_skip_len` says. -/
def skipLen (chip : NandChip) (offset length : Nat) : Option Int := chip.checkSkipLen (chip.blocksLeft offset + 1) offset length

theorem checkSkipLen_eq_skipLen {v : Int} (h : chip.checkSkipLen fuel offset length = some v) :
    chip.skipLen offset length = some v := by
  obtain ⟨v', hv'⟩ : ∃ v', chip.skipLen offset length = some v' := checkSkipLenLoop_returns (Nat.lt_succ_self (chip.blocksLeft offset))
  exact hv'.trans (congrArg some (checkSkipLen_eq hv' h))

/-! ## Reading and writing around bad blocks -/

/-- What a read or a write of a length sets out to access: all bytes in a row if no block has to be skipped, else those of the blocks that the
loop takes for good; nothing if the offset is not at a page or the length does not fit. -/
def skipSweep (chip : NandChip) (offset length : Nat) : Option Sweep :=
  if offset % chip.writesize ≠ 0 then none
  else
    match chip.skipLen offset length with
    | none => none
    | some v =>
      if v < 0 then none
      else if v = 0 then some ⟨offset, chip.size, length, fun _ => true, fun _ => true⟩
      else some ⟨offset, chip.size, length, chip.testsGood, chip.testsGood⟩

theorem reaches_row {stop : Nat} :
    (Sweep.mk offset stop n (fun _ => true) fun _ => true).Reaches a ↔ offset ≤ a ∧ a < offset + n ∧ a < stop := by
  have hcount : (Sweep.mk offset stop n (fun _ => true) fun _ => true).counted a = a - offset := Sweep.counted_all (fun _ => rfl) a
  constructor
  · rintro ⟨h₁, h₂, -, h₄⟩
    rw [hcount] at h₄
    have h₁ : offset ≤ a := h₁
    have h₄ : a - offset < n := h₄
    exact ⟨h₁, by omega, h₂⟩
  · rintro ⟨h₁, h₂, h₃⟩
    refine ⟨h₁, h₃, rfl, ?_⟩
    rw [hcount]
    show a - offset < n
    omega

/-- A read or a write around bad blocks accesses what its sweep reaches. -/
theorem skipBad_within : ∀ x ∈ (chip.skipBad answer op fuel offset length).2, ∃ s, chip.skipSweep offset length = some s ∧ x.Within s := by
  rw [skipBad, skipSweep]
  split
  · exact fun x hx => nomatch hx
  · split
    · exact fun x hx => nomatch hx
    · rename_i v hv
      rw [checkSkipLen_eq_skipLen hv]
      dsimp only
      split
      · exact fun x hx => nomatch hx
      · split
        · intro x hx
          rcases chip.mtdReadWrite_cases answer op offset length [] with h | ⟨hpos, hin, h⟩
          · rw [h] at hx
            cases hx
          · rw [h, nil_append, mem_singleton] at hx
            subst hx
            exact ⟨_, rfl, hpos, fun a ha => reaches_row.2 ⟨ha.1, ha.2, Nat.lt_of_lt_of_le ha.2 hin⟩⟩
        · intro x hx
          refine ⟨_, rfl, ?_⟩
          rcases skipBadLoop_within (s := ⟨offset, chip.size, length, chip.testsGood, chip.testsGood⟩) rfl rfl rfl x hx with h | h
          · cases h
          · exact h

/-- Where the driver never fails, a read or a write around bad blocks accesses all that its sweep reaches. -/
theorem skipBad_covers (hs : chip.skipSweep offset length = some s) (ha : s.Reaches a) :
    ∃ x ∈ (chip.skipBad succeeds op (chip.blocksLeft offset + 1) offset length).2, x.Covers a := by
  rw [skipSweep] at hs
  rw [skipBad]
  split at hs
  · cases hs
  · rename_i hpage
    rw [if_neg hpage]
    split at hs
    · cases hs
    · rename_i v hv
      rw [skipLen] at hv
      rw [hv]
      dsimp only
      split at hs
      · cases hs
      · rename_i hneg
        rw [if_neg hneg]
        split at hs
        · rename_i h0
          subst h0
          obtain rfl := some.inj hs
          obtain ⟨h₁, h₂, h₃⟩ := reaches_row.1 ha
          obtain ⟨-, hfits⟩ := checkSkipLenLoop_zero hv
          rw [if_pos rfl, mtdReadWrite_inside (by omega) (by omega)]
          exact ⟨_, mem_singleton_self _, h₁, h₂⟩
        · rename_i h0
          obtain rfl := some.inj hs
          rw [if_neg h0]
          exact skipBadLoop_covers (s := ⟨offset, chip.size, length, chip.testsGood, chip.testsGood⟩) rfl rfl rfl (Nat.lt_succ_self _) ha

/-! ## Erasing -/

/-- The block of an address is good. -/
def isGood (chip : NandChip) (a : Nat) : Bool := !chip.bad (a / chip.erasesize)

/-- What an erase of `n` blocks sets out to erase: the good blocks, where `spread` counts only these; nothing if the offset is not at a block. -/
def eraseSweep (chip : NandChip) (spread : Bool) (offset n : Nat) : Option Sweep :=
  if offset % chip.erasesize ≠ 0 then none
  else some ⟨offset, chip.size, n * chip.erasesize, fun a => !spread || chip.isGood a, chip.isGood⟩

variable {spread marker : Bool}

theorem isGood_of_lt (halign : addr % chip.erasesize = 0) (h : addr ≤ a) (h' : a < addr + chip.erasesize) :
    chip.isGood a = chip.isGood addr := by
  have hnext : chip.next addr = addr + chip.erasesize := by rw [next, halign, Nat.sub_zero]
  rw [isGood, isGood, div_eq_of_lt_next h (by rw [hnext]; exact h')]

theorem reaches_erase_good (hcounts : s.counts = fun a => !spread || chip.isGood a) (htakes : s.takes = chip.isGood)
    (halign : addr % chip.erasesize = 0) (hgood : chip.isGood addr = true) (hn : 0 < n) :
    (s.behind addr (n * chip.erasesize)).Reaches a ↔
      (addr ≤ a ∧ a < addr + chip.erasesize ∧ a < s.stop) ∨ (s.behind (addr + chip.erasesize) ((n - 1) * chip.erasesize)).Reaches a := by
  have hle : chip.erasesize ≤ n * chip.erasesize := Nat.le_mul_of_pos_left _ hn
  have hc : ∀ b, addr ≤ b → b < addr + chip.erasesize → s.counts b = true := by
    intro b h₁ h₂
    rw [hcounts]
    show (!spread || chip.isGood b) = true
    rw [isGood_of_lt halign h₁ h₂, hgood, Bool.or_true]
  have ht : ∀ b, addr ≤ b → b < addr + chip.erasesize → s.takes b = true := by
    intro b h₁ h₂
    rw [htakes, isGood_of_lt halign h₁ h₂, hgood]
  rw [Sweep.reaches_chunk (Nat.le_add_right addr _) hc ht, if_pos rfl, if_pos rfl, Nat.add_sub_cancel_left, Nat.sub_mul, Nat.one_mul]
  constructor
  · rintro (⟨h₁, h₂, h₃, -, -⟩ | h)
    · exact Or.inl ⟨h₁, h₂, h₃⟩
    · exact Or.inr h
  · rintro (⟨h₁, h₂, h₃⟩ | h)
    · exact Or.inl ⟨h₁, h₂, h₃, rfl, by omega⟩
    · exact Or.inr h

theorem reaches_erase_bad (hcounts : s.counts = fun a => !spread || chip.isGood a) (htakes : s.takes = chip.isGood)
    (halign : addr % chip.erasesize = 0) (hbad : chip.isGood addr = false) : (s.behind addr (n * chip.erasesize)).Reaches a ↔
      (s.behind (addr + chip.erasesize) ((if spread then n else n - 1) * chip.erasesize)).Reaches a := by
  have hc : ∀ b, addr ≤ b → b < addr + chip.erasesize → s.counts b = !spread := by
    intro b h₁ h₂
    rw [hcounts]
    show (!spread || chip.isGood b) = !spread
    rw [isGood_of_lt halign h₁ h₂, hbad, Bool.or_false]
  have ht : ∀ b, addr ≤ b → b < addr + chip.erasesize → s.takes b = false := by
    intro b h₁ h₂
    rw [htakes, isGood_of_lt halign h₁ h₂, hbad]
  rw [Sweep.reaches_chunk (Nat.le_add_right addr _) hc ht, Nat.add_sub_cancel_left]
  have hleft : n * chip.erasesize - (if (!spread) = true then chip.erasesize else 0) = (if spread then n else n - 1) * chip.erasesize := by
    cases spread with
    | true => rfl
    | false => exact (Nat.sub_one_mul _ _).symm
  rw [hleft]
  constructor
  · rintro (⟨-, -, -, h, -⟩ | h)
    · cases h
    · exact h
  · exact Or.inr

theorem left_after_bad {e : Nat} : n - (if spread then e else e + 1) = if spread then n - e else n - e - 1 := by
  cases spread with
  | true => rfl
  | false => exact (Nat.sub_sub ..).symm

/-- What the erase of a good block adds to the accesses. -/
theorem eraseBlock_within : ∀ x ∈ chip.eraseBlock answer marker addr made,
    x ∈ made ∨ (addr + chip.erasesize ≤ chip.size ∧ addr % chip.erasesize = 0 ∧ x.offset = addr ∧ 0 < x.length ∧ x.length ≤ chip.erasesize) := by
  have hE := chip.erasesize_pos
  have hws : chip.writesize ≤ chip.erasesize := Nat.le_of_dvd hE chip.writesize_dvd
  have hpos : 0 < chip.writesize := Nat.pos_of_dvd_of_pos chip.writesize_dvd hE
  have hfirst : ∀ x ∈ (chip.mtdEraseBlock answer addr made).2, x ∈ made ∨
      (addr + chip.erasesize ≤ chip.size ∧ addr % chip.erasesize = 0 ∧ x.offset = addr ∧ 0 < x.length ∧ x.length ≤ chip.erasesize) := by
    intro x hx
    rw [mtdEraseBlock] at hx
    split at hx
    · exact Or.inl hx
    · rcases mem_append.1 hx with hx | hx
      · exact Or.inl hx
      · obtain rfl := mem_singleton.1 hx
        exact Or.inr ⟨by omega, by omega, rfl, hE, Nat.le_refl _⟩
  intro x hx
  rw [eraseBlock] at hx
  split at hx
  · rename_i hdone
    rcases mem_append.1 hx with hx | hx
    · exact hfirst x hx
    · obtain rfl := mem_singleton.1 hx
      -- the marker is written only where the erase has succeeded
      have hin : ¬(chip.size < addr ∨ chip.size - addr < chip.erasesize ∨ addr % chip.erasesize ≠ 0) := by
        intro h
        rw [mtdEraseBlock, if_pos h] at hdone
        exact absurd (show (-EINVAL : Int) = 0 from hdone.1) (by decide)
      exact Or.inr ⟨by omega, by omega, rfl, hpos, hws⟩
  · exact hfirst x hx

theorem mem_eraseBlock (h : x ∈ made) : x ∈ chip.eraseBlock answer marker addr made := by
  have hfirst : x ∈ (chip.mtdEraseBlock answer addr made).2 := by
    rw [mtdEraseBlock]
    split
    · exact h
    · exact mem_append_left _ h
  rw [eraseBlock]
  split
  · exact mem_append_left _ hfirst
  · exact hfirst

theorem eraseBlock_covers (halign : addr % chip.erasesize = 0) (h : addr + chip.erasesize ≤ chip.size) :
    ⟨.erase, addr, chip.erasesize⟩ ∈ chip.eraseBlock answer marker addr made := by
  have hfirst : (⟨.erase, addr, chip.erasesize⟩ : NandAccess) ∈ (chip.mtdEraseBlock answer addr made).2 := by
    rw [mtdEraseBlock, if_neg (by omega)]
    exact mem_append_right _ (mem_singleton_self _)
  rw [eraseBlock]
  split
  · exact mem_append_left _ hfirst
  · exact hfirst

theorem eraseOptsLoop_succ (h : erasedLength < eraseLength) (haddr : addr ≤ chip.size) :
    chip.eraseOptsLoop answer spread marker eraseLength (fuel + 1) addr erasedLength made =
      if chip.isGood addr = true then
        chip.eraseOptsLoop answer spread marker eraseLength fuel (addr + chip.erasesize) (erasedLength + 1)
          (chip.eraseBlock answer marker addr made)
      else chip.eraseOptsLoop answer spread marker eraseLength fuel (addr + chip.erasesize)
        (if spread then erasedLength else erasedLength + 1) made := by
  rw [eraseOptsLoop, if_pos h, mtdBlockIsbad, if_neg (Nat.not_lt.2 haddr), blockIsbad, isGood]
  cases chip.bad (addr / chip.erasesize) with
  | true => rfl
  | false => rfl

theorem eraseOptsLoop_done (h : eraseLength ≤ erasedLength ∨ chip.size < addr) :
    (chip.eraseOptsLoop answer spread marker eraseLength fuel addr erasedLength made).2 = made := by
  cases fuel with
  | zero => rfl
  | succ fuel =>
    rw [eraseOptsLoop]
    split
    · rw [mtdBlockIsbad, if_pos (by omega)]
    · rfl

theorem mem_eraseOptsLoop (h : x ∈ made) :
    x ∈ (chip.eraseOptsLoop answer spread marker eraseLength fuel addr erasedLength made).2 := by
  induction fuel generalizing addr erasedLength made with
  | zero => exact h
  | succ fuel ih =>
    by_cases hgo : erasedLength < eraseLength ∧ addr ≤ chip.size
    · rw [eraseOptsLoop_succ hgo.1 hgo.2]
      split
      · exact ih (mem_eraseBlock h)
      · exact ih h
    · rwa [eraseOptsLoop_done (by omega)]

/-- The loop that erases accesses what its sweep reaches, and nothing from an address that is not the start of a block on. -/
theorem eraseOptsLoop_within (hstop : s.stop = chip.size) (hcounts : s.counts = fun a => !spread || chip.isGood a) (htakes : s.takes = chip.isGood) :
    ∀ x ∈ (chip.eraseOptsLoop answer spread marker eraseLength fuel addr erasedLength made).2,
      x ∈ made ∨ (addr % chip.erasesize = 0 ∧ x.Within (s.behind addr ((eraseLength - erasedLength) * chip.erasesize))) := by
  induction fuel generalizing addr erasedLength made with
  | zero => exact fun x hx => Or.inl hx
  | succ fuel ih =>
    by_cases hgo : erasedLength < eraseLength ∧ addr ≤ chip.size
    · have halign' : (addr + chip.erasesize) % chip.erasesize = addr % chip.erasesize := Nat.add_mod_right ..
      rw [eraseOptsLoop_succ hgo.1 hgo.2]
      cases hgood : chip.isGood addr with
      | true =>
        rw [if_pos rfl]
        have hleft : eraseLength - (erasedLength + 1) = eraseLength - erasedLength - 1 := (Nat.sub_sub ..).symm
        intro x hx
        rcases ih x hx with h | ⟨halign, h⟩
        · rcases eraseBlock_within x h with h | ⟨hin, halign, hx₁, hx₂, hx₃⟩
          · exact Or.inl h
          · refine Or.inr ⟨halign, hx₂, ?_⟩
            rintro a ⟨h₁, h₂⟩
            exact (reaches_erase_good hcounts htakes halign hgood (by omega)).2 (Or.inl ⟨by omega, by omega, by omega⟩)
        · rw [halign'] at halign
          rw [hleft] at h
          exact Or.inr ⟨halign, h.mono fun a ha => (reaches_erase_good hcounts htakes halign hgood (by omega)).2 (Or.inr ha)⟩
      | false =>
        rw [if_neg Bool.false_ne_true]
        intro x hx
        rcases ih x hx with h | ⟨halign, h⟩
        · exact Or.inl h
        · rw [halign'] at halign
          rw [left_after_bad] at h
          exact Or.inr ⟨halign, h.mono fun a ha => (reaches_erase_bad hcounts htakes halign hgood).2 ha⟩
    · rw [eraseOptsLoop_done (by omega)]
      exact fun x hx => Or.inl hx

theorem eraseOptsLoop_covers (hstop : s.stop = chip.size) (hcounts : s.counts = fun a => !spread || chip.isGood a) (htakes : s.takes = chip.isGood) (halign : addr % chip.erasesize = 0) (hf : chip.blocksLeft addr < fuel)
    (ha : (s.behind addr ((eraseLength - erasedLength) * chip.erasesize)).Reaches a) :
    ∃ x ∈ (chip.eraseOptsLoop answer spread marker eraseLength fuel addr erasedLength made).2, x.Covers a := by
  induction fuel generalizing addr erasedLength made with
  | zero => exact absurd hf (Nat.not_lt_zero _)
  | succ fuel ih =>
    have haddr : addr < chip.size := Nat.lt_of_le_of_lt ha.1 (hstop ▸ ha.2.1)
    have hgo : erasedLength < eraseLength := by
      by_contra hge
      rw [Nat.sub_eq_zero_of_le (Nat.le_of_not_lt hge), Nat.zero_mul] at ha
      exact Sweep.not_reaches_zero ha
    have hnext : chip.next addr = addr + chip.erasesize := by rw [next, halign, Nat.sub_zero]
    have halign' : (addr + chip.erasesize) % chip.erasesize = 0 := by rw [Nat.add_mod_right, halign]
    have hblocks := blocksLeft_next haddr
    rw [hnext] at hblocks
    rw [eraseOptsLoop_succ hgo (Nat.le_of_lt haddr)]
    cases hgood : chip.isGood addr with
    | true =>
      rw [if_pos rfl]
      have hleft : eraseLength - (erasedLength + 1) = eraseLength - erasedLength - 1 := (Nat.sub_sub ..).symm
      rcases (reaches_erase_good hcounts htakes halign hgood (by omega)).1 ha with ⟨h₁, h₂, -⟩ | h
      · have hin := hnext ▸ chip.next_le_size haddr
        exact ⟨_, mem_eraseOptsLoop (eraseBlock_covers halign hin), h₁, h₂⟩
      · rw [← hleft] at h
        exact ih halign' (by omega) h
    | false =>
      rw [if_neg Bool.false_ne_true]
      have h := (reaches_erase_bad hcounts htakes halign hgood).1 ha
      rw [← left_after_bad] at h
      exact ih halign' (by omega) h

theorem eraseOpts_within : ∀ x ∈ (chip.eraseOpts answer spread marker fuel offset length).2,
    ∃ s, chip.eraseSweep spread offset (chip.eraseLength length) = some s ∧ x.Within s := by
  rw [eraseOpts, eraseSweep]
  split
  · exact fun x hx => nomatch hx
  · intro x hx
    rcases eraseOptsLoop_within (s := ⟨offset, chip.size, chip.eraseLength length * chip.erasesize, fun a => !spread || chip.isGood a, chip.isGood⟩)
      rfl rfl rfl x hx with h | ⟨halign, h⟩
    · cases h
    · exact ⟨_, if_neg (not_not.2 halign), h⟩

theorem eraseOpts_covers (hs : chip.eraseSweep spread offset (chip.eraseLength length) = some s) (ha : s.Reaches a) :
    ∃ x ∈ (chip.eraseOpts answer spread marker (chip.blocksLeft offset + 1) offset length).2, x.Covers a := by
  rw [eraseSweep] at hs
  split at hs
  · cases hs
  · rename_i halign
    obtain rfl := some.inj hs
    have halign := not_not.1 halign
    have hpage : offset % chip.writesize = 0 :=
      Nat.mod_eq_zero_of_dvd (Nat.dvd_trans chip.writesize_dvd (Nat.dvd_of_mod_eq_zero halign))
    rw [eraseOpts, if_neg (not_not.2 hpage)]
    exact eraseOptsLoop_covers (s := ⟨offset, chip.size, chip.eraseLength length * chip.erasesize, fun a => !spread || chip.isGood a, chip.isGood⟩)
      rfl rfl rfl halign (Nat.lt_succ_self _) ha

/-! ## Raw pages -/

/-- The end of the last whole page from an offset on. -/
def lastPage (chip : NandChip) (offset : Nat) : Nat := offset + (chip.size - offset) / chip.writesize * chip.writesize

/-- What a raw access of some pages sets out to access: the pages in a row that are inside the device; nothing where a page is to be written
at an offset inside a page. -/
def rawSweep (chip : NandChip) (op : NandOp) (offset count : Nat) : Option Sweep :=
  if op = .program ∧ offset % chip.writesize ≠ 0 then none
  else some ⟨offset, chip.lastPage offset, count * chip.writesize, fun _ => true, fun _ => true⟩

theorem writesize_pos (chip : NandChip) : 0 < chip.writesize := Nat.pos_of_dvd_of_pos chip.writesize_dvd chip.erasesize_pos

theorem lastPage_next (h : offset + chip.writesize ≤ chip.size) :
    chip.lastPage (offset + chip.writesize) = chip.lastPage offset ∧ offset + chip.writesize ≤ chip.lastPage offset := by
  have hpos := chip.writesize_pos
  have hdiv : (chip.size - offset) / chip.writesize = (chip.size - (offset + chip.writesize)) / chip.writesize + 1 := by
    rw [show chip.size - offset = chip.size - (offset + chip.writesize) + chip.writesize by omega, Nat.add_div_right _ hpos]
  rw [lastPage, lastPage, hdiv, Nat.add_mul, Nat.one_mul]
  omega

theorem lastPage_end (h : chip.size < offset + chip.writesize) : chip.lastPage offset = offset := by
  rw [lastPage, Nat.div_eq_of_lt (by have := chip.writesize_pos; omega), Nat.zero_mul, Nat.add_zero]

theorem reaches_raw (h : offset + chip.writesize ≤ chip.size) :
    (Sweep.mk offset (chip.lastPage offset) ((count + 1) * chip.writesize) (fun _ => true) fun _ => true).Reaches a ↔
      (offset ≤ a ∧ a < offset + chip.writesize) ∨
        (Sweep.mk (offset + chip.writesize) (chip.lastPage (offset + chip.writesize)) (count * chip.writesize) (fun _ => true)
          fun _ => true).Reaches a := by
  obtain ⟨hstop, hle⟩ := lastPage_next h
  rw [reaches_row, reaches_row, hstop, Nat.add_mul, Nat.one_mul]
  omega

theorem mtdReadWriteOob_inside (h : offset + chip.writesize ≤ chip.size) (hw : op = .program → offset % chip.writesize = 0) :
    chip.mtdReadWriteOob answer op offset made = (answer (made ++ [⟨op, offset, chip.writesize⟩]), made ++ [⟨op, offset, chip.writesize⟩]) := by
  rw [mtdReadWriteOob, if_neg (Nat.not_lt.2 h), if_neg (fun hc => hc.2 (hw hc.1))]

theorem rawAccess_within : ∀ x ∈ (chip.rawAccess answer op count offset made).2,
    x ∈ made ∨ ∃ s, chip.rawSweep op offset count = some s ∧ x.Within s := by
  induction count generalizing offset made with
  | zero => exact fun x hx => Or.inl hx
  | succ count ih =>
    rw [rawAccess]
    by_cases hin : offset + chip.writesize ≤ chip.size
    · by_cases hw : op = .program ∧ offset % chip.writesize ≠ 0
      · rw [mtdReadWriteOob, if_neg (Nat.not_lt.2 hin), if_pos hw, if_pos (show (-EINVAL : Int) ≠ 0 by decide)]
        exact fun x hx => Or.inl hx
      · have hsweep (offset n : Nat) (h : ¬(op = .program ∧ offset % chip.writesize ≠ 0)) : chip.rawSweep op offset n =
            some ⟨offset, chip.lastPage offset, n * chip.writesize, fun _ => true, fun _ => true⟩ := if_neg h
        rw [mtdReadWriteOob_inside hin (fun hp => not_not.1 fun h => hw ⟨hp, h⟩)]
        have hfirst : ∀ x ∈ made ++ [⟨op, offset, chip.writesize⟩],
            x ∈ made ∨ ∃ s, chip.rawSweep op offset (count + 1) = some s ∧ x.Within s := by
          intro x hx
          rcases mem_append.1 hx with hx | hx
          · exact Or.inl hx
          · obtain rfl := mem_singleton.1 hx
            exact Or.inr ⟨_, hsweep _ _ hw, chip.writesize_pos, fun a ha => (reaches_raw hin).2 (Or.inl ha)⟩
        split
        · exact hfirst
        · intro x hx
          rcases ih x hx with h | ⟨s, hs, h⟩
          · exact hfirst x h
          · have hw' : ¬(op = .program ∧ (offset + chip.writesize) % chip.writesize ≠ 0) := by
              rwa [Nat.add_mod_right]
            rw [hsweep _ _ hw'] at hs
            obtain rfl := some.inj hs
            exact Or.inr ⟨_, hsweep _ _ hw, h.mono fun a ha => (reaches_raw hin).2 (Or.inr ha)⟩
    · rw [mtdReadWriteOob, if_pos (Nat.lt_of_not_le hin), if_pos (show (-EINVAL : Int) ≠ 0 by decide)]
      exact fun x hx => Or.inl hx

theorem mem_rawAccess (h : x ∈ made) : x ∈ (chip.rawAccess answer op count offset made).2 := by
  induction count generalizing offset made with
  | zero => exact h
  | succ count ih =>
    have hfirst : x ∈ (chip.mtdReadWriteOob answer op offset made).2 := by
      rw [mtdReadWriteOob]
      split
      · exact h
      · split
        · exact h
        · exact mem_append_left _ h
    rw [rawAccess]
    split
    · exact hfirst
    · exact ih hfirst

theorem rawAccess_covers (hs : chip.rawSweep op offset count = some s) (ha : s.Reaches a) :
    ∃ x ∈ (chip.rawAccess succeeds op count offset made).2, x.Covers a := by
  induction count generalizing offset made s with
  | zero =>
    rw [rawSweep] at hs
    split at hs
    · cases hs
    · obtain rfl := some.inj hs
      obtain ⟨h₁, h₂, -⟩ := reaches_row.1 ha
      rw [Nat.zero_mul] at h₂
      omega
  | succ count ih =>
    rw [rawSweep] at hs
    split at hs
    · cases hs
    · rename_i hw
      obtain rfl := some.inj hs
      have hin : offset + chip.writesize ≤ chip.size := by
        by_contra hout
        obtain ⟨h₁, -, h₃⟩ := reaches_row.1 ha
        rw [lastPage_end (Nat.lt_of_not_le hout)] at h₃
        omega
      rw [rawAccess, mtdReadWriteOob_inside hin (fun hp => not_not.1 fun h => hw ⟨hp, h⟩), succeeds]
      rw [if_neg (show ¬(0 : Int) ≠ 0 by decide)]
      rcases (reaches_raw hin).1 ha with ⟨h₁, h₂⟩ | h
      · exact ⟨_, mem_rawAccess (mem_append_right _ (mem_singleton_self _)), h₁, h₂⟩
      · refine ih ?_ h
        rw [rawSweep, if_neg (by rwa [Nat.add_mod_right])]

end NandChip

end UBoot
