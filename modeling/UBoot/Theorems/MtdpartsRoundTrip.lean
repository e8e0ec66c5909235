import UBoot.Lemmas.MtdText

/-!
# The mtdparts variable gives the partition table back

The text of a table of regular devices is parsed to the same devices with the same partitions.
-/

namespace UBoot

open MtdAux MemsizeAux List Option CString

/-- A partition that went through `part_validate`, with the least size and a name of the user's. -/
structure PartInfo.Regular (mtds : Nat → Nat → Option MtdInfo) (id : MtdId) (part : PartInfo) : Prop where
  valid : ∃ before, partValidate mtds id before = some part
  size_min : MIN_PART_SIZE ≤ part.size
  size_lt : part.size < 2 ^ 32
  user_name : part.autoName = false
  name_ne : part.name.bytes ≠ []
  name_close : chClose ∉ part.name.bytes

/-- A device found under its mtd-id, with counted partitions at increasing offsets, of which only the last may have the special
size. -/
structure MtdDevice.Regular (mtds : Nat → Nat → Option MtdInfo) (mtdids : List MtdId) (dev : MtdDevice) : Prop where
  parts_regular : ∀ p ∈ dev.parts, p.Regular mtds dev.id
  sorted : dev.parts.Pairwise fun p q => p.offset < q.offset
  count : dev.numParts = dev.parts.length
  small : dev.numParts < 2 ^ 16
  nonempty : dev.parts ≠ []
  fill_last : ∀ p ∈ dev.parts.dropLast, p.size ≠ SIZE_REMAINING
  registered : idFindByMtdId mtdids dev.id.mtdId.bytes = some dev.id
  no_colon : chColon ∉ dev.id.mtdId.bytes

/-- What a device says besides its address. -/
def MtdDevice.contents (dev : MtdDevice) : MtdId × Nat × List (Nat × Nat × Bool × CString) :=
  (dev.id, dev.numParts, dev.parts.map MtdAux.contents)

namespace MtdAux

variable {mtds : Nat → Nat → Option MtdInfo} {malloc : Nat → Option Nat} {mtdids : List MtdId}
variable {id : MtdId} {part : PartInfo} {prevPart : Option PartInfo} {tail : List UInt8} {parts : List PartInfo} {devices : List MtdDevice}

/-! ## One partition -/

/-- The partition that is parsed from a text with or without its offset, before its offset is resolved. -/
def parsedPart (addr : Nat) (given : Bool) (part : PartInfo) : PartInfo where
  addr := addr
  name := part.name
  autoName := false
  size := part.size
  offset := if given then part.offset else OFFSET_NOT_SPECIFIED
  maskFlags := if part.maskFlags != 0 then MTD_WRITEABLE_CMD else 0
  sectorSize := 0

theorem partParse_text (h : part.Regular mtds id) (hid : id.size < 2 ^ 32) (h0 : needsOffset prevPart part = true → part.offset ≠ 0) {n addr : Nat}
    (hm : malloc n = some addr) (htail : ∀ c ∈ tail.head?, c ≠ 0x72) {rest : List UInt8}
    (hend : parsePartEnd part.size tail = some rest) :
    partParse malloc n (partText prevPart part ++ tail) = some (parsedPart addr (needsOffset prevPart part) part, rest) := by
  have hoff : part.offset < 2 ^ 32 := by
    obtain ⟨before, hvalid⟩ := h.valid
    obtain ⟨hle, -, -, mtd, -, -, rfl⟩ := partValidate_eq_some_iff.1 hvalid
    exact hle.trans_lt hid
  have hsize : EndsSize ((if needsOffset prevPart part then chAt :: memsizeFormat part.offset else []) ++
      chOpen :: (part.name.bytes ++ chClose :: ((if part.maskFlags != 0 then roText else []) ++ tail))) := by
    cases needsOffset prevPart part with
    | true => exact endsSize_cons (by decide) (by decide) _
    | false => exact endsSize_cons (by decide) (by decide) _
  have htext : partText prevPart part ++ tail = memsizeFormat part.size ++
      ((if needsOffset prevPart part then chAt :: memsizeFormat part.offset else []) ++
        chOpen :: (part.name.bytes ++ chClose :: ((if part.maskFlags != 0 then roText else []) ++ tail))) := by
    simp [partText, h.user_name]
  rw [partParse, htext, parsePartSize_text h.size_min h.size_lt hsize]
  simp only [bind_eq_bind, bind_some, parsePartOffset_text h0 hoff,
    parsePartName_text h.name_ne h.name_close, parsePartFlags_text htail, hend, hm, getD_some, ofBytes_bytes,
    isNone_some]
  rfl

/-- A partition with the size and the offset of a valid one is valid. -/
theorem partValidate_again {before q : PartInfo} (h : partValidate mtds id before = some part)
    (hid : id.size < 2 ^ 32) (hsize : q.size = part.size) (hoff : q.offset = part.offset) :
    ∃ sectorSize, partValidate mtds id q = some { q with sectorSize := sectorSize } := by
  obtain ⟨h₁, h₂, h₃, mtd, hmtd, hok, rfl⟩ := partValidate_eq_some_iff.1 h
  have hfill : fillSize id q = q := by
    rw [fillSize, ite_eq_right_iff]
    intro hrem
    -- a valid partition of the special size begins at 0 and takes the whole flash
    have : sub32 id.size q.offset = q.size := by
      simp only at hsize hoff
      rw [← hoff, ← hsize, hrem] at h₂ h₃
      rw [hrem]
      unfold sub32
      unfold add32 at h₂ h₃
      unfold SIZE_REMAINING at *
      omega
    rw [this]
  simp only at hsize hoff
  rw [← hsize, ← hoff] at h₂ h₃ hok
  rw [← hoff] at h₁
  exact ⟨mtd.erasesize, partValidate_eq_some_iff.2 (by rw [hfill]; exact ⟨h₁, h₂, h₃, mtd, hmtd, hok, rfl⟩)⟩

theorem contents_parsed {addr offset sectorSize : Nat} {given : Bool} (hoff : offset = part.offset) :
    contents { parsedPart addr given part with offset := offset, sectorSize := sectorSize } = contents part := by
  unfold contents parsedPart
  subst hoff
  cases hflag : part.maskFlags != 0 with
  | true => simp [MTD_WRITEABLE_CMD]
  | false => simp

/-! ## The partitions of a device -/

/-- What can follow the partitions of a device. -/
def EndsDevice (tail : List UInt8) : Prop := ∀ c ∈ tail.head?, c = chSemicolon

/-- Where the parser expects the next partition. -/
def endOf : Option PartInfo → Nat
  | none => 0
  | some prev => add32 prev.offset prev.size

theorem partText_head (h : part.Regular mtds id) (prevPart : Option PartInfo)
    (rest : List UInt8) : ∃ d ds, partText prevPart part ++ rest = d :: ds ∧ (xdigit d).isSome := by
  have h0 : part.size ≠ 0 := by
    have := h.size_min
    unfold MIN_PART_SIZE at this
    omega
  obtain ⟨d, ds, hds, hd⟩ := memsizeFormat_head h0 h.size_lt
  exact ⟨d, _, by rw [partText, hds, cons_append, cons_append], hd⟩

theorem offset_lt_special (hid : id.size < 2 ^ 32) (h : part.Regular mtds id) :
    part.offset < OFFSET_NOT_SPECIFIED := by
  obtain ⟨before, hvalid⟩ := h.valid
  obtain ⟨-, hlt, hle, mtd, -, -, rfl⟩ := partValidate_eq_some_iff.1 hvalid
  have : add32 (fillSize id before).offset (fillSize id before).size ≤ OFFSET_NOT_SPECIFIED := by
    unfold OFFSET_NOT_SPECIFIED
    omega
  exact hlt.trans_le this

/-- The offset the parser resolves is the one of the partition, whether it was written or not. -/
theorem resolve_offset (hoff : part.offset < OFFSET_NOT_SPECIFIED) (addr : Nat) :
    (if (parsedPart addr (needsOffset prevPart part) part).offset = OFFSET_NOT_SPECIFIED then
      { parsedPart addr (needsOffset prevPart part) part with offset := endOf prevPart }
      else parsedPart addr (needsOffset prevPart part) part) =
    { parsedPart addr (needsOffset prevPart part) part with offset := part.offset } := by
  cases hgiven : needsOffset prevPart part with
  | true =>
    have hne : (parsedPart addr true part).offset ≠ OFFSET_NOT_SPECIFIED := Nat.ne_of_lt hoff
    rw [if_neg hne]
    rfl
  | false =>
    have hend : endOf prevPart = part.offset := by
      cases prevPart with
      | none =>
        have hzero : part.offset = 0 := by simpa [needsOffset] using hgiven
        rw [hzero]
        rfl
      | some prev => simpa [needsOffset, endOf] using hgiven
    have hspecial : (parsedPart addr false part).offset = OFFSET_NOT_SPECIFIED := rfl
    rw [if_pos hspecial, hend]

/-- The end of the definition of a partition, with others behind it or not. -/
theorem parsePartEnd_text {size : Nat} (hsize : parts ≠ [] → size ≠ SIZE_REMAINING)
    (rest : List UInt8) (hrest : parts = [] → rest = tail) (htail : EndsDevice tail) :
    parsePartEnd size ((if parts = [] then [] else [chComma]) ++ rest) = some rest ∧
      ∀ c ∈ ((if parts = [] then [] else [chComma]) ++ rest).head?, c ≠ 0x72 := by
  by_cases hp : parts = []
  · obtain rfl := hrest hp
    rw [if_pos hp, nil_append]
    cases rest with
    | nil => exact ⟨rfl, by simp⟩
    | cons c rest =>
      obtain rfl := htail c rfl
      exact ⟨rfl, by simp [chSemicolon]⟩
  · rw [if_neg hp, singleton_append]
    refine ⟨?_, by simp [chComma]⟩
    rw [parsePartEnd, if_pos rfl, if_neg (hsize hp)]

theorem devicePartsLoop_text (hm : ∀ n, (malloc n).isSome) (hid : id.size < 2 ^ 32)
    (hreg : ∀ p ∈ parts, p.Regular mtds id) (hfill : ∀ p ∈ parts.dropLast, p.size ≠ SIZE_REMAINING)
    (prevPart : Option PartInfo) (hprev : ∀ prev ∈ prevPart, ∀ p ∈ parts, prev.offset < p.offset)
    (hsorted : parts.Pairwise fun p q => p.offset < q.offset) (htail : EndsDevice tail) (fuel n : Nat)
    (hfuel : parts.length < fuel) (acc : List PartInfo) (hne : acc ++ parts ≠ []) :
    ∃ parsed, devicePartsLoop mtds malloc id fuel n (endOf prevPart) (partsText prevPart parts ++ tail) acc =
      some (acc ++ parsed, tail, n + parts.length) ∧ parsed.map contents = parts.map contents := by
  induction parts generalizing prevPart fuel n acc with
  | nil =>
    obtain ⟨fuel, rfl⟩ : ∃ k, fuel = k + 1 := ⟨fuel - 1, by omega⟩
    have hend : tail = [] ∨ tail.head? = some chSemicolon := by
      cases tail with
      | nil => exact Or.inl rfl
      | cons c rest => exact Or.inr (by rw [head?_cons, htail c rfl])
    refine ⟨[], ?_, rfl⟩
    rw [devicePartsLoop, partsText, nil_append, if_pos hend, if_neg (by simpa using hne), append_nil]
    rfl
  | cons part parts ih =>
    obtain ⟨fuel, rfl⟩ : ∃ k, fuel = k + 1 := ⟨fuel - 1, by rw [length_cons] at hfuel; omega⟩
    have hpart := hreg part mem_cons_self
    obtain ⟨addr, haddr⟩ := isSome_iff_exists.1 (hm n)
    obtain ⟨hlt, hsorted⟩ := pairwise_cons.1 hsorted
    have h0 : needsOffset prevPart part = true → part.offset ≠ 0 := by
      intro hgiven
      cases prevPart with
      | none => simpa [needsOffset] using hgiven
      | some prev =>
        have := hprev prev rfl part mem_cons_self
        omega
    have hsize : parts ≠ [] → part.size ≠ SIZE_REMAINING := by
      intro hp
      exact hfill part (by rw [dropLast_cons_of_ne_nil hp]; exact mem_cons_self)
    obtain ⟨hend, hr⟩ := parsePartEnd_text hsize (partsText (some part) parts ++ tail) (fun hp => by rw [hp]; rfl) htail
    have hparse := partParse_text hpart hid h0 haddr hr hend
    obtain ⟨before, hvalid⟩ := hpart.valid
    obtain ⟨sectorSize, hagain⟩ := partValidate_again
      (q := { parsedPart addr (needsOffset prevPart part) part with offset := part.offset }) hvalid hid rfl rfl
    obtain ⟨d, ds, hds, hd⟩ := partText_head hpart prevPart ((if parts = [] then [] else [chComma]) ++ (partsText (some part) parts ++ tail))
    have hmore : ¬(d :: ds = [] ∨ (d :: ds).head? = some chSemicolon) := by
      rintro (h | h)
      · cases h
      · obtain rfl := some.inj h
        exact absurd hd (by decide)
    obtain ⟨parsed, hloop, hcontents⟩ := ih (fun p hp => hreg p (mem_cons_of_mem _ hp)) (fun p hp => hfill p (by
        rw [dropLast_cons_of_ne_nil (ne_nil_of_mem (dropLast_subset _ hp))]
        exact mem_cons_of_mem _ hp))
      (some part) (fun prev hprev => some.inj hprev ▸ hlt) hsorted fuel (n + 1)
      (by rw [length_cons] at hfuel; omega)
      (acc ++ [{ parsedPart addr (needsOffset prevPart part) part with offset := part.offset, sectorSize := sectorSize }])
      (by simp)
    refine ⟨{ parsedPart addr (needsOffset prevPart part) part with offset := part.offset, sectorSize := sectorSize } :: parsed, ?_, ?_⟩
    · rw [devicePartsLoop, partsText, append_assoc, append_assoc, hds, if_neg hmore, ← hds, hparse]
      simp only [bind_eq_bind, bind_some, resolve_offset (offset_lt_special hid hpart), hagain]
      have hn : n + 1 + parts.length = n + (part :: parts).length := by
        rw [length_cons]
        omega
      rw [append_assoc, singleton_append, hn] at hloop
      exact hloop
    · rw [map_cons, map_cons, hcontents, contents_parsed rfl]

theorem length_partsText (hreg : ∀ p ∈ parts, p.Regular mtds id)
    (prevPart : Option PartInfo) : parts.length ≤ (partsText prevPart parts).length := by
  induction parts generalizing prevPart with
  | nil => exact Nat.zero_le _
  | cons part parts ih =>
    obtain ⟨d, ds, hds, -⟩ := partText_head (hreg part mem_cons_self) prevPart []
    have ih := ih (fun p hp => hreg p (mem_cons_of_mem _ hp)) (some part)
    rw [append_nil] at hds
    rw [partsText, hds, length_append, length_append, length_cons, length_cons]
    omega

theorem sortAddLoop_last (h : ∀ p ∈ parts, p.offset < part.offset) :
    sortAddLoop part parts = some (parts ++ [part], none) := by
  induction parts with
  | nil => rfl
  | cons p parts ih =>
    have hlt := h p mem_cons_self
    rw [sortAddLoop, if_neg (by omega), if_neg (by omega), ih fun q hq => h q (mem_cons_of_mem _ hq)]
    rfl

/-- Partitions at increasing offsets are added in their order. -/
theorem foldlM_sortAdd (parts : List PartInfo) (dev : MtdDevice) (hsmall : dev.numParts < 2 ^ 16)
    (hs : (dev.parts ++ parts).Pairwise fun p q => p.offset < q.offset) :
    parts.foldlM (fun dev part => (partSortAdd dev part none 0).map Prod.fst) dev =
      some { dev with parts := dev.parts ++ parts, numParts := (dev.numParts + parts.length) % 2 ^ 16 } := by
  induction parts generalizing dev with
  | nil =>
    rw [foldlM_nil, append_nil, length_nil, Nat.add_zero, Nat.mod_eq_of_lt hsmall]
    rfl
  | cons part parts ih =>
    have hlast : ∀ p ∈ dev.parts, p.offset < part.offset := fun p hp =>
      (pairwise_append.1 hs).2.2 p hp part mem_cons_self
    have hs' : ((dev.parts ++ [part]) ++ parts).Pairwise fun p q => p.offset < q.offset := by
      rwa [append_assoc, singleton_append]
    rw [foldlM_cons, partSortAdd, sortAddLoop_last hlast]
    simp only [map_some, bind_eq_bind, bind_some]
    rw [ih _ (Nat.mod_lt _ (Nat.two_pow_pos 16)) hs', append_assoc, singleton_append, length_cons]
    have hnum : ((dev.numParts + 1) % 2 ^ 16 + parts.length) % 2 ^ 16 = (dev.numParts + (parts.length + 1)) % 2 ^ 16 := by omega
    simp only [hnum]

/-! ## A device -/

/-- The text of a device is parsed back, up to the next one. -/
theorem deviceParse_text (hm : ∀ n, (malloc n).isSome) {dev : MtdDevice} (h : dev.Regular mtds mtdids)
    (hid : dev.id.size < 2 ^ 32) (hnew : deviceFind devices dev.id.type dev.id.num = none) (htail : EndsDevice tail) (n : Nat) :
    ∃ dev' n', deviceParse mtds malloc mtdids devices n
        (dev.id.mtdId.bytes ++ chColon :: (partsText none dev.parts ++ tail)) = some (dev', tail.tail, n') ∧
      dev'.contents = dev.contents := by
  have hpos : ∀ c ∈ dev.id.mtdId.bytes, (c != chColon) = true := fun c hc => bne_iff_ne.2 fun he => h.no_colon (he ▸ hc)
  have hfirst : firstOffset devices dev.id = endOf none := by
    rw [firstOffset, hnew]
    rfl
  have hfuel : dev.parts.length < (partsText none dev.parts ++ tail).length + 1 := by
    have := length_partsText h.parts_regular none
    rw [length_append]
    omega
  obtain ⟨parsed, hloop, hcontents⟩ := devicePartsLoop_text hm hid h.parts_regular h.fill_last none (by simp)
    h.sorted htail _ n hfuel [] (by simpa using h.nonempty)
  have hlen : parsed.length = dev.parts.length := by simpa using congrArg List.length hcontents
  have hoffsets : parsed.map PartInfo.offset = dev.parts.map PartInfo.offset := by
    have := congrArg (List.map fun c => c.2.1) hcontents
    simpa [Function.comp_def, contents] using this
  have hsorted : parsed.Pairwise fun p q => p.offset < q.offset := by
    have hs := pairwise_map.2 h.sorted
    rw [← hoffsets] at hs
    exact pairwise_map.1 hs
  have hcount : ¬parsed.length % 2 ^ 16 = 0 := by
    have hne := length_pos_iff.2 h.nonempty
    have hsmall := h.small
    rw [h.count] at hsmall
    rw [hlen, Nat.mod_eq_of_lt hsmall]
    omega
  obtain ⟨addr, haddr⟩ := isSome_iff_exists.1 (hm (n + dev.parts.length))
  have hfold := foldlM_sortAdd parsed ⟨addr, dev.id, 0, []⟩ (Nat.two_pow_pos 16) hsorted
  have hnext : (if tail.head? = some chSemicolon then tail.tail else tail) = tail.tail := by
    cases tail with
    | nil => rfl
    | cons c rest => rw [if_pos (by rw [head?_cons, htail c rfl])]
  refine ⟨⟨addr, dev.id, parsed.length % 2 ^ 16, parsed⟩, n + dev.parts.length + 1, ?_, ?_⟩
  · have hdrop : (chColon :: (partsText none dev.parts ++ tail)).dropWhile (· != chColon) =
        chColon :: (partsText none dev.parts ++ tail) := by simp
    have htake : (chColon :: (partsText none dev.parts ++ tail)).takeWhile (· != chColon) = [] := by simp
    simp only [Nat.zero_add, nil_append] at hfold hloop
    rw [deviceParse, dropWhile_append_of_pos hpos, takeWhile_append_of_pos hpos, hdrop, htake, append_nil]
    simp only [bind_eq_bind, tail?_cons, bind_some, h.registered, hfirst, hloop, if_neg hcount, haddr, hfold, hnext]
  · have hsmall := h.small
    rw [h.count] at hsmall
    rw [MtdDevice.contents, MtdDevice.contents, hcontents, hlen, Nat.mod_eq_of_lt hsmall, h.count]

/-! ## The devices -/

theorem deviceFind_eq_none {type num : Nat}
    (h : (type, num) ∉ devices.map fun d => (d.id.type, d.id.num)) : deviceFind devices type num = none := by
  rw [deviceFind, find?_eq_none]
  intro d hd hfound
  simp only [decide_eq_true_eq] at hfound
  exact h (mem_map.2 ⟨d, hd, by rw [hfound.1, hfound.2]⟩)

theorem parseMtdpartsLoop_text (hm : ∀ n, (malloc n).isSome)
    (hreg : ∀ d ∈ devices, d.Regular mtds mtdids) (hid : ∀ d ∈ devices, d.id.size < 2 ^ 32) (fuel n : Nat)
    (hfuel : devices.length < fuel) (acc : List MtdDevice) (hne : acc ++ devices ≠ [])
    (hnd : ((acc ++ devices).map fun d => (d.id.type, d.id.num)).Nodup) :
    ∃ parsed, parseMtdpartsLoop mtds malloc mtdids fuel n (devicesText devices) acc = some (acc ++ parsed) ∧
      parsed.map MtdDevice.contents = devices.map MtdDevice.contents := by
  induction devices generalizing fuel n acc with
  | nil =>
    obtain ⟨fuel, rfl⟩ : ∃ k, fuel = k + 1 := ⟨fuel - 1, by omega⟩
    refine ⟨[], ?_, rfl⟩
    rw [parseMtdpartsLoop, devicesText, if_pos rfl, if_neg (by simpa using hne), append_nil]
  | cons dev devices ih =>
    obtain ⟨fuel, rfl⟩ : ∃ k, fuel = k + 1 := ⟨fuel - 1, by rw [length_cons] at hfuel; omega⟩
    have hnew : deviceFind acc dev.id.type dev.id.num = none := by
      apply deviceFind_eq_none
      rw [map_append, map_cons, nodup_middle, nodup_cons, mem_append, not_or] at hnd
      exact hnd.1.1
    have htail : EndsDevice ((if devices = [] then [] else [chSemicolon]) ++ devicesText devices) := by
      intro c hc
      cases devices with
      | nil => cases hc
      | cons e devices => exact (some.inj hc).symm
    have hrest : ((if devices = [] then [] else [chSemicolon]) ++ devicesText devices).tail = devicesText devices := by
      cases devices <;> rfl
    obtain ⟨dev', n', hparse, hcontents⟩ := deviceParse_text hm (hreg dev mem_cons_self) (hid dev mem_cons_self) hnew htail n
    have hdevid : dev'.id = dev.id := congrArg Prod.fst hcontents
    have hmore : ¬devicesText (dev :: devices) = [] := by
      rw [devicesText]
      simp
    obtain ⟨parsed, hloop, hrestc⟩ := ih (fun d hd => hreg d (mem_cons_of_mem _ hd))
      (fun d hd => hid d (mem_cons_of_mem _ hd)) fuel n' (by rw [length_cons] at hfuel; omega) (acc ++ [dev'])
      (by simp) (by rw [append_assoc, singleton_append]; simpa [hdevid] using hnd)
    refine ⟨dev' :: parsed, ?_, ?_⟩
    · rw [parseMtdpartsLoop, if_neg hmore, devicesText, hparse]
      simp only [bind_eq_bind, bind_some, hdevid, hnew, hrest]
      simpa using hloop
    · rw [map_cons, map_cons, hcontents, hrestc]

theorem length_devicesText (devices : List MtdDevice) : devices.length ≤ (devicesText devices).length := by
  induction devices with
  | nil => exact Nat.zero_le _
  | cons dev devices ih =>
    rw [devicesText, length_append, length_cons, length_cons, length_append, length_append]
    omega

/-- What `parse_mtdids` makes: no two entries for one device, and sizes of 32 bits. -/
structure IdsOk (mtdids : List MtdId) : Prop where
  distinct : (mtdids.map fun id => (id.type, id.num)).Nodup
  size_lt : ∀ id ∈ mtdids, id.size < 2 ^ 32

theorem parseMtdidsLoop_ok (fuel : Nat) (p : List UInt8) {acc : List MtdId} (hacc : IdsOk acc)
    (h : parseMtdidsLoop mtds malloc fuel p acc = some mtdids) : IdsOk mtdids := by
  induction fuel generalizing p acc with
  | zero => cases h
  | succ fuel ih =>
    rw [parseMtdidsLoop] at h
    split at h
    · split at h
      · cases h
      · exact some.inj h ▸ hacc
    · obtain ⟨⟨type, num, q⟩, -, h⟩ := bind_eq_some_iff.1 h
      simp only at h
      split at h
      · cases h
      obtain ⟨mtd, -, h⟩ := bind_eq_some_iff.1 h
      split at h
      · cases h
      rename_i hany
      obtain ⟨-, -, h⟩ := bind_eq_some_iff.1 h
      refine ih _ ⟨?_, ?_⟩ h
      · rw [map_append, map_singleton, nodup_append_comm, singleton_append, nodup_cons]
        refine ⟨fun hmem => hany ?_, hacc.distinct⟩
        obtain ⟨id, hid, he⟩ := mem_map.1 hmem
        obtain ⟨ht, hn⟩ := Prod.mk.inj he
        exact any_eq_true.2 ⟨id, hid, by simp [ht, hn]⟩
      · intro id hid
        rcases mem_append.1 hid with hid | hid
        · exact hacc.size_lt id hid
        · rw [mem_singleton.1 hid]
          exact Nat.mod_lt _ (Nat.two_pow_pos 32)

theorem parseMtdids_ok {ids : List UInt8} (h : parseMtdids mtds malloc ids = some mtdids) : IdsOk mtdids := by
  have hnil : IdsOk [] := ⟨nodup_nil, by simp⟩
  exact parseMtdidsLoop_ok _ _ hnil h

theorem nodup_devices (hids : IdsOk mtdids) (hreg : ∀ d ∈ devices, d.Regular mtds mtdids)
    (hd : (devices.map fun d => d.id.mtdId).Nodup) : (devices.map fun d => (d.id.type, d.id.num)).Nodup := by
  have hmem (d : MtdDevice) (h : d ∈ devices) : d.id ∈ mtdids := mem_of_find?_eq_some (hreg d h).registered
  rw [nodup_map_iff_inj_on (List.Nodup.of_map _ hd)]
  intro d hdm e hem he
  have hid : d.id = e.id := inj_on_of_nodup_map hids.distinct (hmem d hdm) (hmem e hem) he
  exact inj_on_of_nodup_map hd hdm hem (congrArg MtdId.mtdId hid)

end MtdAux

/-- For every list of regular devices with distinct mtd-ids, which is not empty, and a buffer that holds the text: what
`generate_mtdparts` writes is parsed by `parse_mtdparts`, with memory for the table, to the same devices with the same
partitions. -/
theorem mtdparts_round_trip (mtds : Nat → Nat → Option MtdInfo) (malloc malloc' : Nat → Option Nat)
    (hm : ∀ n, (malloc n).isSome) (ids : List UInt8) (mtdids : List MtdId) (hids : parseMtdids mtds malloc' ids = some mtdids)
    (devices : List MtdDevice) (hne : devices ≠ []) (hreg : ∀ d ∈ devices, d.Regular mtds mtdids)
    (hdistinct : (devices.map fun d => d.id.mtdId).Nodup) (buflen : Nat) (h32 : buflen < 2 ^ 32)
    (hfits : (mtdpartsText devices).length + 1 ≤ buflen) :
    ∃ text parsed, generateMtdparts buflen devices = some text ∧ parseMtdparts mtds malloc mtdids text = some parsed ∧
      parsed.map MtdDevice.contents = devices.map MtdDevice.contents := by
  have hok := parseMtdids_ok hids
  have hsize : ∀ d ∈ devices, d.id.size < 2 ^ 32 := by
    intro d hd
    exact hok.size_lt d.id (mem_of_find?_eq_some (hreg d hd).registered)
  have hgen := generateMtdparts_eq (fun d hd => (hreg d hd).count) hfits h32
  have htext : mtdpartsText devices = mtdpartsPrefix ++ devicesText devices := by rw [mtdpartsText, if_neg hne]
  have hfuel : devices.length < (mtdpartsText devices).length + 1 := by
    have := length_devicesText devices
    rw [htext, length_append]
    omega
  obtain ⟨parsed, hloop, hcontents⟩ := parseMtdpartsLoop_text hm hreg hsize _ 0 hfuel [] (by simpa using hne)
    (by simpa using nodup_devices hok hreg hdistinct)
  refine ⟨_, parsed, hgen, ?_, hcontents⟩
  have hprefix : mtdpartsPrefix.isPrefixOf (mtdpartsText devices) = true := by
    rw [htext, isPrefixOf_iff_prefix]
    exact prefix_append _ _
  have hdrop : (mtdpartsText devices).drop 9 = devicesText devices := by
    rw [htext]
    rfl
  rw [parseMtdparts, if_pos hprefix, hdrop, hloop, nil_append]

/-- One flash, `nor0`, of a size and with blocks of a size. -/
def oneFlash (size erasesize type num : Nat) : Option MtdInfo :=
  if type = 1 ∧ num = 0 then some ⟨size, erasesize, []⟩ else none

/-- The device `nor0` under the mtd-id `f`, with partitions. -/
def norDevice (size : Nat) (parts : List PartInfo) : MtdDevice :=
  ⟨1, ⟨1, 0, size, ofBytes [0x66]⟩, parts.length, parts⟩

/-- A partition `x`, `y` and so on with blocks of 4096 bytes. -/
def namedPart (name : UInt8) (size offset maskFlags : Nat) : PartInfo :=
  ⟨0, ofBytes [name], false, size, offset, maskFlags, 0x1000⟩

/-- `nor0=f` -/
def norIds : List UInt8 := [0x6e, 0x6f, 0x72, 0x30, 0x3d, 0x66]

/-- Two partitions with a gap between them, the second read-only, round-trip through `mtdparts=f:64k(x),8k@128k(y)ro`. -/
theorem mtdparts_round_trip_two : ∃ text parsed,
    generateMtdparts 512 [norDevice 0x100000 [namedPart 0x78 0x10000 0 0, namedPart 0x79 0x2000 0x20000 1]] = some text ∧
    parseMtdparts (oneFlash 0x100000 0x1000) some [⟨1, 0, 0x100000, ofBytes [0x66]⟩] text = some parsed ∧
    parsed.map MtdDevice.contents =
      [norDevice 0x100000 [namedPart 0x78 0x10000 0 0, namedPart 0x79 0x2000 0x20000 1]].map MtdDevice.contents := by
  have hreg : (norDevice 0x100000 [namedPart 0x78 0x10000 0 0, namedPart 0x79 0x2000 0x20000 1]).Regular
      (oneFlash 0x100000 0x1000) [⟨1, 0, 0x100000, ofBytes [0x66]⟩] := by
    refine ⟨?_, by decide, rfl, by decide, by decide, by decide, by decide, by decide⟩
    intro p hp
    have hcases : p = namedPart 0x78 0x10000 0 0 ∨ p = namedPart 0x79 0x2000 0x20000 1 := by
      simpa [norDevice] using hp
    rcases hcases with rfl | rfl
    · exact ⟨⟨namedPart 0x78 0x10000 0 0, by decide⟩, by decide, by decide, rfl, by decide, by decide⟩
    · exact ⟨⟨namedPart 0x79 0x2000 0x20000 1, by decide⟩, by decide, by decide, rfl, by decide, by decide⟩
  exact mtdparts_round_trip (oneFlash 0x100000 0x1000) some some (fun _ => rfl) norIds _ (by decide) _ (by simp)
    (by simpa using hreg) (by simp) 512 (by decide) (by decide)

/-- Not every table is parsed back: the text of the empty one is empty and is refused; so is the text of a device without
partitions, and that of two valid partitions of which the first has the size `0xFFFFFFFF`. -/
theorem mtdparts_round_trip_false : (generateMtdparts 512 [] = some [] ∧ parseMtdparts (oneFlash 0x100000 0x1000) some
      [⟨1, 0, 0x100000, ofBytes [0x66]⟩] [] = none) ∧
    (∃ text, generateMtdparts 512 [norDevice 0x100000 []] = some text ∧ parseMtdparts (oneFlash 0x100000 0x1000) some
      [⟨1, 0, 0x100000, ofBytes [0x66]⟩] text = none) ∧
    ∃ text, generateMtdparts 512 [norDevice 0xFFFFFFFF [namedPart 0x78 0xFFFFFFFF 0 0, namedPart 0x79 0x1000 0x1000 0]] = some text ∧
      (partValidate (oneFlash 0xFFFFFFFF 1) ⟨1, 0, 0xFFFFFFFF, ofBytes [0x66]⟩ (namedPart 0x78 0xFFFFFFFF 0 0)).isSome ∧
      (partValidate (oneFlash 0xFFFFFFFF 1) ⟨1, 0, 0xFFFFFFFF, ofBytes [0x66]⟩ (namedPart 0x79 0x1000 0x1000 0)).isSome ∧
      parseMtdparts (oneFlash 0xFFFFFFFF 1) some [⟨1, 0, 0xFFFFFFFF, ofBytes [0x66]⟩] text = none := by
  refine ⟨⟨rfl, rfl⟩, ⟨_, rfl, by decide⟩, _, rfl, by decide, by decide, by decide⟩

end UBoot
