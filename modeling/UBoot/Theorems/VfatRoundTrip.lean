import UBoot.Lemmas.VfatSlots

/-!
# Long names come back from their slots

The slots that `fill_dir_slot` lays out hold a name of up to `VFAT_MAXSEQ` slots backwards, and `get_vfatname` reads them forwards: it
returns the name in lower case and copies the entry behind the slots over the first of them.
-/

namespace UBoot

/-- Where the character at a position of a name is, in slots that begin at an entry. -/
def charAddr (name : List UInt8) (dent p : Nat) : Nat :=
  DIRENT_SIZE * (dent + (slotCount name - 1 - p / SLOT_CHARS)) + charOffset (p % SLOT_CHARS)

/-- The slots of a name lie at an entry of a directory, which was `block` before, and nothing else has changed. -/
structure LaidOut (block block' : Nat → UInt8) (dent : Nat) (name : List UInt8) : Prop where
  frame : ∀ a, a < DIRENT_SIZE * dent ∨ DIRENT_SIZE * (dent + slotCount name) ≤ a → block' a = block a
  ids : ∀ i < slotCount name, block' (DIRENT_SIZE * (dent + i)) = UInt8.ofNat (slotCount name - i) ||| if i = 0 then LAST_LONG_ENTRY_MASK else 0
  attrs : ∀ i < slotCount name, block' (DIRENT_SIZE * (dent + i) + ATTR) = ATTR_VFAT
  /-- The checksum of the short name, as the string that it is at the entry. -/
  checksums : ∀ i < slotCount name, block' (DIRENT_SIZE * (dent + i) + ALIAS_CHECKSUM) = mkcksum (strncpy16 (entryBytes block dent))
  /-- A short name has eleven characters that are no NUL. -/
  shortname : (0 : UInt8) ∉ (entryBytes block dent).take 11 → mkcksum (strncpy16 (entryBytes block dent)) = mkcksum (entryBytes block dent)
  chars : ∀ p (h : p < name.length), block' (charAddr name dent p) = name[p] ∧ block' (charAddr name dent p + 1) = 0
  nul : name.length < SLOT_CHARS * slotCount name → block' (charAddr name dent name.length) = 0 ∧ block' (charAddr name dent name.length + 1) = 0
  padding : ∀ p, name.length < p → p < SLOT_CHARS * slotCount name →
    block' (charAddr name dent p) = 0xff ∧ block' (charAddr name dent p + 1) = 0xff

namespace VfatRoundTrip

open VfatAux

variable {name : List UInt8}

theorem mkcksum_strncpy16 {e : List UInt8} (hlen : e.length = DIRENT_SIZE) (h : (0 : UInt8) ∉ e.take 11) :
    mkcksum (strncpy16 e) = mkcksum e := by
  have hpos : ∀ c ∈ e.take 11, (c != 0) = true := by
    intro c hc
    simpa using fun h0 : c = 0 => h (h0 ▸ hc)
  have hsplit : e.take 16 = e.take 11 ++ (e.drop 11).take 5 := by rw [← List.take_add]
  have hlen11 : (e.take 11).length = 11 := by
    rw [List.length_take, hlen]
    rfl
  have htake : (strncpy16 e).take 11 = e.take 11 := by
    unfold strncpy16
    simp only
    rw [hsplit, List.takeWhile_append_of_pos hpos, List.append_assoc, List.take_left' hlen11]
  unfold mkcksum
  rw [htake]

theorem laidOut_of_slots {block block' : Nat → UInt8} {dent : Nat}
    (hslots : ∀ j < slotCount name, HoldsSlot block' (dent + (slotCount name - 1 - j)) (name.drop (SLOT_CHARS * j))
      (UInt8.ofNat (j + 1) ||| if j + 1 = slotCount name then LAST_LONG_ENTRY_MASK else 0) (mkcksum (strncpy16 (entryBytes block dent))))
    (hout : ∀ b, b < DIRENT_SIZE * dent ∨ DIRENT_SIZE * (dent + slotCount name) ≤ b → block' b = block b) :
    LaidOut block block' dent name := by
  have hat : ∀ i < slotCount name, HoldsSlot block' (dent + i) (name.drop (SLOT_CHARS * (slotCount name - 1 - i)))
      (UInt8.ofNat (slotCount name - i) ||| if i = 0 then LAST_LONG_ENTRY_MASK else 0) (mkcksum (strncpy16 (entryBytes block dent))) := by
    intro i hi
    have h := hslots (slotCount name - 1 - i) (by omega)
    rw [show slotCount name - 1 - (slotCount name - 1 - i) = i by omega, show slotCount name - 1 - i + 1 = slotCount name - i by omega] at h
    have hlast : (slotCount name - i = slotCount name) ↔ i = 0 := by omega
    simpa only [hlast] using h
  have hchar : ∀ p < SLOT_CHARS * slotCount name,
      block' (charAddr name dent p) = charLow (name.drop (SLOT_CHARS * (p / SLOT_CHARS))) (p % SLOT_CHARS) ∧
      block' (charAddr name dent p + 1) = charHigh (name.drop (SLOT_CHARS * (p / SLOT_CHARS))) (p % SLOT_CHARS) := by
    intro p hp
    have hj : p / SLOT_CHARS < slotCount name := Nat.div_lt_of_lt_mul hp
    exact (hslots _ hj).chars (p % SLOT_CHARS) (Nat.mod_lt _ (by decide))
  have hdiv (p : Nat) : SLOT_CHARS * (p / SLOT_CHARS) + p % SLOT_CHARS = p := Nat.div_add_mod p SLOT_CHARS
  refine ⟨hout, fun i hi => (hat i hi).id, fun i hi => (hat i hi).attr, fun i hi => (hat i hi).checksum, ?_, ?_, ?_, ?_⟩
  · exact mkcksum_strncpy16 (by simp [entryBytes])
  · intro p hp
    obtain ⟨hlow, hhigh⟩ := hchar p (Nat.lt_of_lt_of_le hp (length_le_slots name))
    have hle : p % SLOT_CHARS ≤ (name.drop (SLOT_CHARS * (p / SLOT_CHARS))).length := by
      rw [List.length_drop]
      have := hdiv p
      omega
    rw [hlow, hhigh, charLow, if_pos hle, charHigh, if_pos hle]
    simp [hdiv, hp]
  · intro hlen
    obtain ⟨hlow, hhigh⟩ := hchar name.length hlen
    have hle : name.length % SLOT_CHARS ≤ (name.drop (SLOT_CHARS * (name.length / SLOT_CHARS))).length := by
      rw [List.length_drop]
      have := hdiv name.length
      omega
    rw [hlow, hhigh, charLow, if_pos hle, charHigh, if_pos hle]
    simp [hdiv]
  · intro p hp hlt
    obtain ⟨hlow, hhigh⟩ := hchar p hlt
    have hle : ¬ p % SLOT_CHARS ≤ (name.drop (SLOT_CHARS * (p / SLOT_CHARS))).length := by
      rw [List.length_drop]
      unfold slotCount SLOT_CHARS at *
      omega
    rw [hlow, hhigh, charLow, if_neg hle, charHigh, if_neg hle]
    exact ⟨rfl, rfl⟩

theorem readName_printable (h : ∀ c ∈ name, 0x20 ≤ c ∧ c ≤ 0x7e) : readName name = name.map tolower := by
  cases name with
  | nil => rfl
  | cons c name =>
    obtain ⟨h1, h2⟩ := h c List.mem_cons_self
    have hdel : c ≠ DELETED_FLAG := by
      rintro rfl
      exact absurd h2 (by decide)
    have hring : c ≠ aRING := by
      rintro rfl
      exact absurd h1 (by decide)
    rw [readName, if_neg hdel, if_neg hring]

end VfatRoundTrip

open VfatAux VfatRoundTrip in
/-- A name of printable characters is laid out in front of its short entry, and read back. In the root directory of a FAT12 or FAT16, whose
`curclust` is 0, the reader has only `PREFETCH_BLOCKS` sectors. -/
theorem vfat_round_trip (disk : Nat → UInt8) (fs : FsData) (curclust dent : Nat) (st : DirBufs) (name realdent : List UInt8)
    (hlen : 1 ≤ name.length) (hmax : name.length ≤ SLOT_CHARS * VFAT_MAXSEQ) (hprint : ∀ c ∈ name, 0x20 ≤ c ∧ c ≤ 0x7e)
    (hreal : realdent.length = DIRENT_SIZE) (hfit : DIRENT_SIZE * (dent + slotCount name + 1) ≤ fs.bytesPerClust)
    (hroot : curclust = 0 → DIRENT_SIZE * (dent + slotCount name + 1) ≤ fs.sectSize * PREFETCH_BLOCKS) :
    ∃ st', fillDirSlot fs dent st name = some (st', dent + slotCount name) ∧ LaidOut st.block st'.block dent name ∧
      let block := Lib.store st'.block (DIRENT_SIZE * (dent + slotCount name)) realdent
      getVfatname disk fs curclust dent { st' with block := block } =
        some (some (name.map tolower), { st' with block := Lib.store block (DIRENT_SIZE * dent) realdent }) := by
  have hname : name ≠ [] := List.length_pos_iff.1 hlen
  have hpos := slotCount_pos hname
  have hcount : slotCount name ≤ VFAT_MAXSEQ := by
    unfold slotCount SLOT_CHARS VFAT_MAXSEQ at *
    omega
  have h0 : (0 : UInt8) ∉ name := fun h => absurd (hprint 0 h).1 (by decide)
  obtain ⟨st', hfill, -, hslots, hout⟩ := fillDirSlot_eq dent st hname hcount hfit
  refine ⟨st', hfill, laidOut_of_slots hslots hout, ?_⟩
  intro block
  have hblock : ∀ i < slotCount name, ∀ o < DIRENT_SIZE, block (DIRENT_SIZE * (dent + i) + o) = st'.block (DIRENT_SIZE * (dent + i) + o) :=
    fun i hi o ho => Lib.store_of_outside (Or.inl (by unfold DIRENT_SIZE at *; omega))
  have hslots' : ∀ j < slotCount name, HoldsSlot block (dent + (slotCount name - 1 - j)) (name.drop (SLOT_CHARS * j))
      (UInt8.ofNat (j + 1) ||| if j + 1 = slotCount name then LAST_LONG_ENTRY_MASK else 0)
      (mkcksum (strncpy16 (entryBytes st.block dent))) :=
    fun j hj => holdsSlot_congr (hslots j hj) (hblock _ (by omega))
  have hnumber : ∀ i < slotCount name, slotNumber block (dent + i) = slotCount name - i := by
    intro i hi
    have h := (hslots' (slotCount name - 1 - i) (by omega)).id
    rw [show slotCount name - 1 - (slotCount name - 1 - i) = i by omega, show slotCount name - 1 - i + 1 = slotCount name - i by omega] at h
    have hid := (slotId_and (slotCount name - i) (by omega) (decide (slotCount name - i = slotCount name))).2
    simp only [decide_eq_true_iff] at hid
    rw [slotNumber, h, hid]
  have hlimit : DIRENT_SIZE * (dent + slotCount name + 1) ≤ fs.sectSize * if curclust = 0 then PREFETCH_BLOCKS else fs.clustSize := by
    split
    next hcur => exact hroot hcur
    next => exact Nat.mul_comm fs.sectSize fs.clustSize ▸ hfit
  have hreald : entryBytes block (dent + slotCount name) = realdent := by
    apply List.ext_getElem (by simp [entryBytes, hreal])
    intro o ho ho'
    simp only [entryBytes, List.getElem_map, List.getElem_range]
    exact Lib.stored_store _ _ _ o _ (List.getElem?_eq_getElem ho')
  have hback := nameBack_eq h0 hcount hslots' (slotCount name - 1) (by omega)
  rw [Nat.sub_add_cancel hpos, Nat.sub_self, Nat.mul_zero, List.take_zero] at hback
  have hcounted := countSlots_eq
    (fun slot => DIRENT_SIZE * slot < fs.sectSize * if curclust = 0 then PREFETCH_BLOCKS else fs.clustSize) (slotCount name) dent fun i hi =>
    ⟨decide_eq_true (by unfold DIRENT_SIZE at *; omega), hnumber i hi⟩
  have hnumber0 := hnumber 0 hpos
  rw [Nat.add_zero, Nat.sub_zero] at hnumber0
  unfold getVfatname
  simp only [hnumber0]
  rw [if_neg (Nat.not_lt.2 hcount), hcounted]
  simp only
  rw [if_neg (by unfold DIRENT_SIZE at *; omega), endVfatname]
  simp only [hback, hreald]
  rw [if_neg (by unfold SLOT_CHARS VFAT_MAXSEQ VFAT_MAXLEN_BYTES at *; omega), readName_printable hprint]

/-- `Kernel-2019.IMG` takes two slots in a directory of an empty volume. -/
theorem vfat_round_trip_two : ∃ st', fillDirSlot ⟨.fat16, 8, 1, 17, 512, 4, 13⟩ 3 ⟨fun _ => 0x20, fun _ => 0, ⟨0, fun _ => 0⟩⟩
          [0x4b, 0x65, 0x72, 0x6e, 0x65, 0x6c, 0x2d, 0x32, 0x30, 0x31, 0x39, 0x2e, 0x49, 0x4d, 0x47] = some (st', 5) ∧
      getVfatname (fun _ => 0) ⟨.fat16, 8, 1, 17, 512, 4, 13⟩ 2 3 { st' with block := Lib.store st'.block 160 (List.replicate 32 0x41) } =
        some (some [0x6b, 0x65, 0x72, 0x6e, 0x65, 0x6c, 0x2d, 0x32, 0x30, 0x31, 0x39, 0x2e, 0x69, 0x6d, 0x67],
          { st' with block := Lib.store (Lib.store st'.block 160 (List.replicate 32 0x41)) 96 (List.replicate 32 0x41) }) := by
  obtain ⟨st', hfill, -, hget⟩ := vfat_round_trip (fun _ => 0) ⟨.fat16, 8, 1, 17, 512, 4, 13⟩ 2 3 ⟨fun _ => 0x20, fun _ => 0, ⟨0, fun _ => 0⟩⟩
    [0x4b, 0x65, 0x72, 0x6e, 0x65, 0x6c, 0x2d, 0x32, 0x30, 0x31, 0x39, 0x2e, 0x49, 0x4d, 0x47] (List.replicate 32 0x41)
    (by decide) (by decide) (by decide) (by decide) (by decide) (by decide)
  exact ⟨st', hfill, hget⟩

end UBoot
