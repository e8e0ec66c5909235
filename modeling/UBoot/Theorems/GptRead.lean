import UBoot.Partitions

/-!
# Which partition tables are read inside their buffers

The size of a header and the number and size of the entries are fields of the disk.
-/

namespace UBoot

open List Option

/-- The header at a block. -/
def GptDisk.header (d : GptDisk) (lba : Nat) : List UInt8 := d.bytes (lba * GPT_BLOCK_SIZE) GPT_BLOCK_SIZE

/-- The tests that a header passes before the entries are read. -/
structure GptHeaderValid (d : GptDisk) (lba : Nat) : Prop where
  read : d.reads lba 1 = true
  signature : gptSignature (d.header lba) = GPT_HEADER_SIGNATURE
  crc : (crc32 0 ((clearHeaderCrc (d.header lba)).take (gptHeaderSize (d.header lba)))).toNat = gptHeaderCrc32 (d.header lba)
  myLba : gptMyLba (d.header lba) = lba
  firstUsable : gptFirstUsableLba (d.header lba) ≤ d.lba
  lastUsable : gptLastUsableLba (d.header lba) ≤ d.lba

/-- The entries of a header have memory and are read. -/
structure GptEntriesRead (d : GptDisk) (alloc : Nat → Bool) (h : List UInt8) : Prop where
  count : gptCount h ≠ 0
  memory : alloc (gptCount h) = true
  read : d.reads (gptEntriesStart h) (gptCount h / GPT_BLOCK_SIZE) = true

/-- A table that passes all tests. -/
structure GptValid (d : GptDisk) (alloc : Nat → Bool) (lba : Nat) : Prop where
  header : GptHeaderValid d lba
  entries : GptEntriesRead d alloc (d.header lba)
  crc : (crc32 0 (d.bytes (gptEntriesStart (d.header lba) * GPT_BLOCK_SIZE) (gptCount (d.header lba)))).toNat =
    gptPartitionEntryArrayCrc32 (d.header lba)

/-- A header that has the signature is not larger than its block, and the entries are whole blocks when it comes to them. -/
structure GptTableFits (d : GptDisk) (alloc : Nat → Bool) (lba : Nat) : Prop where
  header : d.reads lba 1 = true → gptSignature (d.header lba) = GPT_HEADER_SIGNATURE → gptHeaderSize (d.header lba) ≤ GPT_BLOCK_SIZE
  entries : GptHeaderValid d lba → GptEntriesRead d alloc (d.header lba) → GPT_BLOCK_SIZE ∣ gptCount (d.header lba)

/-! ## Entries -/

/-- The address that the entry of a partition is read from, and the one where the header says it is. -/
def entryRead (h : List UInt8) (part : Nat) : Nat := gptEntriesStart h * GPT_BLOCK_SIZE + (part - 1) * GPT_ENTRY_SIZE

def entryStored (h : List UInt8) (part : Nat) : Nat :=
  gptPartitionEntryLba h * GPT_BLOCK_SIZE + (part - 1) * gptSizeofPartitionEntry h

/-- Whether the entry at an address is used, and its start and size. -/
def GptDisk.entryUsed (d : GptDisk) (a : Nat) : Prop := d.bytes a 16 ≠ List.replicate 16 0

def GptDisk.entryStart (d : GptDisk) (a : Nat) : Int := leNat (d.bytes (a + 32) 8)

def GptDisk.entrySize (d : GptDisk) (a : Nat) : Int := leNat (d.bytes (a + 40) 8) + 1 - leNat (d.bytes (a + 32) 8)

/-- The entry of a partition is inside what was read, and when it is used, it is whole, where the header says it is as far as its start
and size go, and inside what was summed up. -/
structure GptEntryFits (value : Int → Int) (d : GptDisk) (h : List UInt8) (part : Nat) : Prop where
  guid : (part - 1) * GPT_ENTRY_SIZE + 16 ≤ gptCount h
  whole : d.entryUsed (entryRead h part) → part * GPT_ENTRY_SIZE ≤ gptCount h
  lba : d.entryUsed (entryRead h part) → gptPartitionEntryLba h < 2 ^ 32
  covered : d.entryUsed (entryRead h part) → part * gptSizeofPartitionEntry h ≤ gptCount h
  start : d.entryUsed (entryRead h part) → d.entryStart (entryRead h part) % 2 ^ 32 = value (d.entryStart (entryStored h part))
  size : d.entryUsed (entryRead h part) → d.entrySize (entryRead h part) % 2 ^ 32 = value (d.entrySize (entryStored h part))

/-- `get_partition_info_efi` reads inside its buffers, and a partition it gives has the start and the size of the entry, as `value` says,
and its entry is inside what was summed up. -/
structure GptReadRight (value : Int → Int) (d : GptDisk) (alloc : Nat → Bool) (part : Nat) (info : DiskPartition) : Prop where
  inside : (getPartitionInfoEfi d alloc part info).isSome
  start : ∀ info', getPartitionInfoEfi d alloc part info = some (some info') →
    info'.start.toNat = value (d.entryStart (entryStored (d.header 1) part))
  size : ∀ info', getPartitionInfoEfi d alloc part info = some (some info') →
    info'.size.toNat = value (d.entrySize (entryStored (d.header 1) part))
  covered : ∀ info', getPartitionInfoEfi d alloc part info = some (some info') →
    gptEntriesStart (d.header 1) * GPT_BLOCK_SIZE ≤ entryStored (d.header 1) part ∧
      entryStored (d.header 1) part + gptSizeofPartitionEntry (d.header 1) ≤
        gptEntriesStart (d.header 1) * GPT_BLOCK_SIZE + gptCount (d.header 1)

namespace GptReadAux

variable {d : GptDisk} {alloc : Nat → Bool} {lba part : Nat} {info : DiskPartition} {value : Int → Int}
variable {h : List UInt8}

/-! ### Bytes -/

theorem length_bytes (a n : Nat) : (d.bytes a n).length = n := by
  rw [GptDisk.bytes, length_map, length_range]

theorem drop_bytes (a n k : Nat) : (d.bytes a n).drop k = d.bytes (a + k) (n - k) := by
  refine ext_getElem? fun i => ?_
  rw [getElem?_drop, GptDisk.bytes, GptDisk.bytes, getElem?_map, getElem?_map]
  by_cases h : k + i < n
  · rw [getElem?_range h, getElem?_range (by omega), map_some, map_some, Nat.add_assoc]
  · rw [getElem?_eq_none (by rw [length_range]; omega), getElem?_eq_none (by rw [length_range]; omega)]
    rfl

theorem take_bytes {a n k : Nat} (h : k ≤ n) : (d.bytes a n).take k = d.bytes a k := by
  rw [GptDisk.bytes, GptDisk.bytes, ← map_take, take_range, Nat.min_eq_left h]

theorem leAt_bytes {a n i k : Nat} (h : i + k ≤ n) : leAt (d.bytes a n) i k = leNat (d.bytes (a + i) k) := by
  rw [leAt, drop_bytes, take_bytes (by omega)]

theorem takeBytes_bytes {a n k : Nat} : takeBytes k (d.bytes a n) = if k ≤ n then some (d.bytes a k) else none := by
  rw [takeBytes, length_bytes]
  split
  next h => rw [take_bytes h]
  · rfl

/-! ### The table -/

theorem length_clearHeaderCrc : (clearHeaderCrc (d.header lba)).length = GPT_BLOCK_SIZE := by
  have hlen : (d.header lba).length = 512 := length_bytes _ _
  rw [clearHeaderCrc, length_append, length_append, length_take, length_replicate, length_drop, hlen]
  rfl

theorem allocReadGptEntries_eq (d : GptDisk) (alloc : Nat → Bool) (h : List UInt8) : GptEntriesRead d alloc h ∧ allocReadGptEntries d alloc h =
        some (d.bytes (gptEntriesStart h * GPT_BLOCK_SIZE) (gptCount h / GPT_BLOCK_SIZE * GPT_BLOCK_SIZE)) ∨
      ¬GptEntriesRead d alloc h ∧ allocReadGptEntries d alloc h = none := by
  unfold allocReadGptEntries GptDisk.blockRead
  split
  next hmem =>
    split
    next hread => exact Or.inl ⟨⟨hmem.1, hmem.2, hread⟩, rfl⟩
    next hread => exact Or.inr ⟨fun h => hread h.read, rfl⟩
  next hmem => exact Or.inr ⟨fun h => hmem ⟨h.count, h.memory⟩, rfl⟩

theorem le_blocks_iff (n : Nat) : n ≤ n / GPT_BLOCK_SIZE * GPT_BLOCK_SIZE ↔ GPT_BLOCK_SIZE ∣ n := by
  show n ≤ n / 512 * 512 ↔ 512 ∣ n
  omega

theorem isGptValid_cases (d : GptDisk) (alloc : Nat → Bool) (lba : Nat) : isGptValid d alloc lba = none ∧ ¬GptTableFits d alloc lba ∨
      GptTableFits d alloc lba ∧ (isGptValid d alloc lba = some none ∧ ¬GptValid d alloc lba ∨ isGptValid d alloc lba = some (some (d.header lba,
            d.bytes (gptEntriesStart (d.header lba) * GPT_BLOCK_SIZE) (gptCount (d.header lba)))) ∧ GptValid d alloc lba) := by
  unfold isGptValid GptDisk.blockRead
  by_cases hread : d.reads lba 1 = true
  · rw [if_pos hread]
    have hh : d.bytes (lba * GPT_BLOCK_SIZE) (1 * GPT_BLOCK_SIZE) = d.header lba := by rw [GptDisk.header, Nat.one_mul]
    rw [hh]
    dsimp only
    by_cases hsig : gptSignature (d.header lba) = GPT_HEADER_SIGNATURE
    · rw [if_neg (not_not.2 hsig), takeBytes, length_clearHeaderCrc]
      by_cases hsize : gptHeaderSize (d.header lba) ≤ GPT_BLOCK_SIZE
      · rw [if_pos hsize, bind_some]
        by_cases hvalid : GptHeaderValid d lba
        · rw [if_neg (not_not.2 hvalid.crc), if_neg (not_not.2 hvalid.myLba), if_neg (Nat.not_lt.2 hvalid.firstUsable),
            if_neg (Nat.not_lt.2 hvalid.lastUsable)]
          obtain ⟨hentries, halloc⟩ | ⟨hentries, halloc⟩ := allocReadGptEntries_eq d alloc (d.header lba)
          · rw [halloc]
            dsimp only
            rw [takeBytes_bytes]
            by_cases hwhole : GPT_BLOCK_SIZE ∣ gptCount (d.header lba)
            · have hfits : GptTableFits d alloc lba := ⟨fun _ _ => hsize, fun _ _ => hwhole⟩
              rw [if_pos ((le_blocks_iff _).2 hwhole), bind_some, Nat.div_mul_cancel hwhole]
              split
              next hcrc => exact Or.inr ⟨hfits, Or.inl ⟨rfl, fun h => hcrc h.crc⟩⟩
              next hcrc => exact Or.inr ⟨hfits, Or.inr ⟨rfl, hvalid, hentries, not_not.1 hcrc⟩⟩
            · rw [if_neg fun hno => hwhole ((le_blocks_iff _).1 hno)]
              exact Or.inl ⟨rfl, fun h => hwhole (h.entries hvalid hentries)⟩
          · rw [halloc]
            exact Or.inr ⟨⟨fun _ _ => hsize, fun _ h => absurd h hentries⟩, Or.inl ⟨rfl, fun h => hentries h.entries⟩⟩
        · refine Or.inr ⟨⟨fun _ _ => hsize, fun h => absurd h hvalid⟩, Or.inl ⟨?_, fun h => hvalid h.header⟩⟩
          split
          · rfl
          next hcrc =>
            split
            · rfl
            next hmy =>
              split
              · rfl
              next hfirst =>
                split
                · rfl
                next hlast =>
                  exact absurd ⟨hread, hsig, not_not.1 hcrc, not_not.1 hmy, Nat.not_lt.1 hfirst, Nat.not_lt.1 hlast⟩ hvalid
      · rw [if_neg hsize]
        exact Or.inl ⟨rfl, fun h => hsize (h.header hread hsig)⟩
    · rw [if_pos hsig]
      exact Or.inr ⟨⟨fun _ h => absurd h hsig, fun h => absurd h.signature hsig⟩, Or.inl ⟨rfl, fun h => hsig h.header.signature⟩⟩
  · rw [if_neg hread]
    exact Or.inr ⟨⟨fun h => absurd h hread, fun h => absurd h.read hread⟩, Or.inl ⟨rfl, fun h => hread h.header.read⟩⟩

theorem isGptValid_isSome_iff : (isGptValid d alloc lba).isSome ↔ GptTableFits d alloc lba := by
  obtain ⟨hrun, hfits⟩ | ⟨hfits, ⟨hrun, -⟩ | ⟨hrun, -⟩⟩ := isGptValid_cases d alloc lba
  · rw [hrun]
    exact iff_of_false Bool.false_ne_true hfits
  · rw [hrun]
    exact iff_of_true rfl hfits
  · rw [hrun]
    exact iff_of_true rfl hfits

/-! ### The entry -/

theorem covered_iff (hpart : 1 ≤ part) : gptEntriesStart h * GPT_BLOCK_SIZE ≤ entryStored h part ∧
        entryStored h part + gptSizeofPartitionEntry h ≤ gptEntriesStart h * GPT_BLOCK_SIZE + gptCount h ↔
      gptPartitionEntryLba h < 2 ^ 32 ∧ part * gptSizeofPartitionEntry h ≤ gptCount h := by
  obtain ⟨part, rfl⟩ : ∃ k, part = k + 1 := ⟨part - 1, by omega⟩
  have hcount : gptCount h < 2 ^ 32 := Nat.mod_lt _ (by decide)
  have hmul : (part + 1) * gptSizeofPartitionEntry h = part * gptSizeofPartitionEntry h + gptSizeofPartitionEntry h := Nat.succ_mul _ _
  unfold entryStored gptEntriesStart
  rw [hmul, Nat.add_sub_cancel]
  generalize part * gptSizeofPartitionEntry h = before
  generalize gptSizeofPartitionEntry h = size
  generalize gptPartitionEntryLba h = start
  show start % 2 ^ 32 * 512 ≤ start * 512 + before ∧ start * 512 + before + size ≤ start % 2 ^ 32 * 512 + gptCount h ↔ _
  omega

theorem efiPartitionInfo_bytes (info : DiskPartition) (a : Nat) :
    ((efiPartitionInfo info (d.bytes a GPT_ENTRY_SIZE)).start.toNat : Int) = d.entryStart a % 2 ^ 32 ∧
      ((efiPartitionInfo info (d.bytes a GPT_ENTRY_SIZE)).size.toNat : Int) = d.entrySize a % 2 ^ 32 := by
  have hstart : leAt (d.bytes a GPT_ENTRY_SIZE) 32 8 = leNat (d.bytes (a + 32) 8) := leAt_bytes (by decide)
  have hend : leAt (d.bytes a GPT_ENTRY_SIZE) 40 8 = leNat (d.bytes (a + 40) 8) := leAt_bytes (by decide)
  unfold efiPartitionInfo GptDisk.entryStart GptDisk.entrySize
  dsimp only
  rw [hstart, hend]
  constructor
  · rw [UInt32.toNat_ofNat']
    omega
  · rw [UInt32.toNat_sub, UInt32.toNat_add, UInt32.toNat_ofNat', UInt32.toNat_ofNat']
    have hone : (1 : UInt32).toNat = 1 := rfl
    rw [hone]
    omega

theorem getPartitionInfoEfi_valid (info : DiskPartition) (hpart : 1 ≤ part)
    (hrun : isGptValid d alloc GPT_PRIMARY_PARTITION_TABLE_LBA = some (some (h, d.bytes (gptEntriesStart h * GPT_BLOCK_SIZE) (gptCount h)))) :
    getPartitionInfoEfi d alloc part info =
      if gptNumPartitionEntries h < part then some none
      else if (part - 1) * GPT_ENTRY_SIZE + 16 ≤ gptCount h then
        if d.bytes (entryRead h part) 16 ≠ List.replicate 16 0 then
          if part * GPT_ENTRY_SIZE ≤ gptCount h then some (some (efiPartitionInfo info (d.bytes (entryRead h part) GPT_ENTRY_SIZE)))
          else none
        else some none
      else none := by
  rw [getPartitionInfoEfi, if_neg (Nat.not_lt.2 hpart), hrun, bind_some]
  dsimp only
  split
  · rfl
  · obtain ⟨part, rfl⟩ : ∃ k, part = k + 1 := ⟨part - 1, by omega⟩
    have hmul : (part + 1) * GPT_ENTRY_SIZE = part * GPT_ENTRY_SIZE + GPT_ENTRY_SIZE := Nat.succ_mul _ _
    have hsize : GPT_ENTRY_SIZE = 128 := rfl
    rw [isPteValid, drop_bytes, takeBytes_bytes, takeBytes_bytes, ← entryRead]
    rw [Nat.add_sub_cancel, hmul]
    generalize hbefore : part * GPT_ENTRY_SIZE = before
    by_cases hguid : before + 16 ≤ gptCount h
    · rw [if_pos hguid, if_pos (by omega), map_some, bind_some]
      by_cases hused : d.bytes (entryRead h (part + 1)) 16 ≠ List.replicate 16 0
      · rw [if_pos hused, if_pos (decide_eq_true hused)]
        by_cases hwhole : before + GPT_ENTRY_SIZE ≤ gptCount h
        · rw [if_pos hwhole, if_pos (by omega)]
          rfl
        · rw [if_neg hwhole, if_neg (by omega)]
          rfl
      · rw [if_neg hused, if_neg fun hno => hused (of_decide_eq_true hno)]
    · rw [if_neg hguid, if_neg (by omega)]
      rfl

theorem readRight_of_none (h : getPartitionInfoEfi d alloc part info = some none) : GptReadRight value d alloc part info := by
  have hno (info' : DiskPartition) : getPartitionInfoEfi d alloc part info ≠ some (some info') := by
    rw [h]
    exact fun hno => nomatch hno
  exact ⟨by rw [h]; rfl, fun _ h => absurd h (hno _), fun _ h => absurd h (hno _), fun _ h => absurd h (hno _)⟩

theorem readRight_valid_iff (hpart : 1 ≤ part) (hrun : isGptValid d alloc GPT_PRIMARY_PARTITION_TABLE_LBA =
      some (some (d.header 1, d.bytes (gptEntriesStart (d.header 1) * GPT_BLOCK_SIZE) (gptCount (d.header 1))))) :
    GptReadRight value d alloc part info ↔ (part ≤ gptNumPartitionEntries (d.header 1) → GptEntryFits value d (d.header 1) part) := by
  have heq := getPartitionInfoEfi_valid info hpart hrun
  obtain ⟨hstart, hsize⟩ := efiPartitionInfo_bytes (d := d) info (entryRead (d.header 1) part)
  constructor
  · intro h hnum
    have hinside := h.inside
    rw [heq, if_neg (Nat.not_lt.2 hnum)] at hinside
    rw [if_neg (Nat.not_lt.2 hnum)] at heq
    have hguid : (part - 1) * GPT_ENTRY_SIZE + 16 ≤ gptCount (d.header 1) := by
      by_contra hno
      rw [if_neg hno] at hinside
      exact Bool.false_ne_true hinside
    rw [if_pos hguid] at hinside heq
    have hwhole (hused : d.entryUsed (entryRead (d.header 1) part)) : part * GPT_ENTRY_SIZE ≤ gptCount (d.header 1) := by
      rw [if_pos (show d.bytes _ 16 ≠ _ from hused)] at hinside
      by_contra hno
      rw [if_neg hno] at hinside
      exact Bool.false_ne_true hinside
    have hfound (hused : d.entryUsed (entryRead (d.header 1) part)) : getPartitionInfoEfi d alloc part info =
        some (some (efiPartitionInfo info (d.bytes (entryRead (d.header 1) part) GPT_ENTRY_SIZE))) := by
      rw [heq, if_pos (show d.bytes _ 16 ≠ _ from hused), if_pos (hwhole hused)]
    exact ⟨hguid, hwhole, fun hu => ((covered_iff hpart).1 (h.covered _ (hfound hu))).1,
      fun hu => ((covered_iff hpart).1 (h.covered _ (hfound hu))).2, fun hu => hstart.symm.trans (h.start _ (hfound hu)),
      fun hu => hsize.symm.trans (h.size _ (hfound hu))⟩
  · intro h
    by_cases hnum : gptNumPartitionEntries (d.header 1) < part
    · rw [if_pos hnum] at heq
      exact readRight_of_none heq
    · have hfits := h (Nat.not_lt.1 hnum)
      rw [if_neg hnum, if_pos hfits.guid] at heq
      by_cases hused : d.entryUsed (entryRead (d.header 1) part)
      · rw [if_pos (show d.bytes _ 16 ≠ _ from hused), if_pos (hfits.whole hused)] at heq
        have hinfo {info' : DiskPartition} (hrun : getPartitionInfoEfi d alloc part info = some (some info')) :
            info' = efiPartitionInfo info (d.bytes (entryRead (d.header 1) part) GPT_ENTRY_SIZE) :=
          some.inj (some.inj (hrun.symm.trans heq))
        exact ⟨by rw [heq]; rfl, fun _ hrun => hinfo hrun ▸ hstart.trans (hfits.start hused),
          fun _ hrun => hinfo hrun ▸ hsize.trans (hfits.size hused),
          fun _ _ => (covered_iff hpart).2 ⟨hfits.lba hused, hfits.covered hused⟩⟩
      · rw [if_neg (show ¬d.bytes _ 16 ≠ _ from hused)] at heq
        exact readRight_of_none heq

theorem readRight_iff : GptReadRight value d alloc part info ↔ (1 ≤ part → GptTableFits d alloc 1 ∧
    (GptValid d alloc 1 → part ≤ gptNumPartitionEntries (d.header 1) → GptEntryFits value d (d.header 1) part)) := by
  by_cases hpart : 1 ≤ part
  · rw [forall_prop_of_true hpart]
    obtain ⟨hrun, hfits⟩ | ⟨hfits, ⟨hrun, hvalid⟩ | ⟨hrun, hvalid⟩⟩ := isGptValid_cases d alloc GPT_PRIMARY_PARTITION_TABLE_LBA
    · refine iff_of_false (fun h => ?_) fun h => hfits h.1
      have hinside := h.inside
      rw [getPartitionInfoEfi, if_neg (Nat.not_lt.2 hpart), hrun] at hinside
      exact Bool.false_ne_true hinside
    · refine iff_of_true (readRight_of_none ?_) ⟨hfits, fun h => absurd h hvalid⟩
      rw [getPartitionInfoEfi, if_neg (Nat.not_lt.2 hpart), hrun]
      rfl
    · rw [readRight_valid_iff hpart hrun]
      exact ⟨fun h => ⟨hfits, fun _ => h⟩, fun h => h.2 hvalid⟩
  · refine iff_of_true (readRight_of_none ?_) fun h => absurd h hpart
    rw [getPartitionInfoEfi, if_pos (Nat.not_le.1 hpart)]

/-! ### Disks -/

/-- The start of a header with the signature and a size of 1024. -/
def largeHeader : List UInt8 := [0x45, 0x46, 0x49, 0x20, 0x50, 0x41, 0x52, 0x54, 0, 0, 1, 0, 0, 4, 0, 0]

/-- A disk with that header in block 1. -/
def largeHeaderDisk : GptDisk := ⟨100, fun a => if 512 ≤ a then largeHeader.getD (a - 512) 0 else 0, fun _ _ => true⟩

end GptReadAux

open GptReadAux

/-- For every disk, `is_gpt_valid` reads inside its buffers exactly if the table fits, and `get_partition_info_efi` is right exactly if the
table fits and, when the table is valid and has the partition, its entry does. -/
theorem gpt_read_right_iff (d : GptDisk) (alloc : Nat → Bool) : (∀ lba, (isGptValid d alloc lba).isSome ↔ GptTableFits d alloc lba) ∧
    ∀ (value : Int → Int) (part : Nat) (info : DiskPartition), GptReadRight value d alloc part info ↔ (1 ≤ part → GptTableFits d alloc 1 ∧
        (GptValid d alloc 1 → part ≤ gptNumPartitionEntries (d.header 1) → GptEntryFits value d (d.header 1) part)) :=
  ⟨fun _ => isGptValid_isSome_iff, fun _ _ _ => readRight_iff⟩

/-- A header size of 1024 is summed up behind the block of the header. -/
theorem gpt_read_wrong : ¬∀ (d : GptDisk) (alloc : Nat → Bool) (part : Nat) (info : DiskPartition),
    1 ≤ part → GptReadRight (· % 2 ^ 32) d alloc part info := by
  intro h
  have hfits := (readRight_iff.1 (h largeHeaderDisk (fun _ => true) 1 ⟨0, 0, 0, [], [], false⟩ (Nat.le_refl 1)) (Nat.le_refl 1)).1
  have hsignature : gptSignature (largeHeaderDisk.header 1) = GPT_HEADER_SIGNATURE := by decide +kernel
  have hsize : ¬gptHeaderSize (largeHeaderDisk.header 1) ≤ GPT_BLOCK_SIZE := by decide +kernel
  exact hsize (hfits.header rfl hsignature)

end UBoot
