import UBoot.Mtdparts
import UBoot.Crc32

/-!
# DOS partitions

disk/part_dos.c: the walk that prints the partitions, and the one that looks one up. A block is a function from offsets to bytes, of
which the 512 that a record has are looked at. `int`, `ulong` and `lbaint_t` have 32 bits. A walk goes on until its chain of records
ends, and has the result `none` if that takes more rounds than it is given. `CONFIG_PARTITION_UUIDS` and the messages of the look-up are
left out.
-/

namespace UBoot

def DOS_PART_TBL_OFFSET : Nat := 0x1be
def DOS_PART_MAGIC_OFFSET : Nat := 0x1fe
def DOS_PBR_FSTYPE_OFFSET : Nat := 0x36
def DOS_PBR32_FSTYPE_OFFSET : Nat := 0x52

/-- `block_dev_desc_t`, with its blocks as `block_read` gives them. -/
structure BlockDev where
  ifType : Nat
  dev : Nat
  blockRead : UInt32 → Option (Nat → UInt8)

/-- `dos_partition_t`, with its numbers read by `le32_to_int`. -/
structure DosPartition where
  bootInd : UInt8
  sysInd : UInt8
  start4 : UInt32
  size4 : UInt32

/-- `disk_partition_t` -/
structure DiskPartition where
  start : UInt32
  size : UInt32
  blksz : Nat
  name : List UInt8
  type : List UInt8
  bootable : Bool
  deriving DecidableEq

/-- A line of `print_one_part`. -/
structure PartLine where
  partNum : Nat
  lbaStart : Int
  lbaSize : Int
  sysInd : UInt8
  extd : Bool
  boot : Bool
  deriving DecidableEq

/-- What `print_partition_extended` prints. -/
inductive PartPrint where
  | part (line : PartLine)
  | cantRead (dev : Nat) (sector : Int)
  | badSignature (first second : UInt8)
  deriving DecidableEq

def le32ToInt (buffer : Nat → UInt8) (at_ : Nat) : UInt32 :=
  UInt32.ofNat (leNat [buffer at_, buffer (at_ + 1), buffer (at_ + 2), buffer (at_ + 3)])

/-- The partition at an offset of a record. -/
def dosPartitionAt (buffer : Nat → UInt8) (at_ : Nat) : DosPartition :=
  ⟨buffer at_, buffer (at_ + 4), le32ToInt buffer (at_ + 8), le32ToInt buffer (at_ + 12)⟩

/-- The partitions of a record. -/
def dosPartitions (buffer : Nat → UInt8) : List DosPartition :=
  (List.range 4).map fun i => dosPartitionAt buffer (DOS_PART_TBL_OFFSET + 16 * i)

def DosPartition.isExtended (p : DosPartition) : Bool := p.sysInd = 0x5 ∨ p.sysInd = 0xf ∨ p.sysInd = 0x85

def DosPartition.isBootable (p : DosPartition) : Bool := p.bootInd = 0x80

/-- The signature of a record. -/
def hasDosSignature (buffer : Nat → UInt8) : Bool :=
  buffer DOS_PART_MAGIC_OFFSET = 0x55 ∧ buffer (DOS_PART_MAGIC_OFFSET + 1) = 0xaa

/-- The marks of a FAT file system. -/
def hasFatMarker (buffer : Nat → UInt8) : Bool :=
  (List.range 3).map (fun i => buffer (DOS_PBR_FSTYPE_OFFSET + i)) = [0x46, 0x41, 0x54] ∨
    (List.range 5).map (fun i => buffer (DOS_PBR32_FSTYPE_OFFSET + i)) = [0x46, 0x41, 0x54, 0x33, 0x32]

/-- Whether `test_block_type` says `DOS_MBR`. -/
def isDosMbr (buffer : Nat → UInt8) : Bool := hasDosSignature buffer && !hasFatMarker buffer

/-- Whether a partition counts: the rule of fdisk. -/
def DosPartition.counts (p : DosPartition) (extPartSector : UInt32) : Bool :=
  extPartSector = 0 ∨ (p.sysInd ≠ 0 ∧ ¬p.isExtended)

/-- The sector and the base of the record that an extended partition leads to. -/
def DosPartition.next (p : DosPartition) (extPartSector relative : UInt32) : UInt32 × UInt32 :=
  let lbaStart := p.start4 + relative
  (lbaStart, if extPartSector = 0 then lbaStart else relative)

/-! ## Printing -/

/-- `print_one_part`. `%d` prints an `int`. -/
def printOnePart (p : DosPartition) (extPartSector : UInt32) (partNum : Nat) : PartLine :=
  ⟨partNum, toLong (extPartSector + p.start4).toNat, toLong p.size4.toNat, p.sysInd, p.isExtended, p.isBootable⟩

/-- The loop over the partitions of a record, and `part_num` behind it. -/
def printPartitions (extPartSector : UInt32) : List DosPartition → Nat → List PartPrint × Nat
  | [], partNum => ([], partNum)
  | p :: ps, partNum =>
    let rest := printPartitions extPartSector ps (if p.counts extPartSector then partNum + 1 else partNum)
    if p.sysInd ≠ 0 ∧ (extPartSector = 0 ∨ ¬p.isExtended) then (.part (printOnePart p extPartSector partNum) :: rest.1, rest.2)
    else rest

def printPartitionExtended (d : BlockDev) : Nat → UInt32 → UInt32 → Nat → Option (List PartPrint)
  | 0, _, _, _ => none
  | rounds + 1, extPartSector, relative, partNum =>
    match d.blockRead extPartSector with
    | none => some [.cantRead d.dev (toLong extPartSector.toNat)]
    | some buffer =>
      if isDosMbr buffer then
        let here := printPartitions extPartSector (dosPartitions buffer) partNum
        let extended := (dosPartitions buffer).filter DosPartition.isExtended
        let below := extended.mapM fun p =>
          printPartitionExtended d rounds (p.next extPartSector relative).1 (p.next extPartSector relative).2 here.2
        below.map fun below => here.1 ++ below.flatten
      else some [.badSignature (buffer DOS_PART_MAGIC_OFFSET) (buffer (DOS_PART_MAGIC_OFFSET + 1))]

/-- `print_part_dos`, without the head of the table. -/
def printPartDos (d : BlockDev) (rounds : Nat) : Option (List PartPrint) := printPartitionExtended d rounds 0 0 1

/-! ## Looking up -/

/-- What the name of a partition starts with. -/
def partNamePrefix (ifType : Nat) : List UInt8 :=
  if ifType ∈ [1, 8, 3] then [0x68, 0x64]            -- "hd" for IDE, SATA and ATAPI
  else if ifType = 2 then [0x73, 0x64]               -- "sd" for SCSI
  else if ifType = 4 then [0x75, 0x73, 0x62, 0x64]   -- "usbd"
  else if ifType = 5 then [0x64, 0x6f, 0x63, 0x64]   -- "docd"
  else [0x78, 0x78]                                  -- "xx"

/-- What is kept of a partition. -/
def dosPartitionInfo (d : BlockDev) (p : DosPartition) (extPartSector : UInt32) (partNum : Nat) : DiskPartition where
  start := extPartSector + p.start4
  size := p.size4
  blksz := 512
  name := partNamePrefix d.ifType ++ [UInt8.ofNat (0x61 + d.dev)] ++ decText partNum
  type := [0x55, 0x2d, 0x42, 0x6f, 0x6f, 0x74]       -- "U-Boot"
  bootable := p.isBootable

/-- The loop over the partitions of a record: the partition looked for, or `part_num` behind it. -/
def lookupPartitions (d : BlockDev) (extPartSector : UInt32) (whichPart : Nat) : List DosPartition → Nat → DiskPartition ⊕ Nat
  | [], partNum => .inr partNum
  | p :: ps, partNum =>
    if p.bootInd &&& 0x7f = 0 ∧ p.sysInd ≠ 0 ∧ partNum = whichPart ∧ ¬p.isExtended then
      .inl (dosPartitionInfo d p extPartSector partNum)
    else lookupPartitions d extPartSector whichPart ps (if p.counts extPartSector then partNum + 1 else partNum)

/-- `get_partition_info_extended`: the partition for a result of 0, and none for -1. -/
def getPartitionInfoExtended (d : BlockDev) (whichPart : Nat) : Nat → UInt32 → UInt32 → Nat → Option (Option DiskPartition)
  | 0, _, _, _ => none
  | rounds + 1, extPartSector, relative, partNum =>
    match d.blockRead extPartSector with
    | none => some none
    | some buffer =>
      if hasDosSignature buffer then
        match lookupPartitions d extPartSector whichPart (dosPartitions buffer) partNum with
        | .inl info => some (some info)
        | .inr partNum =>
          match (dosPartitions buffer).find? DosPartition.isExtended with
          | none => some none
          | some p =>
            getPartitionInfoExtended d whichPart rounds (p.next extPartSector relative).1 (p.next extPartSector relative).2 partNum
      else some none

def getPartitionInfoDos (d : BlockDev) (rounds part : Nat) : Option (Option DiskPartition) :=
  getPartitionInfoExtended d part rounds 0 0 1

/-!
## GPT partitions

`is_gpt_valid`, `alloc_read_gpt_entries`, `is_pte_valid` and `get_partition_info_efi` of disk/part_efi.c, for blocks of 512 bytes on a
little-endian machine. `unsigned long`, `size_t` and pointers have 32 bits. A disk is a function from byte addresses to bytes. The buffer
of the entries is the bytes that were read to it, and a result of `none` is a read outside these or outside the buffer of the header.
`CONFIG_PARTITION_UUIDS` and the messages are left out.
-/

/-- `GPT_BLOCK_SIZE`, which is the size of a `gpt_header`. -/
def GPT_BLOCK_SIZE : Nat := 512

/-- `GPT_HEADER_SIGNATURE`: "EFI PART". -/
def GPT_HEADER_SIGNATURE : Nat := 0x5452415020494645

def GPT_PRIMARY_PARTITION_TABLE_LBA : Nat := 1

def GPT_ENTRY_SIZE : Nat := 128

/-- `block_dev_desc_t`: the last block, the bytes of the disk, and whether `block_read` from a block on reads as many as it is asked for. -/
structure GptDisk where
  lba : Nat
  byteAt : Nat → UInt8
  reads : Nat → Nat → Bool

/-- Some bytes of a disk. -/
def GptDisk.bytes (d : GptDisk) (a n : Nat) : List UInt8 := (List.range n).map fun i => d.byteAt (a + i)

def GptDisk.blockRead (d : GptDisk) (start blkcnt : Nat) : Option (List UInt8) :=
  if d.reads start blkcnt then some (d.bytes (start * GPT_BLOCK_SIZE) (blkcnt * GPT_BLOCK_SIZE)) else none

/-- `le32_to_int` and `le64_to_int` of a field of `n` bytes. -/
def leAt (b : List UInt8) (at_ n : Nat) : Nat := leNat ((b.drop at_).take n)

/-! The fields of `gpt_header`. -/

def gptSignature (h : List UInt8) : Nat := leAt h 0 8
def gptHeaderSize (h : List UInt8) : Nat := leAt h 12 4
def gptHeaderCrc32 (h : List UInt8) : Nat := leAt h 16 4
def gptMyLba (h : List UInt8) : Nat := leAt h 24 8
def gptFirstUsableLba (h : List UInt8) : Nat := leAt h 40 8
def gptLastUsableLba (h : List UInt8) : Nat := leAt h 48 8
def gptPartitionEntryLba (h : List UInt8) : Nat := leAt h 72 8
def gptNumPartitionEntries (h : List UInt8) : Nat := leAt h 80 4
def gptSizeofPartitionEntry (h : List UInt8) : Nat := leAt h 84 4
def gptPartitionEntryArrayCrc32 (h : List UInt8) : Nat := leAt h 88 4

/-- The size of the entries, in 32 bits. -/
def gptCount (h : List UInt8) : Nat := gptNumPartitionEntries h * gptSizeofPartitionEntry h % 2 ^ 32

/-- The block that the entries are read from: `partition_entry_lba` as an `unsigned long`. -/
def gptEntriesStart (h : List UInt8) : Nat := gptPartitionEntryLba h % 2 ^ 32

/-- A header with its checksum cleared. -/
def clearHeaderCrc (h : List UInt8) : List UInt8 := h.take 16 ++ List.replicate 4 0 ++ h.drop 20

/-- `alloc_read_gpt_entries`, where `alloc` says which sizes `memalign` has memory for. -/
def allocReadGptEntries (d : GptDisk) (alloc : Nat → Bool) (h : List UInt8) : Option (List UInt8) :=
  if gptCount h ≠ 0 ∧ alloc (gptCount h) then d.blockRead (gptEntriesStart h) (gptCount h / GPT_BLOCK_SIZE) else none

/-- `is_gpt_valid`: the header and the entries, or none for a result of 0. -/
def isGptValid (d : GptDisk) (alloc : Nat → Bool) (lba : Nat) : Option (Option (List UInt8 × List UInt8)) :=
  match d.blockRead lba 1 with
  | none => some none
  | some h =>
    if gptSignature h ≠ GPT_HEADER_SIGNATURE then some none
    else
      (takeBytes (gptHeaderSize h) (clearHeaderCrc h)).bind fun bytes =>
        if (crc32 0 bytes).toNat ≠ gptHeaderCrc32 h then some none
        else if gptMyLba h ≠ lba then some none
        else if d.lba < gptFirstUsableLba h then some none
        else if d.lba < gptLastUsableLba h then some none
        else
          match allocReadGptEntries d alloc h with
          | none => some none
          | some pte =>
            (takeBytes (gptCount h) pte).bind fun bytes =>
              if (crc32 0 bytes).toNat ≠ gptPartitionEntryArrayCrc32 h then some none else some (some (h, pte))

/-- `is_pte_valid` of the entry at the start of some bytes. -/
def isPteValid (pte : List UInt8) : Option Bool :=
  (takeBytes 16 pte).map fun guid => guid ≠ List.replicate 16 0

/-- `isprint` of include/linux/ctype.h. -/
def isPrint (c : UInt8) : Bool := 0x20 ≤ c ∧ c ≤ 0x7e ∨ 0xa0 ≤ c

/-- `print_efiname`: the low bytes of the characters, up to a NUL, with a dot for those that cannot be printed. -/
def printEfiname (pte : List UInt8) : List UInt8 :=
  let chars := (List.range 36).map fun i => pte.getD (56 + 2 * i) 0
  (chars.takeWhile (· ≠ 0)).map fun c => if isPrint c then c else 0x2e

/-- What `get_partition_info_efi` sets from an entry. -/
def efiPartitionInfo (info : DiskPartition) (pte : List UInt8) : DiskPartition :=
  let start := UInt32.ofNat (leAt pte 32 8)
  { info with
    start := start, size := UInt32.ofNat (leAt pte 40 8) + 1 - start, blksz := GPT_BLOCK_SIZE, name := printEfiname pte
    type := [0x55, 0x2d, 0x42, 0x6f, 0x6f, 0x74] }

/-- `get_partition_info_efi`: the partition for a result of 0, and none for -1. The name is the last of an entry that is read. -/
def getPartitionInfoEfi (d : GptDisk) (alloc : Nat → Bool) (part : Nat) (info : DiskPartition) : Option (Option DiskPartition) :=
  if part < 1 then some none
  else
    (isGptValid d alloc GPT_PRIMARY_PARTITION_TABLE_LBA).bind fun valid =>
      match valid with
      | none => some none
      | some (h, pte) =>
        if gptNumPartitionEntries h < part then some none
        else
          (isPteValid (pte.drop ((part - 1) * GPT_ENTRY_SIZE))).bind fun used =>
            if used then
              (takeBytes GPT_ENTRY_SIZE (pte.drop ((part - 1) * GPT_ENTRY_SIZE))).map fun e => some (efiPartitionInfo info e)
            else some none

end UBoot
