import Mathlib

/-!
# Free blocks and inodes of an ext4 file system

`_get_new_inode_no`, `_get_new_blk_no`, `ext4fs_set_block_bmap`, `ext4fs_reset_block_bmap`, `ext4fs_set_inode_bmap`,
`ext4fs_reset_inode_bmap`, `ext4fs_get_new_blk_no` and `ext4fs_get_new_inode_no` of fs/ext4/ext4_common.c, and where `ext4fs_read_inode`,
`ext4fs_write` and `ext4fs_delete_file` look for an inode. The descriptor table and the bitmaps are those in memory. A result is none when
a byte outside a bitmap or a descriptor outside the table is accessed, or when a search has not ended. Block numbers fit a `long`, and
inode numbers an `int`. The -1 that a first pass leaves in `curr_blkno` or `curr_inode_no` is not kept, for the next call sets it again.
-/

namespace UBoot

/-- `struct ext2_block_group` with the flags that are used, and the bitmaps of the group. -/
structure ExtGroup where
  blockId : Nat
  inodeId : Nat
  inodeTableId : Nat
  freeBlocks : Nat
  freeInodes : Nat
  itableUnused : Nat
  blockUninit : Bool
  inodeUninit : Bool
  blkBmap : List UInt8
  inodeBmap : List UInt8

/-- `struct ext_filesystem` with what is used of the superblock, and the groups whose bitmap was put into the journal last. -/
structure ExtFilesystem where
  blksz : Nat
  inodesz : Nat
  blocksPerGroup : Nat
  inodesPerGroup : Nat
  bgd : List ExtGroup
  freeBlocks : Nat
  freeInodes : Nat
  currBlkno : Nat
  firstPassBbmap : Nat
  prevBgBitmapIndex : Option Nat
  currInodeNo : Nat
  firstPassIbmap : Nat
  prevInodeBitmapIndex : Option Nat

/-! ## Bits of a bitmap -/

/-- A byte of a bitmap, by its distance from the start of it, and the bit in it. -/
structure BitPlace where
  byte : Int
  operand : UInt8
  deriving DecidableEq

/-- `*ptr` -/
def bmapByte (buffer : List UInt8) (i : Int) : Option UInt8 := if i < 0 then none else buffer[i.toNat]?

/-- A bit is set: the bitmap, or none for -1 if it was set. -/
def setBit (buffer : List UInt8) (p : BitPlace) : Option (Option (List UInt8)) :=
  (bmapByte buffer p.byte).map fun byte => if byte &&& p.operand ≠ 0 then none else some (buffer.set p.byte.toNat (byte ||| p.operand))

/-- The place where numbers start from 0. -/
def placeFrom0 (i : Int) (remainder : Nat) : BitPlace := ⟨i, 1 <<< UInt8.ofNat remainder⟩

/-- The place where numbers start from 1. -/
def placeFrom1 (i : Int) (remainder : Nat) : BitPlace :=
  if remainder = 0 then ⟨i - 1, 1 <<< (7 : UInt8)⟩ else ⟨i, 1 <<< UInt8.ofNat (remainder - 1)⟩

/-- The loop over the bytes that are 255: the byte it ends at and `count`, or none for -1. -/
def skipFull (stop : Nat → Bool) : List UInt8 → Nat → Nat → Option (Option (Nat × Nat))
  | [], _, _ => none
  | b :: bytes, ptr, count =>
    if b = 255 then if stop (count + 8) then some none else skipFull stop bytes (ptr + 1) (count + 8) else some (some (ptr, count))

/-- The loop for a bit that is not set, with `left` bytes to go. -/
def findClear (buffer : List UInt8) : Nat → Nat → Nat → Option (Option (Nat × List UInt8))
  | 0, _, _ => some none
  | left + 1, ptr, count =>
    match buffer[ptr]? with
    | none => none
    | some input =>
      match (List.range 8).find? fun i => input &&& (1 <<< UInt8.ofNat i) = 0 with
      | some i => some (some (count + i, buffer.set ptr (input ||| 1 <<< UInt8.ofNat i)))
      | none => findClear buffer left (ptr + 1) (count + 8)

/-- A number that is free and the bitmap with its bit set, or none for -1. -/
def getNewNo (stop : Nat → Bool) (blksz count : Nat) (buffer : List UInt8) : Option (Option (Nat × List UInt8)) :=
  match skipFull stop buffer 0 count with
  | none => none
  | some none => some none
  | some (some (ptr, count)) => findClear buffer blksz ptr count

namespace ExtFilesystem

variable (fs : ExtFilesystem)

def getNewBlkNoIn (buffer : List UInt8) : Option (Option (Nat × List UInt8)) :=
  getNewNo (fun count => count = fs.blksz * 8) fs.blksz (if fs.blksz ≠ 1024 then 0 else 1) buffer

def getNewInodeNoIn (buffer : List UInt8) : Option (Option (Nat × List UInt8)) :=
  getNewNo (fun count => fs.inodesPerGroup < count) fs.blksz 1 buffer

/-- The bit of `ext4fs_set_block_bmap` and `ext4fs_reset_block_bmap`. -/
def blockPlace (blockno : Nat) (index : Int) : BitPlace :=
  let i := ((blockno / 8 : Nat) : Int) - index * fs.blksz
  if fs.blksz ≠ 1024 then placeFrom0 i (blockno % 8) else placeFrom1 i (blockno % 8)

/-- The bit of `ext4fs_set_inode_bmap` and `ext4fs_reset_inode_bmap`. -/
def inodePlace (inodeNo index : Nat) : BitPlace :=
  let inodeNo := inodeNo - index * fs.inodesPerGroup
  placeFrom1 ((inodeNo / 8 : Nat) : Int) (inodeNo % 8)

/-- The group of a block. -/
def bgIdx (blkno : Nat) : Int :=
  if fs.blksz ≠ 1024 then ((blkno / fs.blocksPerGroup : Nat) : Int)
  else if blkno % fs.blocksPerGroup = 0 then ((blkno / fs.blocksPerGroup : Nat) : Int) - 1
  else ((blkno / fs.blocksPerGroup : Nat) : Int)

def setGroup (i : Nat) (g : ExtGroup) : ExtFilesystem := { fs with bgd := fs.bgd.set i g }

/-! ## Blocks -/

/-- The bitmap of a group that is flagged `EXT4_BG_BLOCK_UNINIT` is cleared. -/
def initBlockBmap (g : ExtGroup) : ExtGroup :=
  if g.blockUninit then { g with blockUninit := false, blkBmap := List.replicate fs.blksz 0 } else g

/-- A block of group `i` was found. -/
def takeBlock (i : Nat) (g : ExtGroup) (bmap : List UInt8) (blkno : Nat) : ExtFilesystem :=
  { fs.setGroup i { g with blkBmap := bmap, freeBlocks := g.freeBlocks - 1 } with currBlkno := blkno, freeBlocks := fs.freeBlocks - 1 }

/-- The first pass of `ext4fs_get_new_blk_no` over the groups. `backup` says whether the bitmap is read and put into the journal. -/
def firstBlkNo (backup : Nat → Bool) : List Nat → ExtFilesystem → Option (Int × ExtFilesystem)
  | [], fs => some (-1, fs)
  | i :: is, fs =>
    match fs.bgd[i]? with
    | none => none
    | some g =>
      if g.freeBlocks = 0 then firstBlkNo backup is fs
      else
        let g := fs.initBlockBmap g
        match fs.getNewBlkNoIn g.blkBmap with
        | none => none
        | some none => firstBlkNo backup is (fs.setGroup i g)
        | some (some (count, bmap)) =>
          let blkno := count + i * fs.blksz * 8
          let fs := { fs.takeBlock i g bmap blkno with firstPassBbmap := fs.firstPassBbmap + 1 }
          some (if backup g.blockId then blkno else -1, fs)

/-- The passes of `ext4fs_get_new_blk_no` that follow, from `restart` on. A block after `curr_blkno` is not block 0, so it has a group. -/
def nextBlkNo (backup : Nat → Bool) : Nat → ExtFilesystem → Option (Int × ExtFilesystem)
  | 0, _ => none
  | fuel + 1, fs =>
    let blkno := fs.currBlkno + 1
    let i := (fs.bgIdx blkno).toNat
    if fs.bgd.length ≤ i then some (-1, { fs with currBlkno := blkno })
    else
      match fs.bgd[i]? with
      | none => none
      | some g =>
        if g.freeBlocks = 0 then nextBlkNo backup fuel { fs with currBlkno := blkno + fs.blocksPerGroup - 1 }
        else
          let g := fs.initBlockBmap g
          match setBit g.blkBmap (fs.blockPlace blkno i) with
          | none => none
          | some none => nextBlkNo backup fuel { fs.setGroup i g with currBlkno := blkno }
          | some (some bmap) =>
            if fs.prevBgBitmapIndex = some i then some (blkno, fs.takeBlock i g bmap blkno)
            else if backup g.blockId then some (blkno, { fs.takeBlock i g bmap blkno with prevBgBitmapIndex := some i })
            else some (-1, { fs.setGroup i { g with blkBmap := bmap } with currBlkno := blkno })

/-- `ext4fs_get_new_blk_no`. The index of the first pass is a `short`. -/
def getNewBlkNo (backup : Nat → Bool) (fuel : Nat) : Option (Int × ExtFilesystem) :=
  if fs.firstPassBbmap = 0 then firstBlkNo backup (List.range (min fs.bgd.length (2 ^ 15))) fs else nextBlkNo backup fuel fs

/-! ## Inodes -/

/-- The bitmap of a group that is flagged `EXT4_BG_INODE_UNINIT` is cleared. -/
def initInodeBmap (g : ExtGroup) : ExtGroup :=
  if g.inodeUninit then { g with inodeUninit := false, inodeBmap := List.replicate fs.blksz 0 } else g

/-- An inode of group `i` was found. -/
def takeInode (i : Nat) (g : ExtGroup) (bmap : List UInt8) (inodeNo : Nat) : ExtFilesystem :=
  { fs.setGroup i { g with inodeBmap := bmap, freeInodes := g.freeInodes - 1, itableUnused := g.freeInodes - 1 } with
    currInodeNo := inodeNo, freeInodes := fs.freeInodes - 1 }

/-- The first pass of `ext4fs_get_new_inode_no` over the groups. -/
def firstInodeNo (backup : Nat → Bool) : List Nat → ExtFilesystem → Option (Int × ExtFilesystem)
  | [], fs => some (-1, fs)
  | i :: is, fs =>
    match fs.bgd[i]? with
    | none => none
    | some g =>
      if g.freeInodes = 0 then firstInodeNo backup is fs
      else
        let g := fs.initInodeBmap { g with itableUnused := g.freeInodes }
        match fs.getNewInodeNoIn g.inodeBmap with
        | none => none
        | some none => firstInodeNo backup is (fs.setGroup i g)
        | some (some (count, bmap)) =>
          let inodeNo := count + i * fs.inodesPerGroup
          let fs := { fs.takeInode i g bmap inodeNo with firstPassIbmap := fs.firstPassIbmap + 1 }
          some (if backup g.inodeId then inodeNo else -1, fs)

/-- The passes of `ext4fs_get_new_inode_no` that follow, from `restart` on. -/
def nextInodeNo (backup : Nat → Bool) : Nat → ExtFilesystem → Option (Int × ExtFilesystem)
  | 0, _ => none
  | fuel + 1, fs =>
    let inodeNo := fs.currInodeNo + 1
    let i := inodeNo / fs.inodesPerGroup
    match fs.bgd[i]? with
    | none => none
    | some g =>
      let g := fs.initInodeBmap g
      match setBit g.inodeBmap (fs.inodePlace inodeNo i) with
      | none => none
      | some none => nextInodeNo backup fuel { fs.setGroup i g with currInodeNo := inodeNo }
      | some (some bmap) =>
        if fs.prevInodeBitmapIndex = some i then some (inodeNo, fs.takeInode i g bmap inodeNo)
        else if backup g.inodeId then some (inodeNo, { fs.takeInode i g bmap inodeNo with prevInodeBitmapIndex := some i })
        else some (-1, { fs.setGroup i { g with inodeBmap := bmap } with currInodeNo := inodeNo })

def getNewInodeNo (backup : Nat → Bool) (fuel : Nat) : Option (Int × ExtFilesystem) :=
  if fs.firstPassIbmap = 0 then firstInodeNo backup (List.range (min fs.bgd.length (2 ^ 15))) fs else nextInodeNo backup fuel fs

/-! ## Where an inode is -/

/-- A block of the inode table of group `i` and the offset in it, for an inode that is counted from 0. -/
def tablePlace (i inodeno : Nat) : Option (Nat × Nat) :=
  let inodesPerBlock := fs.blksz / fs.inodesz
  fs.bgd[i]?.map fun g => (g.inodeTableId + inodeno % fs.inodesPerGroup / inodesPerBlock, inodeno % inodesPerBlock * fs.inodesz)

/-- `ext4fs_read_inode` -/
def readPlace (ino : Nat) : Option (Nat × Nat) := fs.tablePlace ((ino - 1) / fs.inodesPerGroup) (ino - 1)

/-- `ext4fs_write`, for the inode of the file and that of its parent. -/
def writePlace (inodeno : Nat) : Option (Nat × Nat) := fs.tablePlace (inodeno / fs.inodesPerGroup) (inodeno - 1)

/-- `ext4fs_delete_file` -/
def deletePlace (inodeno : Nat) : Option (Nat × Nat) := fs.tablePlace (inodeno / fs.inodesPerGroup) (inodeno - 1)

/-- The group and the bit that `ext4fs_get_new_inode_no` has set and `ext4fs_delete_file` has reset for an inode. -/
def bitPlace (inodeno : Nat) : Nat × BitPlace :=
  let ibmapIdx := inodeno / fs.inodesPerGroup
  (ibmapIdx, fs.inodePlace inodeno ibmapIdx)

end ExtFilesystem

end UBoot
