import UBoot.Word

/-!
# The block map of ext2, ext3 and ext4

fs/ext4/ext4_common.c: `read_allocated_block` and `ext4fs_get_extent_block`, with `ext4fs_devread` of fs/ext4/dev.c. A file system is the
words of a partition of 512-byte sectors, little-endian as the board is. A word has 32 bits, and so have a `long` and the `int` that
a sector is. The block size stays the same, and memory can always be had.
-/

namespace UBoot

/-- A partition with a file system whose blocks are of `2 ^ log2Blksz` sectors. -/
structure ExtDisk where
  words : Nat → UInt32
  size : Nat
  log2Blksz : Nat

/-- `blksz / 4` -/
def ExtDisk.perblock (d : ExtDisk) : Nat := 128 * 2 ^ d.log2Blksz

/-- Why the model stops: a read of an indirect block failed, an index is outside a cached block, or a search has not ended. -/
inductive ExtFault where
  | read | index | loop
  deriving DecidableEq

/-- `ext4fs_devread` of a block, from a sector that is an `int`. -/
def ExtDisk.devread (d : ExtDisk) (sector : Nat) : Option (Nat → UInt32) :=
  if 2 ^ 31 ≤ sector ∨ d.size ≤ sector + (2 ^ d.log2Blksz - 1) then none else some fun i => d.words (128 * sector + i)

/-- `block << log2_blksz`, as the `int` that is passed on. -/
def ExtDisk.sector (d : ExtDisk) (block : Nat) : Nat := block * 2 ^ d.log2Blksz % 2 ^ 32

/-- `struct ext2_inode`, what the block map reads of it: the words of `i_block` are the direct blocks, the three indirect ones, or the root
of an extent tree. -/
structure Ext2Inode where
  flags : UInt32
  block : Nat → UInt32

/-- `EXT4_EXTENTS_FL` -/
def Ext2Inode.extents (inode : Ext2Inode) : Bool := inode.flags &&& 0x80000 ≠ 0

/-! ## Extents -/

/-- A block of an extent tree. -/
abbrev ExtNode := Nat → UInt32

/-- The first of two `__le16` in a word, and the second one. -/
def lo16 (w : UInt32) : Nat := w.toNat % 2 ^ 16
def hi16 (w : UInt32) : Nat := w.toNat / 2 ^ 16

/-- `struct ext4_extent_header` -/
def ehMagic (node : ExtNode) : Nat := lo16 (node 0)
def ehEntries (node : ExtNode) : Nat := hi16 (node 0)
def ehDepth (node : ExtNode) : Nat := hi16 (node 1)

def EXT4_EXT_MAGIC : Nat := 0xf30a

/-- `struct ext4_extent_idx` -/
def eiBlock (node : ExtNode) (i : Nat) : Nat := (node (3 + 3 * i)).toNat
def eiLeaf (node : ExtNode) (i : Nat) : Nat := lo16 (node (5 + 3 * i)) * 2 ^ 32 + (node (4 + 3 * i)).toNat

structure Ext4Extent where
  block : Nat
  len : Nat
  start : Nat
  deriving DecidableEq

def extentAt (node : ExtNode) (i : Nat) : Ext4Extent where
  block := (node (3 + 3 * i)).toNat
  len := lo16 (node (4 + 3 * i))
  start := hi16 (node (4 + 3 * i)) * 2 ^ 32 + (node (5 + 3 * i)).toNat

/-- The loop over the entries of a block, with `left` entries to go: the first entry that is not `before`. -/
def scanEntries (before : Nat → Bool) : Nat → Nat → Nat
  | 0, i => i
  | left + 1, i => if before i then scanEntries before left (i + 1) else i

/-- What a round of `ext4fs_get_extent_block` comes to: `NULL`, the block at hand, or the next one. -/
inductive ExtentStep where
  | null
  | leaf
  | next (block : ExtNode)

/-- A round of `ext4fs_get_extent_block`. -/
def extentStep (d : ExtDisk) (fileblock : Nat) (node : ExtNode) : ExtentStep :=
  if ehMagic node ≠ EXT4_EXT_MAGIC then .null
  else if ehDepth node = 0 then .leaf
  else
    let i := scanEntries (fun i => eiBlock node i < fileblock) (ehEntries node) 0
    if i = 0 then .null
    else
      match d.devread (d.sector (eiLeaf node (i - 1))) with
      | some block => .next block
      | none => .null

def ext4fsGetExtentBlock (d : ExtDisk) (fileblock : Nat) : Nat → ExtNode → Except ExtFault (Option ExtNode)
  | 0, _ => .error .loop
  | fuel + 1, node =>
    match extentStep d fileblock node with
    | .null => .ok none
    | .leaf => .ok (some node)
    | .next block => ext4fsGetExtentBlock d fileblock fuel block

def negEINVAL : Int := -22

/-- `read_allocated_block` for an inode with extents. -/
def readExtent (d : ExtDisk) (fuel : Nat) (inode : Ext2Inode) (fileblock : Nat) : Except ExtFault Int := do
  match ← ext4fsGetExtentBlock d fileblock fuel inode.block with
  | none => return negEINVAL
  | some leaf =>
    let i := scanEntries (fun i => (extentAt leaf i).block ≤ fileblock) (ehEntries leaf) 0
    if i = 0 then return -1
    else
      let extent := extentAt leaf (i - 1)
      let fileblock := fileblock - extent.block
      if extent.len ≤ fileblock then return 0
      else return toLong ((fileblock + extent.start) % 2 ^ 32)

/-! ## Indirect blocks -/

/-- A cached indirect block, and the sector it was read from. -/
structure IndirCache where
  blkno : Nat
  words : Nat → UInt32

/-- The three cached blocks. -/
structure IndirCaches where
  indir1 : IndirCache
  indir2 : IndirCache
  indir3 : IndirCache

/-- A block just allocated: its number is `-1`. -/
def IndirCache.empty : IndirCache := ⟨2 ^ 32 - 1, fun _ => 0⟩

def IndirCaches.init : IndirCaches := ⟨.empty, .empty, .empty⟩

/-- Read a block into the cache. -/
def IndirCache.fill (d : ExtDisk) (block : UInt32) : Except ExtFault IndirCache :=
  match d.devread (d.sector block.toNat) with
  | some words => .ok ⟨d.sector block.toNat, words⟩
  | none => .error .read

/-- Read `block` unless the cached block is the one of the entry that is tested. -/
def IndirCache.loadTested (d : ExtDisk) (c : IndirCache) (tested block : UInt32) : Except ExtFault IndirCache :=
  if d.sector tested.toNat ≠ c.blkno then fill d block else .ok c

/-- Read a block unless it is the cached one. -/
def IndirCache.load (d : ExtDisk) (c : IndirCache) (block : UInt32) : Except ExtFault IndirCache := c.loadTested d block block

/-- An entry of a cached block. -/
def IndirCache.entry (d : ExtDisk) (c : IndirCache) (i : Nat) : Except ExtFault UInt32 :=
  if i < d.perblock then .ok (c.words i) else .error .index

def INDIRECT_BLOCKS : Nat := 12

/-- The part of `read_allocated_block` for a single indirect block. -/
def readIndirect (d : ExtDisk) (inode : Ext2Inode) (fileblock : Nat) (s : IndirCaches) : Except ExtFault (Int × IndirCaches) := do
  let indir1 ← s.indir1.load d (inode.block 12)
  let blknr ← indir1.entry d (fileblock - INDIRECT_BLOCKS)
  return (toLong blknr.toNat, { s with indir1 := indir1 })

/-- The part for a double indirect block. -/
def readDoubleIndirect (d : ExtDisk) (inode : Ext2Inode) (fileblock : Nat) (s : IndirCaches) : Except ExtFault (Int × IndirCaches) := do
  let perblock := d.perblock
  let rblock := fileblock - (INDIRECT_BLOCKS + perblock)
  let indir1 ← s.indir1.load d (inode.block 13)
  let indir2 ← s.indir2.load d (← indir1.entry d (rblock / perblock))
  let blknr ← indir2.entry d (rblock % perblock)
  return (toLong blknr.toNat, { s with indir1 := indir1, indir2 := indir2 })

/-- The part for a triple indirect block. The test of the third cached block looks at another entry than the one that is read. -/
def readTripleIndirect (d : ExtDisk) (inode : Ext2Inode) (fileblock : Nat) (s : IndirCaches) : Except ExtFault (Int × IndirCaches) := do
  let perblockChild := d.perblock
  let perblockParent := d.perblock * d.perblock
  let rblock := fileblock - (INDIRECT_BLOCKS + d.perblock + perblockParent)
  let indir1 ← s.indir1.load d (inode.block 14)
  let indir2 ← s.indir2.load d (← indir1.entry d (rblock / perblockParent))
  let tested ← indir2.entry d (rblock / perblockChild)
  let indir3 ← s.indir3.loadTested d tested (← indir2.entry d (rblock / perblockChild % perblockChild))
  let blknr ← indir3.entry d (rblock % perblockChild)
  return (toLong blknr.toNat, { indir1 := indir1, indir2 := indir2, indir3 := indir3 })

def readAllocatedBlock (d : ExtDisk) (fuel : Nat) (inode : Ext2Inode) (fileblock : Nat) (s : IndirCaches) :
    Except ExtFault (Int × IndirCaches) :=
  if inode.extents then (readExtent d fuel inode fileblock).map fun blknr => (blknr, s)
  else if fileblock < INDIRECT_BLOCKS then .ok (toLong (inode.block fileblock).toNat, s)
  else if fileblock < INDIRECT_BLOCKS + d.perblock then readIndirect d inode fileblock s
  else if fileblock < INDIRECT_BLOCKS + d.perblock * (d.perblock + 1) then readDoubleIndirect d inode fileblock s
  else readTripleIndirect d inode fileblock s

end UBoot
