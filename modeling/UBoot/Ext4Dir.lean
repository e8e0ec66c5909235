import UBoot.CString
import UBoot.Ext4Blocks
import UBoot.Lib.Patch

/-!
# The entries of a directory of an ext4 file system

`check_filename`, `ext4fs_filename_check`, `search_dir`, `check_void_in_dentry` and `ext4fs_update_parent_dentry` of
fs/ext4/ext4_common.c, for a directory that has its blocks in `dir_blocks`. `ext4fs_get_new_blk_no` and `ext4fs_get_new_inode_no` are given
by their results. A block that was put into the metadata counts as written. A result is none when a byte outside a buffer or an array is
accessed, `previous_dir` is used while it is null or in a buffer that was freed, a loop does not end, or a directory without a block is
read. A loop that takes more turns than its buffer has bytes comes to an entry of length 0 or leaves the buffer, so it has fuel for these.
-/

namespace UBoot

def FILETYPE_REG : UInt8 := 1

/-- Whether a block is read, put into the journal and put into the metadata. -/
structure Ext4Io where
  devread : Nat → Bool
  logJournal : Nat → Bool
  putMetadata : Nat → Bool

/-! ## Entries -/

/-- `sizeof(struct ext2_dirent)` -/
def EXT2_DIRENT_SIZE : Nat := 8

def direntInode (buffer : List UInt8) (dir : Nat) : Option Nat := (Lib.readAt buffer dir 4).map Lib.leVal

def direntlen (buffer : List UInt8) (dir : Nat) : Option Nat := (Lib.readAt buffer (dir + 4) 2).map Lib.leVal

def direntNamelen (buffer : List UInt8) (dir : Nat) : Option Nat := (Lib.readAt buffer (dir + 6) 1).map Lib.leVal

def setDirentlen (buffer : List UInt8) (dir n : Nat) : Option (List UInt8) := Lib.writeAt buffer (dir + 4) (Lib.leBytes 2 n)

/-- `strncmp` of a name with as many bytes of a buffer is 0. It reads up to the first byte that differs. -/
def nameIs (buffer : List UInt8) : Nat → List UInt8 → Option Bool
  | _, [] => some true
  | i, c :: cs =>
    match buffer[i]? with
    | none => none
    | some b => if b = c then nameIs buffer (i + 1) cs else some false

/-- The test of the name of an entry. -/
def direntIs (filename : CString) (buffer : List UInt8) (dir : Nat) : Option Bool :=
  match direntNamelen buffer dir with
  | none => none
  | some namelen => if filename.bytes.length = namelen then nameIs buffer (dir + EXT2_DIRENT_SIZE) filename.bytes else some false

/-- The bytes of an entry with a name of a length, that is filled up to a multiple of four. -/
def direntBytes (namelen : Nat) : Nat := namelen + EXT2_DIRENT_SIZE + if namelen % 4 ≠ 0 then 4 - namelen % 4 else 0

/-! ## An entry is looked for -/

/-- An entry was found: it goes into the one before it. -/
def unlinkDentry (buffer : List UInt8) (previousDir : Option Nat) (dir : Nat) : Option (Nat × List UInt8) := do
  let previousDir ← previousDir
  let previousLen ← direntlen buffer previousDir
  let len ← direntlen buffer dir
  let buffer ← setDirentlen buffer previousDir (previousLen + len)
  let inode ← direntInode buffer dir
  let buffer ← Lib.writeAt buffer dir (Lib.leBytes 4 0)
  some (inode, buffer)

/-- The loop of `check_filename` and `search_dir` over a block: the inode of the entry with the name and the block without it. `dir` is
`totalbytes` behind the start of the block. -/
def findDentry (filename : CString) (blksz : Nat) (buffer : List UInt8) : Nat → Option Nat → Nat → Option (Option (Nat × List UInt8))
  | 0, _, _ => none
  | fuel + 1, previousDir, dir =>
    match direntIs filename buffer dir, direntlen buffer dir with
    | some true, _ => (unlinkDentry buffer previousDir dir).map some
    | some false, some len => if dir + len = blksz then some none else findDentry filename blksz buffer fuel (some dir) (dir + len)
    | _, _ => none

/-- A value of `inode` as an `int`. -/
def inodeInt (inode : Nat) : Int := if inode < 2 ^ 31 then inode else (inode : Int) - 2 ^ 32

/-- `check_filename` with the blocks afterwards. -/
def checkFilename (io : Ext4Io) (blksz : Nat) (filename : CString) (disk : Nat → List UInt8) (blknr : Nat) : Option (Int × (Nat → List UInt8)) :=
  if io.devread blknr && io.logJournal blknr then
    match findDentry filename blksz (disk blknr) ((disk blknr).length + 1) none 0 with
    | none => none
    | some none => some (-1, disk)
    | some (some (inode, buffer)) =>
      if io.putMetadata blknr then some (inodeInt inode, Function.update disk blknr buffer) else some (-1, disk)
  else some (-1, disk)

def filenameCheck (io : Ext4Io) (blksz : Nat) (filename : CString) : List Nat → (Nat → List UInt8) → Option (Int × (Nat → List UInt8))
  | [], disk => some (-1, disk)
  | blknr :: blknrs, disk =>
    if blknr = 0 then some (-1, disk)
    else
      match checkFilename io blksz filename disk blknr with
      | none => none
      | some (inodeno, disk) => if inodeno ≠ -1 then some (inodeno, disk) else filenameCheck io blksz filename blknrs disk

/-- `search_dir`. In a block behind the first, `previous_dir` is in the buffer that was freed until an entry is passed. -/
def searchDir (io : Ext4Io) (blksz : Nat) (dirname : CString) (disk : Nat → List UInt8) : List Nat → Option Int
  | [] => some (-1)
  | blknr :: blknrs =>
    if blknr = 0 || !io.devread blknr then some (-1)
    else
      match findDentry dirname blksz (disk blknr) ((disk blknr).length + 1) none 0 with
      | none => none
      | some none => searchDir io blksz dirname disk blknrs
      | some (some (inode, _)) => some (inodeInt inode)

/-! ## An entry is made -/

/-- `check_void_in_dentry` with the block afterwards. -/
def checkVoidInDentry (filename : CString) (buffer : List UInt8) (dir : Nat) : Option (Nat × List UInt8) := do
  let namelen ← direntNamelen buffer dir
  let len ← direntlen buffer dir
  let sizeofVoidSpace : Int := (len : Int) - direntBytes namelen
  if sizeofVoidSpace = 0 then some (0, buffer)
  else if direntBytes filename.bytes.length ≤ sizeofVoidSpace then
    let buffer ← setDirentlen buffer dir (direntBytes namelen)
    some (sizeofVoidSpace.toNat, buffer)
  else some (0, buffer)

/-- The loop of `ext4fs_update_parent_dentry`: the entry that the new one goes behind, `sizeof_void_space` and the block, or none when it is
full. The room in the last entry is unsigned. `totalbytes` is that of the start of `dir`. -/
def findVoid (filename : CString) (blksz : Nat) (buffer : List UInt8) : Nat → Nat → Option (Option (Nat × Nat × List UInt8))
  | 0, _ => none
  | fuel + 1, dir =>
    match direntlen buffer dir with
    | none => none
    | some len =>
      if len = 0 then some (some (dir, 0, buffer))
      else if dir + len = blksz then
        match direntNamelen buffer dir with
        | none => none
        | some namelen =>
          if (2 ^ 32 + len - direntBytes namelen) % 2 ^ 32 < direntBytes filename.bytes.length then some none
          else (setDirentlen buffer dir (direntBytes namelen)).map fun buffer => some (dir, 0, buffer)
      else
        match checkVoidInDentry filename buffer dir with
        | none => none
        | some (sizeofVoidSpace, buffer) =>
          if sizeofVoidSpace ≠ 0 then some (some (dir, sizeofVoidSpace, buffer)) else findVoid filename blksz buffer fuel (dir + len)

/-- The new entry is written. -/
def writeDentry (filename : CString) (inodeno len : Nat) (buffer : List UInt8) (dir : Nat) : Option (List UInt8) := do
  let buffer ← Lib.writeAt buffer dir (Lib.leBytes 4 inodeno)
  let buffer ← setDirentlen buffer dir len
  let buffer ← Lib.writeAt buffer (dir + 6) [UInt8.ofNat filename.bytes.length, FILETYPE_REG]
  Lib.writeAt buffer (dir + EXT2_DIRENT_SIZE) filename.bytes

/-- `g_parent_inode` and the blocks. -/
structure ParentDir where
  dirBlocks : List Nat
  size : Nat
  blockcnt : Nat
  disk : Nat → List UInt8

/-- The block that `put_ext4` writes, for the offset is a product of two numbers of 32 bits. -/
def putBlock (blksz blknr : Nat) : Nat := blknr * blksz % 2 ^ 32 / blksz

/-- A new block of the directory. -/
def ParentDir.addBlock (s : ParentDir) (blksz sectPerblk directBlkIdx blknr : Nat) : ParentDir :=
  ⟨s.dirBlocks.set directBlkIdx blknr, (s.size + blksz) % 2 ^ 32, (s.blockcnt + sectPerblk) % 2 ^ 32,
    Function.update s.disk (putBlock blksz blknr) (List.replicate blksz 0)⟩

/-- The new entry goes behind the one at `dir`. -/
def makeDentry (io : Ext4Io) (blksz : Nat) (filename : CString) (newInodeno : Option Nat) (blknr : Nat) (s : ParentDir)
    (dir sizeofVoidSpace : Nat) (buffer : List UInt8) : Option (Option Nat × ParentDir) :=
  match direntlen buffer dir with
  | none => none
  | some len =>
    match newInodeno with
    | none => some (none, s)
    | some inodeno =>
      match writeDentry filename inodeno (if sizeofVoidSpace ≠ 0 then sizeofVoidSpace else blksz - (dir + len)) buffer (dir + len) with
      | none => none
      | some buffer =>
        if io.putMetadata blknr then some (some inodeno, { s with disk := Function.update s.disk blknr buffer })
        else some (some inodeno, s)

/-- `ext4fs_update_parent_dentry` from `restart` on, with `first_block_no_of_root`, and `*p_ino` if it is set. `newBlknos` are the
results of `ext4fs_get_new_blk_no`, and `newInodeno` is that of `ext4fs_get_new_inode_no`, where none stands for -1. -/
def updateParentDentry (io : Ext4Io) (blksz sectPerblk : Nat) (filename : CString) (newInodeno : Option Nat) :
    List (Option Nat) → Nat → ParentDir → Option (Option Nat × ParentDir)
  | newBlknos, firstBlockNoOfRoot, s =>
    let blknrs := s.dirBlocks.takeWhile fun blknr => blknr ≠ 0
    let directBlkIdx := blknrs.length
    match if directBlkIdx = INDIRECT_BLOCKS then some firstBlockNoOfRoot else blknrs.getLast? with
    | none => none
    | some firstBlockNoOfRoot =>
      if !(io.devread firstBlockNoOfRoot && io.logJournal firstBlockNoOfRoot) then some (none, s)
      else
        match findVoid filename blksz (s.disk firstBlockNoOfRoot) ((s.disk firstBlockNoOfRoot).length + 1) 0 with
        | none => none
        | some none =>
          if directBlkIdx = INDIRECT_BLOCKS - 1 then some (none, s)
          else if INDIRECT_BLOCKS ≤ directBlkIdx then none
          else
            match newBlknos with
            | [] => none
            | none :: _ => some (none, { s with dirBlocks := s.dirBlocks.set directBlkIdx (2 ^ 32 - 1) })
            | some blknr :: newBlknos =>
              let s := s.addBlock blksz sectPerblk directBlkIdx blknr
              if io.putMetadata firstBlockNoOfRoot then
                updateParentDentry io blksz sectPerblk filename newInodeno newBlknos firstBlockNoOfRoot s
              else some (none, s)
        | some (some (dir, sizeofVoidSpace, buffer)) => makeDentry io blksz filename newInodeno firstBlockNoOfRoot s dir sizeofVoidSpace buffer
  termination_by newBlknos => newBlknos.length

end UBoot
