import UBoot.Ext4Blocks
import UBoot.Lib.RedoLog

/-!
# The journal of ext3 and ext4

fs/ext4/ext4_journal.c: recovery (`ext4fs_check_journal_state`, `recover_transaction`, `check_blknr_for_revoke`) and what U-Boot itself
puts into a journal (`ext4fs_log_journal`, `ext4fs_update_journal`), with `put_ext4` of fs/ext4/ext4_common.c and `total_sect` of
fs/ext4/dev.c. A word has 32 bits, and so have an `int` and a `long`; the words of the disk are little-endian, as the board is, and those
of the journal are big-endian. Inode 8 and `read_allocated_block`, which say where the blocks of the journal are, are parameters.
Memory can always be had.
-/

namespace UBoot

/-- `be32_to_cpu`, and `cpu_to_be32` as well. -/
def be32 (w : UInt32) : UInt32 :=
  UInt32.ofNat (w.toNat % 2 ^ 8 * 2 ^ 24 + w.toNat / 2 ^ 8 % 2 ^ 8 * 2 ^ 16 + w.toNat / 2 ^ 16 % 2 ^ 8 * 2 ^ 8 + w.toNat / 2 ^ 24)

/-! ## Blocks -/

/-- A buffer of a block. -/
abbrev ExtBlock := Nat → UInt32

def ExtDisk.blksz (d : ExtDisk) : Nat := 512 * 2 ^ d.log2Blksz

/-- `total_sect`: the product with the 512 bytes of a sector is one of two `ulong`. -/
def ExtDisk.totalSect (d : ExtDisk) : Nat := d.size * 512 % 2 ^ 32 / 512

/-- `ext4fs_devread(blknr * fs->sect_perblk, 0, fs->blksz, buf)`: the buffer, which held `old`. -/
def ExtDisk.readBlock (d : ExtDisk) (old : ExtBlock) (blknr : Nat) : ExtBlock :=
  match d.devread (d.sector blknr) with
  | some words => fun w => if w < d.perblock then words w else 0
  | none => old

/-- `blknr * fs->blksz`, a product of 32 bits. -/
def ExtDisk.offset (d : ExtDisk) (blknr : Nat) : Nat := blknr * d.blksz % 2 ^ 32

/-- `put_ext4` of `n` sectors to an offset at which a sector begins. -/
def ExtDisk.put (d : ExtDisk) (off n : Nat) (buf : ExtBlock) : ExtDisk :=
  if d.totalSect < off / 512 + n then d
  else { d with words := fun a => if off / 4 ≤ a ∧ a < off / 4 + 128 * n then buf (a - off / 4) else d.words a }

/-- `put_ext4` of a block. -/
def ExtDisk.putBlock (d : ExtDisk) (off : Nat) (buf : ExtBlock) : ExtDisk := d.put off (2 ^ d.log2Blksz) buf

/-- Read the superblock: two sectors from sector 2 on. -/
def ExtDisk.readSuper (d : ExtDisk) (old : ExtBlock) : ExtBlock :=
  if d.size ≤ 3 then old else fun w => if w < 256 then d.words (256 + w) else 0

/-- `ext4fs_read_inode` of inode 8, and `read_allocated_block`. -/
structure JournalMap where
  readInode : ExtDisk → Ext2Inode
  readAllocatedBlock : ExtDisk → Ext2Inode → Nat → Nat

/-! ## What the blocks of a journal hold -/

def EXT3_JOURNAL_MAGIC_NUMBER : UInt32 := 0xc03b3998
def EXT3_JOURNAL_DESCRIPTOR_BLOCK : UInt32 := 1
def EXT3_JOURNAL_COMMIT_BLOCK : UInt32 := 2
def EXT3_JOURNAL_REVOKE_BLOCK : UInt32 := 5
def EXT3_JOURNAL_FLAG_ESCAPE : UInt32 := 1
def EXT3_JOURNAL_FLAG_SAME_UUID : UInt32 := 2
def EXT3_JOURNAL_FLAG_LAST_TAG : UInt32 := 8
def EXT3_FEATURE_INCOMPAT_RECOVER : UInt32 := 4
def JBD2_FEATURE_COMPAT_CHECKSUM : UInt32 := 1

/-- `struct journal_header_t` -/
def hBlocktype (blk : ExtBlock) : UInt32 := be32 (blk 1)
def hSequence (blk : ExtBlock) : UInt32 := be32 (blk 2)

/-- `struct journal_superblock_t`, what is read of it. -/
def sFirst (jsb : ExtBlock) : UInt32 := be32 (jsb 5)
def sSequence (jsb : ExtBlock) : UInt32 := be32 (jsb 6)
def sStart (jsb : ExtBlock) : UInt32 := be32 (jsb 7)

/-- `feature_incompat` of the superblock. -/
def featureIncompat (sb : ExtBlock) : UInt32 := sb 24

/-- The `struct ext3_journal_block_tag` at an offset. -/
def tagBlock (blk : ExtBlock) (ofs : Nat) : UInt32 := be32 (blk (ofs / 4))
def tagFlags (blk : ExtBlock) (ofs : Nat) : UInt32 := be32 (blk (ofs / 4 + 1))

/-- Whether a flag is among the flags of a tag. -/
def hasFlag (flags flag : UInt32) : Bool := flags &&& flag ≠ 0

/-- The offset behind a tag, and behind the UUID that follows it unless it is the same one. -/
def nextOfs (flags : UInt32) (ofs : Nat) : Nat := if hasFlag flags EXT3_JOURNAL_FLAG_SAME_UUID then ofs + 8 else ofs + 8 + 16

/-- The block numbers of a revoke block; `r_count` is an `int`. -/
def revokeEntries (blk : ExtBlock) : List UInt32 :=
  let max := (be32 (blk 3)).toNat
  if max < 2 ^ 31 then (List.range ((max - 16 + 3) / 4)).map fun j => be32 (blk (4 + j)) else []

/-- `check_blknr_for_revoke`: the `int` `sequence_no` is compared with a `__u32`. -/
def checkBlknrForRevoke (revkBlkList : List ExtBlock) (blknr sequenceNo : UInt32) : Bool :=
  revkBlkList.any fun blk => decide (sequenceNo < hSequence blk) && (revokeEntries blk).contains blknr

/-! ## Recovery -/

/-- What recovery works on: the disk, the superblock in memory, and the list of revoke blocks. -/
structure JournalFs where
  disk : ExtDisk
  sb : ExtBlock
  revkBlkList : List ExtBlock

inductive RecoveryFlag where
  | scan | recover
  deriving DecidableEq

/-- The loop over the tags in `recover_transaction`; `i` is the block of the journal before the data of the tag. -/
def recoverTags (m : JournalMap) (inode : Ext2Inode) (revkBlkList : List ExtBlock) (jdb : ExtBlock) :
    Nat → Nat → Nat → ExtBlock → ExtDisk → ExtDisk
  | 0, _, _, _, d => d
  | fuel + 1, ofs, i, metadata, d =>
    if d.blksz < ofs + 8 then d
    else
      let flags := tagFlags jdb ofs
      let skip := revkBlkList ≠ [] && checkBlknrForRevoke revkBlkList (tagBlock jdb ofs) (hSequence jdb)
      let metadata' := if skip then metadata else d.readBlock metadata (m.readAllocatedBlock d inode (i + 1))
      let d' := if skip then d else d.putBlock (d.offset (tagBlock jdb ofs).toNat) metadata'
      if hasFlag flags EXT3_JOURNAL_FLAG_LAST_TAG then d'
      else recoverTags m inode revkBlkList jdb fuel (nextOfs flags ofs) (i + 1) metadata' d'

def recoverTransaction (m : JournalMap) (revkBlkList : List ExtBlock) (prevDescLogicalNo : Nat) (d : ExtDisk) : ExtDisk :=
  let inode := m.readInode d
  let jdb := d.readBlock (fun _ => 0) (m.readAllocatedBlock d inode prevDescLogicalNo)
  recoverTags m inode revkBlkList jdb d.blksz 12 prevDescLogicalNo (fun _ => 0) d

/-- The loop over the tags in `ext4fs_check_journal_state`: the value of `i` behind it. -/
def scanTags (blksz : Nat) (jdb : ExtBlock) : Nat → Nat → Nat → Nat
  | 0, _, i => i
  | fuel + 1, ofs, i =>
    if blksz < ofs + 8 then i
    else
      let flags := tagFlags jdb ofs
      if hasFlag flags EXT3_JOURNAL_FLAG_LAST_TAG then i + 1 else scanTags blksz jdb fuel (nextOfs flags ofs) (i + 1)

/-- The variables of `ext4fs_check_journal_state`; `running` is that `transaction_state` is `TRANSACTION_RUNNING`. -/
structure JournalScan where
  i : Nat
  dbFound : Bool
  running : Bool
  prevDesc : Nat
  currDesc : Nat
  jsb : ExtBlock
  fs : JournalFs

/-- What a round of the loop comes to: the next one, a `break`, or `return -1`. -/
inductive JournalStep where
  | next (s : JournalScan)
  | stop
  | fail

/-- The branch for a descriptor block. -/
def descriptorStep (jdb : ExtBlock) (s : JournalScan) : JournalStep :=
  if s.running then .fail
  else
    .next { s with
      i := scanTags s.fs.disk.blksz jdb s.fs.disk.blksz 12 s.i + 1
      dbFound := true
      running := true
      currDesc := s.i }

/-- The branch for a commit block. -/
def commitStep (m : JournalMap) (flag : RecoveryFlag) (s : JournalScan) : JournalStep :=
  let ends := s.running || !s.dbFound
  .next {
    i := if ends then s.i + 1 else s.i
    dbFound := false
    running := if ends then false else s.running
    prevDesc := s.currDesc
    currDesc := s.currDesc
    jsb := if ends then Function.update s.jsb 6 (be32 (sSequence s.jsb + 1)) else s.jsb
    fs :=
      if flag = .recover ∧ s.dbFound then { s.fs with disk := recoverTransaction m s.fs.revkBlkList s.currDesc s.fs.disk } else s.fs }

/-- The branch for a revoke block. -/
def revokeStep (flag : RecoveryFlag) (jdb : ExtBlock) (s : JournalScan) : JournalStep :=
  .next { s with
    i := s.i + 1
    fs := if flag = .scan then { s.fs with revkBlkList := s.fs.revkBlkList ++ [jdb] } else s.fs }

/-- A round of the loop of `ext4fs_check_journal_state`. Each of the four branches begins with the test of the sequence number. -/
def journalStep (m : JournalMap) (inode : Ext2Inode) (flag : RecoveryFlag) (s : JournalScan) : JournalStep :=
  let jdb := s.fs.disk.readBlock (fun _ => 0) (m.readAllocatedBlock s.fs.disk inode s.i)
  if hSequence jdb ≠ sSequence s.jsb then .stop
  else if hBlocktype jdb = EXT3_JOURNAL_DESCRIPTOR_BLOCK then descriptorStep jdb s
  else if hBlocktype jdb = EXT3_JOURNAL_COMMIT_BLOCK then commitStep m flag s
  else if hBlocktype jdb = EXT3_JOURNAL_REVOKE_BLOCK then revokeStep flag jdb s
  else .next s

/-- Why there is no result: `-1`, or the loop has not ended. -/
inductive JournalFault where
  | failed | loop
  deriving DecidableEq

/-- Rounds of a loop, until it ends. -/
def journalRounds (round : JournalScan → JournalStep) : Nat → JournalScan → Except JournalFault JournalScan
  | 0, _ => .error .loop
  | fuel + 1, s =>
    match round s with
    | .next s => journalRounds round fuel s
    | .stop => .ok s
    | .fail => .error .failed

/-- The loop of `ext4fs_check_journal_state`. -/
def journalLoop (m : JournalMap) (inode : Ext2Inode) (flag : RecoveryFlag) : Nat → JournalScan → Except JournalFault JournalScan :=
  journalRounds (journalStep m inode flag)

/-- The end of `ext4fs_check_journal_state` in the second pass. -/
def finishRecovery (m : JournalMap) (inode : Ext2Inode) (jsb : ExtBlock) (fs : JournalFs) : JournalFs :=
  let jsb := Function.update jsb 7 (be32 1)
  let jsb := Function.update jsb 6 (be32 (sSequence jsb + 1))
  let sb := fs.disk.readSuper fs.sb
  let sb := Function.update sb 24 (featureIncompat sb ||| EXT3_FEATURE_INCOMPAT_RECOVER)
  let d := fs.disk.put 1024 2 sb
  let blknr := m.readAllocatedBlock d inode 0
  { disk := d.putBlock (d.offset blknr) jsb, sb := d.readSuper sb, revkBlkList := [] }

def ext4fsCheckJournalState (m : JournalMap) (fuel : Nat) (flag : RecoveryFlag) (fs : JournalFs) : Except JournalFault JournalFs := do
  let inode := m.readInode fs.disk
  let jsb := fs.disk.readBlock (fun _ => 0) (m.readAllocatedBlock fs.disk inode 0)
  let finish := fun jsb fs => if flag = .recover then finishRecovery m inode jsb fs else fs
  if hasFlag (featureIncompat fs.sb) EXT3_FEATURE_INCOMPAT_RECOVER = false ∨ sStart jsb = 0 then return finish jsb fs
  let jsb := Function.update jsb 9 (jsb 9 ||| be32 JBD2_FEATURE_COMPAT_CHECKSUM)
  let s ← journalLoop m inode flag fuel
    { i := (sFirst jsb).toNat, dbFound := false, running := false, prevDesc := 0, currDesc := 0, jsb := jsb, fs := fs }
  return finish s.jsb s.fs

/-! ## The journal that U-Boot writes -/

def MAX_JOURNAL_ENTRIES : Nat := 100

/-- `struct journal_log` -/
structure JournalEntry where
  buf : ExtBlock
  blknr : UInt32

/-- The entries of `journal_ptr`, which is filled from the front: those that the loops reach, up to a `blknr` of `-1`. -/
def usedEntries (journalPtr : List JournalEntry) : List JournalEntry := journalPtr.takeWhile fun e => e.blknr ≠ 0xffffffff

def ext4fsLogJournal (journalPtr : List JournalEntry) (journalBuffer : ExtBlock) (blknr : UInt32) : List JournalEntry :=
  if (usedEntries journalPtr).any fun e => e.blknr = blknr then journalPtr else journalPtr ++ [⟨journalBuffer, blknr⟩]

/-- The words that the loop of `update_descriptor_block` puts behind the header. -/
def tagWords (entries : List JournalEntry) : List UInt32 :=
  entries.flatMap fun e => [be32 e.blknr, be32 EXT3_JOURNAL_FLAG_SAME_UUID]

/-- `update_descriptor_block`: none when there is no last entry, or a tag is put outside the buffer. -/
def updateDescriptorBlock (m : JournalMap) (journalPtr : List JournalEntry) (blknr : Nat) (d : ExtDisk) : Option ExtDisk :=
  let jsb := d.readBlock (fun _ => 0) (m.readAllocatedBlock d (m.readInode d) 0)
  let header := [be32 EXT3_JOURNAL_MAGIC_NUMBER, be32 EXT3_JOURNAL_DESCRIPTOR_BLOCK, jsb 6]
  let entries := usedEntries journalPtr
  match entries.getLast? with
  | none => none
  | some last =>
    -- the last tag is put over what the loop put there
    let words := header ++ (tagWords entries).take (2 * (entries.length - 1)) ++ [be32 last.blknr, be32 EXT3_JOURNAL_FLAG_LAST_TAG]
    if d.blksz < 4 * words.length then none else some (d.putBlock (d.offset blknr) fun w => words[w]?.getD 0)

def updateCommitBlock (m : JournalMap) (blknr : Nat) (d : ExtDisk) : ExtDisk :=
  let jsb := d.readBlock (fun _ => 0) (m.readAllocatedBlock d (m.readInode d) 0)
  let words := [be32 EXT3_JOURNAL_MAGIC_NUMBER, be32 EXT3_JOURNAL_COMMIT_BLOCK, jsb 6]
  d.putBlock (d.offset blknr) fun w => words[w]?.getD 0

/-- The loop of `ext4fs_update_journal` over the entries, whose offsets are products of 64 bits. -/
def putEntries (m : JournalMap) (inode : Ext2Inode) : List JournalEntry → Nat → ExtDisk → ExtDisk
  | [], _, d => d
  | e :: entries, jrnlBlkIdx, d =>
    putEntries m inode entries (jrnlBlkIdx + 1) (d.putBlock (m.readAllocatedBlock d inode jrnlBlkIdx * d.blksz) e.buf)

def ext4fsUpdateJournal (m : JournalMap) (journalPtr : List JournalEntry) (jrnlBlkIdx : Nat) (d : ExtDisk) : Option (ExtDisk × Nat) := do
  let inode := m.readInode d
  let entries := usedEntries journalPtr
  let d ← updateDescriptorBlock m journalPtr (m.readAllocatedBlock d inode jrnlBlkIdx) d
  let d := putEntries m inode entries (jrnlBlkIdx + 1) d
  let idx := jrnlBlkIdx + 1 + entries.length
  return (updateCommitBlock m (m.readAllocatedBlock d inode idx) d, idx + 1)

/-!
## What a journal holds

A journal is a log of transactions. This module says which blocks hold a log, and what the log means: a transaction revokes blocks and
writes images of blocks. Nothing here is in the source.
-/

section

open Lib

/-! ## Blocks of a disk -/

/-- The words of a block of the file system. -/
def ExtDisk.block (d : ExtDisk) (b : Nat) : ExtBlock := fun w => if w < d.perblock then d.words (d.perblock * b + w) else 0

/-- The block lies in the partition. -/
def ExtDisk.Has (d : ExtDisk) (b : Nat) : Prop := b * 2 ^ d.log2Blksz + 2 ^ d.log2Blksz ≤ d.size

/-- The first sector of the block is an `int`. -/
def ExtDisk.Addressable (d : ExtDisk) (b : Nat) : Prop := b * 2 ^ d.log2Blksz < 2 ^ 31

/-- The block lies in the sectors that `put_ext4` goes by. -/
def ExtDisk.Writable (d : ExtDisk) (b : Nat) : Prop := b * 2 ^ d.log2Blksz + 2 ^ d.log2Blksz ≤ d.totalSect

/-- The block with the superblock, which begins at byte 1024, and the word of this block that is `feature_incompat`. -/
def ExtDisk.superBlock (d : ExtDisk) : Nat := 256 / d.perblock
def ExtDisk.featureWord (d : ExtDisk) : Nat := 256 % d.perblock + 24

structure ExtDisk.Becomes (d d' : ExtDisk) (content : Nat → ExtBlock) : Prop where
  size : d'.size = d.size
  log2Blksz : d'.log2Blksz = d.log2Blksz
  block : d'.block = content

/-- The disks differ in the blocks of a set only. -/
def ExtDisk.SameBut (blocks : Nat → Prop) (d d' : ExtDisk) : Prop :=
  d'.size = d.size ∧ d'.log2Blksz = d.log2Blksz ∧ ∀ b, ¬blocks b → d'.block b = d.block b

def JournalMap.block (m : JournalMap) (d : ExtDisk) (i : Nat) : Nat := m.readAllocatedBlock d (m.readInode d) i

/-- Inode 8 and the block map of the journal are what they are on `d`. -/
structure JournalMap.Stays (m : JournalMap) (d d' : ExtDisk) : Prop where
  inode : m.readInode d' = m.readInode d
  map : ∀ i, m.readAllocatedBlock d' (m.readInode d) i = m.block d i

/-- They are while blocks of `d'` are written, one after the other. -/
def JournalMap.StaysAlong (m : JournalMap) (d d' : ExtDisk) (ws : List (Nat × ExtBlock)) : Prop :=
  ∀ ws' d'', ws' <+: ws → d'.Becomes d'' (applyWrites d'.block ws') → m.Stays d d''

/-- The disk with the flag in its superblock. -/
def ExtDisk.flagged (d : ExtDisk) : ExtDisk :=
  if d.totalSect < 4 then d
  else { d with words := Function.update d.words 280 (d.words 280 ||| EXT3_FEATURE_INCOMPAT_RECOVER) }

/-! ## Transactions -/

/-- A tag of a descriptor block, with the block of the journal that belongs to it. -/
structure JournalTag where
  block : UInt32
  escape : Bool
  image : ExtBlock

/-- What a tag is the image of: an escaped image has lost its first word, which was the magic number. -/
def JournalTag.home (tag : JournalTag) : ExtBlock :=
  if tag.escape then Function.update tag.image 0 (be32 EXT3_JOURNAL_MAGIC_NUMBER) else tag.image

/-- A transaction: the block numbers of each of its revoke blocks, and its tags. -/
structure Transaction where
  revokes : List (List UInt32)
  tags : List JournalTag

/-- The meaning of a transaction. -/
def Transaction.txn (t : Transaction) : LogTxn Nat ExtBlock where
  revokes := t.revokes.flatten.map UInt32.toNat
  writes := t.tags.map fun tag => (tag.block.toNat, tag.home)

/-- How many blocks a transaction takes. -/
def Transaction.size (t : Transaction) : Nat := t.revokes.length + t.tags.length + 2

/-- A log: the committed transactions, and one that is not complete: it may have revoke blocks, and then a descriptor block. -/
structure JournalLog where
  committed : List Transaction
  revokes : List (List UInt32)
  tags : Option (List JournalTag)

def JournalLog.txns (log : JournalLog) : List (LogTxn Nat ExtBlock) := log.committed.map Transaction.txn

/-- How many blocks a log takes, up to the block with another sequence number. -/
def JournalLog.size (log : JournalLog) : Nat :=
  (log.committed.map Transaction.size).sum + log.revokes.length + (log.tags.elim 0 fun tags => tags.length + 1)

/-- The revoke blocks of transactions, as sequence numbers and block numbers. -/
def revokeRecords : UInt32 → List Transaction → List (UInt32 × List UInt32)
  | _, [] => []
  | seq, t :: ts => (t.revokes.map fun names => (seq, names)) ++ revokeRecords (seq + 1) ts

/-- The revoke blocks of a log whose first transaction has the number `seq`. -/
def JournalLog.records (log : JournalLog) (seq : UInt32) : List (UInt32 × List UInt32) :=
  revokeRecords seq log.committed ++ log.revokes.map fun names => (seq + UInt32.ofNat log.committed.length, names)

/-- Some revoke block with a greater number than `seq` names the block. -/
def revokedAfter (records : List (UInt32 × List UInt32)) (seq : UInt32) (b : Nat) : Bool :=
  records.any fun r => decide (seq < r.1) && (r.2.map UInt32.toNat).contains b

/-! ## Which blocks hold a log -/

/-- The tags from an offset of a descriptor block on. They end with the last tag, or with the block. -/
inductive TagsAt (blksz : Nat) (blk : ExtBlock) : Nat → List JournalTag → Prop where
  | full {ofs : Nat} (h : blksz < ofs + 8) : TagsAt blksz blk ofs []
  | last {ofs : Nat} {tag : JournalTag} (hofs : ofs + 8 ≤ blksz) (hblock : tagBlock blk ofs = tag.block)
      (hescape : hasFlag (tagFlags blk ofs) EXT3_JOURNAL_FLAG_ESCAPE = tag.escape)
      (hlast : hasFlag (tagFlags blk ofs) EXT3_JOURNAL_FLAG_LAST_TAG) : TagsAt blksz blk ofs [tag]
  | more {ofs : Nat} {tag : JournalTag} {tags : List JournalTag} (hofs : ofs + 8 ≤ blksz) (hblock : tagBlock blk ofs = tag.block)
      (hescape : hasFlag (tagFlags blk ofs) EXT3_JOURNAL_FLAG_ESCAPE = tag.escape)
      (hlast : hasFlag (tagFlags blk ofs) EXT3_JOURNAL_FLAG_LAST_TAG = false)
      (htags : TagsAt blksz blk (nextOfs (tagFlags blk ofs) ofs) tags) : TagsAt blksz blk ofs (tag :: tags)

structure IsRevoke (blksz : Nat) (seq : UInt32) (names : List UInt32) (blk : ExtBlock) : Prop where
  blocktype : hBlocktype blk = EXT3_JOURNAL_REVOKE_BLOCK
  sequence : hSequence blk = seq
  count : (be32 (blk 3)).toNat = 16 + 4 * names.length
  fits : 16 + 4 * names.length ≤ blksz
  names : ∀ k b, names[k]? = some b → be32 (blk (4 + k)) = b

structure IsDescriptor (blksz : Nat) (seq : UInt32) (tags : List JournalTag) (blk : ExtBlock) : Prop where
  blocktype : hBlocktype blk = EXT3_JOURNAL_DESCRIPTOR_BLOCK
  sequence : hSequence blk = seq
  tags : TagsAt blksz blk 12 tags

structure IsCommit (seq : UInt32) (blk : ExtBlock) : Prop where
  blocktype : hBlocktype blk = EXT3_JOURNAL_COMMIT_BLOCK
  sequence : hSequence blk = seq

section Layout

variable (blksz : Nat) (j : Nat → ExtBlock)

/-- Revoke blocks, from block `i` of the journal on. -/
def RevokesAt (seq : UInt32) : Nat → List (List UInt32) → Prop
  | _, [] => True
  | i, names :: revokes => IsRevoke blksz seq names (j i) ∧ RevokesAt seq (i + 1) revokes

/-- The blocks with the images. -/
def ImagesAt : Nat → List JournalTag → Prop
  | _, [] => True
  | i, tag :: tags => j i = tag.image ∧ ImagesAt (i + 1) tags

/-- A committed transaction. -/
structure TransactionAt (seq : UInt32) (i : Nat) (t : Transaction) : Prop where
  revokes : RevokesAt blksz j seq i t.revokes
  descriptor : IsDescriptor blksz seq t.tags (j (i + t.revokes.length))
  images : ImagesAt j (i + t.revokes.length + 1) t.tags
  commit : IsCommit seq (j (i + t.revokes.length + 1 + t.tags.length))

/-- What is behind the committed transactions. -/
structure PendingAt (seq : UInt32) (i : Nat) (names : List (List UInt32)) (tags : Option (List JournalTag)) : Prop where
  revokes : RevokesAt blksz j seq i names
  descriptor : ∀ ts, tags = some ts → IsDescriptor blksz seq ts (j (i + names.length))
  ends : hSequence (j (i + names.length + (tags.elim 0 fun ts => ts.length + 1))) ≠ seq

/-- The committed transactions of a log, and what is behind them. -/
def LogAt (names : List (List UInt32)) (tags : Option (List JournalTag)) : UInt32 → Nat → List Transaction → Prop
  | seq, i, [] => PendingAt blksz j seq i names tags
  | seq, i, t :: ts => TransactionAt blksz j seq i t ∧ LogAt names tags (seq + 1) (i + t.size) ts

end Layout

/-! ## A disk with a log -/

/-- The indices of the blocks of the journal that a log takes, with the journal superblock. -/
def JournalLog.Uses (log : JournalLog) (first i : Nat) : Prop := i = 0 ∨ first ≤ i ∧ i ≤ first + log.size

/-- A tag of a committed transaction names the block. -/
def JournalLog.Names (log : JournalLog) (b : Nat) : Prop := ∃ t ∈ log.committed, ∃ tag ∈ t.tags, tag.block.toNat = b

/-- The images of the committed transactions that no later one revokes, in their order. -/
def JournalLog.writes (log : JournalLog) : List (Nat × ExtBlock) := replayed (fun n b => revokedIn (log.txns.drop (n + 1)) b) 0 log.txns

/-- The journal is where it is on `d` while a replay writes to `d'`, and when the flag is put into the superblock. -/
structure JournalMap.Steady (m : JournalMap) (d d' : ExtDisk) (log : JournalLog) : Prop where
  replay : m.StaysAlong d d' log.writes
  flag : ∀ d'', d'.Becomes d'' (applyWrites d'.block log.writes) → m.Stays d d''.flagged

/-- The journal superblock. -/
def JournalMap.super (m : JournalMap) (d : ExtDisk) : ExtBlock := d.block (m.block d 0)

/-- Recovery is needed, and the journal of the disk holds a log from `s_first` and `s_sequence` on. -/
structure HoldsLog (m : JournalMap) (fs : JournalFs) (log : JournalLog) : Prop where
  log2Blksz : 1 ≤ fs.disk.log2Blksz ∧ fs.disk.log2Blksz ≤ 7
  recover : hasFlag (featureIncompat fs.sb) EXT3_FEATURE_INCOMPAT_RECOVER
  start : sStart (m.super fs.disk) ≠ 0
  revkBlkList : fs.revkBlkList = []
  has : ∀ i, log.Uses (sFirst (m.super fs.disk)).toNat i → fs.disk.Has (m.block fs.disk i)
  apart : ∀ i, log.Uses (sFirst (m.super fs.disk)).toNat i → m.block fs.disk i ≠ fs.disk.superBlock ∧ ¬log.Names (m.block fs.disk i)
  log : LogAt fs.disk.blksz (fun i => fs.disk.block (m.block fs.disk i)) log.revokes log.tags (sSequence (m.super fs.disk))
    (sFirst (m.super fs.disk)).toNat log.committed

/-- Recovery can do with the log: it reaches the blocks of the journal and those that it is to write, a revoke block that it heeds is one of
a later committed transaction, and the images are what they look like. -/
structure RecoveryFits (m : JournalMap) (d : ExtDisk) (log : JournalLog) : Prop where
  steady : m.Steady d d log
  addressable : ∀ i, log.Uses (sFirst (m.super d)).toNat i → d.Addressable (m.block d i)
  super : d.Writable (m.block d 0)
  revokes : ∀ n t, log.committed[n]? = some t → ∀ tag ∈ t.tags,
    revokedAfter (log.records (sSequence (m.super d))) (sSequence (m.super d) + UInt32.ofNat n) tag.block.toNat =
      revokedIn (log.txns.drop (n + 1)) tag.block.toNat
  tags : ∀ n t, log.committed[n]? = some t → ∀ tag ∈ t.tags, revokedIn (log.txns.drop (n + 1)) tag.block.toNat = false →
    d.Writable tag.block.toNat ∧ tag.escape = false ∧
      (tag.block.toNat = d.superBlock → hasFlag (tag.image d.featureWord) EXT3_FEATURE_INCOMPAT_RECOVER)

end

end UBoot
