import UBoot.Ext4Journal
import UBoot.Lib.Machine

/-!
# What recovery reads of the blocks of a journal

fs/ext4/ext4_journal.c once more: the offsets at which the loops over a descriptor block and over the revoke blocks read, and the states that
the loop of `ext4fs_check_journal_state` comes to.
-/

namespace UBoot

/-! ## Tags -/

/-- The loop over the tags, which has the same form in `ext4fs_check_journal_state` and in `recover_transaction`: the offsets of the tags that
it reads, if it ends within some rounds. -/
def tagOffsets (blksz : Nat) (jdb : ExtBlock) : Nat → Nat → Option (List Nat)
  | 0, _ => none
  | fuel + 1, ofs =>
    if blksz < ofs + 8 then some []
    else if hasFlag (tagFlags jdb ofs) EXT3_JOURNAL_FLAG_LAST_TAG then some [ofs]
    else (tagOffsets blksz jdb fuel (nextOfs (tagFlags jdb ofs) ofs)).map (ofs :: ·)

/-- The loop over the tags of a block reads those at these offsets, and ends. -/
def ReadsTags (blksz : Nat) (jdb : ExtBlock) (ofss : List Nat) : Prop := ∃ fuel, tagOffsets blksz jdb fuel 12 = some ofss

/-- The loop over the tags of a block ends, and each tag that it reads is in the buffer. -/
def TagsInside (blksz : Nat) (jdb : ExtBlock) : Prop := ∃ ofss, ReadsTags blksz jdb ofss ∧ ∀ ofs ∈ ofss, ofs + 8 ≤ blksz

/-! ## Revoke blocks -/

/-- `r_count`, as the word that it is. -/
def rCount (blk : ExtBlock) : Nat := (be32 (blk 3)).toNat

/-- The loop over the entries of a revoke block: the offsets that it reads at, until it finds the block. -/
def entryReads (blk : ExtBlock) (blknr : UInt32) : Nat → Nat → List Nat
  | 0, _ => []
  | n + 1, offset => if be32 (blk (offset / 4)) = blknr then [offset] else offset :: entryReads blk blknr n (offset + 4)

/-- The revoke blocks that `check_blknr_for_revoke` searches, the one that it finds the block in among them. -/
def searchedBlocks (blknr sequenceNo : UInt32) : List ExtBlock → List ExtBlock
  | [] => []
  | blk :: blks =>
    if sequenceNo < hSequence blk then
      if (revokeEntries blk).contains blknr then [blk] else blk :: searchedBlocks blknr sequenceNo blks
    else searchedBlocks blknr sequenceNo blks

/-- The offsets at which `check_blknr_for_revoke` reads entries. -/
def revokeReads (revkBlkList : List ExtBlock) (blknr sequenceNo : UInt32) : List Nat :=
  (searchedBlocks blknr sequenceNo revkBlkList).flatMap fun blk => entryReads blk blknr (revokeEntries blk).length 16

/-- The count of a revoke block is not above its size, or is a negative `int`, or the block is named by an entry inside. -/
def CountFits (blksz : Nat) (blknr : UInt32) (blk : ExtBlock) : Prop :=
  rCount blk ≤ blksz ∨ 2 ^ 31 ≤ rCount blk ∨ blknr ∈ (revokeEntries blk).take ((blksz - 16) / 4)

/-! ## The loop over the blocks -/

/-- The block of the journal that a round looks at. -/
def JournalScan.jdb (m : JournalMap) (inode : Ext2Inode) (s : JournalScan) : ExtBlock :=
  s.fs.disk.readBlock (fun _ => 0) (m.readAllocatedBlock s.fs.disk inode s.i)

/-- The block has the sequence number that is expected. -/
def JournalScan.Expected (m : JournalMap) (inode : Ext2Inode) (s : JournalScan) : Prop := hSequence (s.jdb m inode) = sSequence s.jsb

/-- The three types of block that the loop knows. -/
def KnownType (blk : ExtBlock) : Prop :=
  hBlocktype blk = EXT3_JOURNAL_DESCRIPTOR_BLOCK ∨ hBlocktype blk = EXT3_JOURNAL_COMMIT_BLOCK ∨ hBlocktype blk = EXT3_JOURNAL_REVOKE_BLOCK

/-- A descriptor block in an open transaction, at which `ext4fs_check_journal_state` returns. -/
def JournalScan.Reopens (m : JournalMap) (inode : Ext2Inode) (s : JournalScan) : Prop :=
  hBlocktype (s.jdb m inode) = EXT3_JOURNAL_DESCRIPTOR_BLOCK ∧ s.running

/-- The round is to replay a transaction. -/
def JournalScan.Replays (m : JournalMap) (inode : Ext2Inode) (flag : RecoveryFlag) (s : JournalScan) : Prop :=
  s.Expected m inode ∧ hBlocktype (s.jdb m inode) = EXT3_JOURNAL_COMMIT_BLOCK ∧ flag = .recover ∧ s.dbFound

/-- The descriptor block that `recover_transaction` reads. -/
def JournalScan.descriptor (m : JournalMap) (s : JournalScan) : ExtBlock :=
  s.fs.disk.readBlock (fun _ => 0) (m.readAllocatedBlock s.fs.disk (m.readInode s.fs.disk) s.currDesc)

/-- What a round comes to, as the round of a machine: the loop goes on, ends in its state, or `-1` is returned. -/
def JournalStep.outcome (s : JournalScan) : JournalStep → Option (JournalScan ⊕ JournalScan)
  | .next s' => some (.inr s')
  | .stop => some (.inl s)
  | .fail => none

/-- A round of the loop. -/
def checkRound (m : JournalMap) (inode : Ext2Inode) (flag : RecoveryFlag) (s : JournalScan) : Option (JournalScan ⊕ JournalScan) :=
  (journalStep m inode flag s).outcome s

/-- The journal superblock that `ext4fs_check_journal_state` reads. -/
def readJsb (m : JournalMap) (fs : JournalFs) : ExtBlock :=
  fs.disk.readBlock (fun _ => 0) (m.readAllocatedBlock fs.disk (m.readInode fs.disk) 0)

/-- The state before the loop. -/
def scanStart (m : JournalMap) (fs : JournalFs) : JournalScan :=
  let jsb := readJsb m fs
  let jsb := Function.update jsb 9 (jsb 9 ||| be32 JBD2_FEATURE_COMPAT_CHECKSUM)
  { i := (sFirst jsb).toNat, dbFound := false, running := false, prevDesc := 0, currDesc := 0, jsb := jsb, fs := fs }

/-- There is something to recover, so that the loop is entered. -/
def NeedsRecovery (m : JournalMap) (fs : JournalFs) : Prop :=
  hasFlag (featureIncompat fs.sb) EXT3_FEATURE_INCOMPAT_RECOVER ∧ sStart (readJsb m fs) ≠ 0

/-- The loop comes to a state. -/
def Scans (m : JournalMap) (flag : RecoveryFlag) (fs : JournalFs) (s : JournalScan) : Prop :=
  NeedsRecovery m fs ∧ Lib.Comes (checkRound m (m.readInode fs.disk) flag) (scanStart m fs) s

end UBoot
