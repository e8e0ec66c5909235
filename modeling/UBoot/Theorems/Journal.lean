import Mathlib
import UBoot.Lemmas.JournalWrite

/-!
# Recovery replays the committed transactions

Statements about `ext4fs_check_journal_state`, called with `SCAN` and then with `RECOVER`, on a disk whose journal holds a log.
-/

namespace UBoot

open List Option

section

open Lib JournalAux

/-- The disk after recovery: what the log leaves is there, and a block for which it leaves nothing is as it was, outside the journal and the
superblock. -/
structure Replayed (m : JournalMap) (d : ExtDisk) (log : JournalLog) (d' : ExtDisk) : Prop where
  named : ∀ b image, logResult log.txns b = some image → d'.block b = image
  others : ∀ b, (∀ i, log.Uses (sFirst (m.super d)).toNat i → m.block d i ≠ b) → b ≠ d.superBlock → logResult log.txns b = none →
    d'.block b = d.block b

/-- A map that goes by the disk: block 2 names the block with inode 8, which names the first block of the journal. -/
def tableMap : JournalMap := ⟨fun d => ⟨0, fun _ => d.block (d.block 2 0).toNat 0⟩, fun _ inode i => (inode.block 0).toNat + i⟩

/-- The table is in block 5, and the journal begins with block 10. -/
def HasTable (d : ExtDisk) : Prop := d.block 2 0 = 5 ∧ d.block 5 0 = 10

section Table

variable {d d' : ExtDisk}
variable {ws : List (Nat × ExtBlock)}

theorem HasTable.readInode (h : HasTable d) : tableMap.readInode d = ⟨0, fun _ => 10⟩ := by
  change (⟨0, fun _ => d.block (d.block 2 0).toNat 0⟩ : Ext2Inode) = _
  rw [h.1, show (5 : UInt32).toNat = 5 from rfl, h.2]

theorem HasTable.block (h : HasTable d) (i : Nat) : tableMap.block d i = 10 + i := by
  change ((tableMap.readInode d).block 0).toNat + i = 10 + i
  rw [h.readInode]
  rfl

theorem HasTable.stays (h : HasTable d) (h' : HasTable d') : tableMap.Stays d d' :=
  ⟨h'.readInode.trans h.readInode.symm, fun _ => rfl⟩

/-- A write that keeps what the map reads. -/
def KeepsTable (w : Nat × ExtBlock) : Prop := (w.1 = 2 → w.2 0 = 5) ∧ (w.1 = 5 → w.2 0 = 10)

theorem HasTable.becomes (h : HasTable d) (hws : ∀ w ∈ ws, KeepsTable w)
    (hd : d.Becomes d' (applyWrites d.block ws)) : HasTable d' := by
  unfold HasTable
  rw [hd.block, applyWrites_apply, applyWrites_apply]
  constructor
  · cases hlast : lastWrite ws 2 with
    | none => exact h.1
    | some v => exact (hws _ (mem_of_lastWrite hlast)).1 rfl
  · cases hlast : lastWrite ws 5 with
    | none => exact h.2
    | some v => exact (hws _ (mem_of_lastWrite hlast)).2 rfl

theorem HasTable.staysAlong (h : HasTable d) (h' : HasTable d') (hws : ∀ w ∈ ws, KeepsTable w) :
    tableMap.StaysAlong d d' ws := fun _ _ hpre hd =>
  h.stays (h'.becomes (fun w hw => hws w (hpre.subset hw)) hd)

theorem HasTable.flagged (h : HasTable d) (hlog : d.log2Blksz = 1) : HasTable d.flagged := by
  have hsuper : d.superBlock = 1 := by
    unfold ExtDisk.superBlock ExtDisk.perblock
    rw [hlog]
    rfl
  have hother := (flagged_block d (Nat.le_of_eq hlog.symm)).1.2.2
  rw [hsuper] at hother
  unfold HasTable
  rw [hother 2 (by decide), hother 5 (by decide)]
  exact h

theorem HasTable.steady {log : JournalLog} (h : HasTable d) (h' : HasTable d') (hlog : d'.log2Blksz = 1)
    (hkeeps : ∀ t ∈ log.committed, ∀ tag ∈ t.tags, KeepsTable (tag.block.toNat, tag.home)) : tableMap.Steady d d' log := by
  have hws : ∀ w ∈ log.writes, KeepsTable w := by
    intro w hw
    obtain ⟨t, ht, hw⟩ := mem_replayed hw
    obtain ⟨t, htxn, rfl⟩ := mem_map.1 ht
    obtain ⟨tag, htag, rfl⟩ := mem_map.1 hw
    exact hkeeps t htxn tag htag
  exact ⟨h.staysAlong h' hws, fun d'' hd => h.stays ((h'.becomes hws hd).flagged (hd.log2Blksz.trans hlog))⟩

end Table
variable {x y : UInt32}


/-- The first words of the blocks of a disk: the map, and a journal that begins with block 10: its superblock, a transaction with tags that name
the blocks of the map and block 40, one that revokes block 40 and has a tag that names block `x`, and an incomplete one that revokes block
`y`. -/
def journalWords (x y : UInt32) : Nat → List UInt32
  | 2 => [5]
  | 5 => [10]
  | 10 => [0, 0, 0, 0, 0, be32 1, be32 1, be32 1]
  | 11 => [0, be32 1, be32 1, be32 2, be32 2, be32 5, be32 2, be32 40, be32 10]
  | 12 => [5, 1]
  | 13 => [10, 1]
  | 14 => [7]
  | 15 => [0, be32 2, be32 1]
  | 16 => [0, be32 5, be32 2, be32 20, be32 40]
  | 17 => [0, be32 1, be32 2, be32 x, be32 10]
  | 18 => [7]
  | 19 => [0, be32 2, be32 2]
  | 20 => [0, be32 5, be32 3, be32 20, be32 y]
  | _ => []

/-- A disk with blocks of 1024 bytes, and this journal. -/
def journalDisk (x y : UInt32) : ExtDisk where
  words a := (journalWords x y (a / 256))[a % 256]?.getD 0
  size := 2 ^ 24 - 2
  log2Blksz := 1

def journalFs (x y : UInt32) : JournalFs := ⟨journalDisk x y, fun _ => 4, []⟩

/-- The tag that names `b` and is followed by block `i` of the disk. -/
def journalTag (x y b : UInt32) (i : Nat) : JournalTag := ⟨b, false, (journalDisk x y).block i⟩

def journalLog (x y : UInt32) : JournalLog :=
  ⟨[⟨[], [journalTag x y 2 12, journalTag x y 5 13, journalTag x y 40 14]⟩, ⟨[[40]], [journalTag x y x 18]⟩], [[y]], none⟩

theorem journalDisk_block (x y : UInt32) (b w : Nat) (hw : w < 256) : (journalDisk x y).block b w = (journalWords x y b)[w]?.getD 0 := by
  have hdiv : (256 * b + w) / 256 = b := by omega
  have hmod : (256 * b + w) % 256 = w := by omega
  change (if w < 256 then (journalWords x y ((256 * b + w) / 256))[(256 * b + w) % 256]?.getD 0 else 0) = _
  rw [if_pos hw, hdiv, hmod]

theorem journalDisk_be32 (b w : Nat) (hw : w < 256) {v : UInt32} (hv : (journalWords x y b)[w]?.getD 0 = be32 v) :
    be32 ((journalDisk x y).block b w) = v := by
  rw [journalDisk_block x y b w hw, hv, be32_be32]

theorem hasTable_journal (x y : UInt32) : HasTable (journalDisk x y) :=
  ⟨journalDisk_block x y 2 0 (by decide), journalDisk_block x y 5 0 (by decide)⟩

theorem isRevoke_journal (seq name : UInt32) (b : Nat)
    (hb : journalWords x y b = [0, be32 5, be32 seq, be32 20, be32 name]) : IsRevoke 1024 seq [name] ((journalDisk x y).block b) := by
  refine ⟨?_, ?_, ?_, show 16 + 4 * 1 ≤ 1024 by decide, ?_⟩
  · exact journalDisk_be32 b 1 (by decide) (by rw [hb]; rfl)
  · exact journalDisk_be32 b 2 (by decide) (by rw [hb]; rfl)
  · exact congrArg UInt32.toNat (journalDisk_be32 b 3 (by decide) (v := 20) (by rw [hb]; rfl))
  · intro k name' hk
    cases k with
    | zero =>
      obtain rfl := some.inj hk
      exact journalDisk_be32 b 4 (by decide) (by rw [hb]; rfl)
    | succ k => cases hk

theorem isCommit_journal (seq : UInt32) (b : Nat) (hb : journalWords x y b = [0, be32 2, be32 seq]) :
    IsCommit seq ((journalDisk x y).block b) :=
  ⟨journalDisk_be32 b 1 (by decide) (by rw [hb]; rfl), journalDisk_be32 b 2 (by decide) (by rw [hb]; rfl)⟩

theorem isDescriptor_journal₁ (x y : UInt32) : IsDescriptor 1024 1 [journalTag x y 2 12, journalTag x y 5 13, journalTag x y 40 14]
    ((journalDisk x y).block 11) := by
  have hflags₁ : tagFlags ((journalDisk x y).block 11) 12 = 2 := journalDisk_be32 11 4 (by decide) rfl
  have hflags₂ : tagFlags ((journalDisk x y).block 11) 20 = 2 := journalDisk_be32 11 6 (by decide) rfl
  have hflags₃ : tagFlags ((journalDisk x y).block 11) 28 = 10 := journalDisk_be32 11 8 (by decide) rfl
  refine ⟨journalDisk_be32 11 1 (by decide) rfl, journalDisk_be32 11 2 (by decide) rfl, ?_⟩
  refine TagsAt.more (by decide) (journalDisk_be32 11 3 (by decide) rfl) (congrArg (hasFlag · _) hflags₁) (congrArg (hasFlag · _) hflags₁) ?_
  rw [hflags₁]
  refine TagsAt.more (by decide) (journalDisk_be32 11 5 (by decide) rfl) (congrArg (hasFlag · _) hflags₂) (congrArg (hasFlag · _) hflags₂) ?_
  change TagsAt 1024 _ (nextOfs (tagFlags ((journalDisk x y).block 11) 20) 20) _
  rw [hflags₂]
  exact TagsAt.last (by decide) (journalDisk_be32 11 7 (by decide) rfl) (congrArg (hasFlag · _) hflags₃) (congrArg (hasFlag · _) hflags₃)

theorem isDescriptor_journal₂ (x y : UInt32) : IsDescriptor 1024 2 [journalTag x y x 18] ((journalDisk x y).block 17) := by
  have hflags : tagFlags ((journalDisk x y).block 17) 12 = 10 := journalDisk_be32 17 4 (by decide) rfl
  refine ⟨journalDisk_be32 17 1 (by decide) rfl, journalDisk_be32 17 2 (by decide) rfl, ?_⟩
  exact TagsAt.last (by decide) (journalDisk_be32 17 3 (by decide) rfl) (congrArg (hasFlag · _) hflags) (congrArg (hasFlag · _) hflags)

theorem logAt_journal (x y : UInt32) : LogAt 1024 (fun i => (journalDisk x y).block (10 + i)) [[y]] none 1 1 (journalLog x y).committed := by
  refine ⟨⟨trivial, isDescriptor_journal₁ x y, ⟨rfl, rfl, rfl, trivial⟩, isCommit_journal 1 15 rfl⟩,
    ⟨⟨isRevoke_journal 2 40 16 rfl, trivial⟩, isDescriptor_journal₂ x y, ⟨rfl, trivial⟩, isCommit_journal 2 19 rfl⟩,
    ⟨isRevoke_journal 3 y 20 rfl, trivial⟩, (fun ts h => by cases h), ?_⟩
  intro h
  have hzero := (journalDisk_be32 (x := x) (y := y) 21 2 (by decide) (v := 0) rfl).symm.trans h
  exact absurd hzero (by decide)

theorem super_journal (x y : UInt32) : sFirst (tableMap.super (journalDisk x y)) = 1 ∧
    sSequence (tableMap.super (journalDisk x y)) = 1 ∧ sStart (tableMap.super (journalDisk x y)) = 1 := by
  unfold JournalMap.super
  rw [(hasTable_journal x y).block]
  exact ⟨journalDisk_be32 10 5 (by decide) rfl, journalDisk_be32 10 6 (by decide) rfl, journalDisk_be32 10 7 (by decide) rfl⟩

theorem uses_journal {i : Nat} (hi : (journalLog x y).Uses (1 : UInt32).toNat i) : i ≤ 11 := by
  have hsize : (journalLog x y).size = 10 := rfl
  rcases hi with rfl | ⟨-, hi⟩
  · exact Nat.zero_le _
  · rw [hsize] at hi
    exact hi

theorem mem_journalLog {t : Transaction} {tag : JournalTag} (ht : t ∈ (journalLog x y).committed) (htag : tag ∈ t.tags) :
    tag = journalTag x y 2 12 ∨ tag = journalTag x y 5 13 ∨ tag = journalTag x y 40 14 ∨ tag = journalTag x y x 18 := by
  rcases mem_pair.1 ht with rfl | rfl
  · rcases mem_cons.1 htag with h | h
    · exact Or.inl h
    · rcases mem_pair.1 h with h | h
      · exact Or.inr (Or.inl h)
      · exact Or.inr (Or.inr (Or.inl h))
  · exact Or.inr (Or.inr (Or.inr (mem_singleton.1 htag)))

theorem holdsLog_journal (x y : UInt32) (hx : x.toNat < 10 ∨ 22 ≤ x.toNat) : HoldsLog tableMap (journalFs x y) (journalLog x y) := by
  obtain ⟨hfirst, hsequence, hstart⟩ : sFirst (tableMap.super (journalFs x y).disk) = 1 ∧
      sSequence (tableMap.super (journalFs x y).disk) = 1 ∧ sStart (tableMap.super (journalFs x y).disk) = 1 :=
    super_journal x y
  have hblock (i : Nat) : tableMap.block (journalFs x y).disk i = 10 + i := (hasTable_journal x y).block i
  refine ⟨show 1 ≤ 1 ∧ 1 ≤ 7 by decide, show hasFlag 4 4 by decide, by rw [hstart]; decide, rfl, ?_, ?_, ?_⟩
  · intro i hi
    rw [hfirst] at hi
    have := uses_journal hi
    rw [hblock]
    change (10 + i) * 2 ^ 1 + 2 ^ 1 ≤ 2 ^ 24 - 2
    omega
  · intro i hi
    rw [hfirst] at hi
    have := uses_journal hi
    rw [hblock]
    refine ⟨?_, ?_⟩
    · change 10 + i ≠ 256 / (128 * 2 ^ 1)
      omega
    · rintro ⟨t, ht, tag, htag, he⟩
      rcases mem_journalLog ht htag with rfl | rfl | rfl | rfl
      · change 2 = 10 + i at he
        omega
      · change 5 = 10 + i at he
        omega
      · change 40 = 10 + i at he
        omega
      · change x.toNat = 10 + i at he
        omega
  · rw [hfirst, hsequence, funext hblock]
    exact logAt_journal x y

/-- A word of a block after recovery. -/
def recoveredWord (x y : UInt32) (b w : Nat) : Option UInt32 := do
  let fs ← (ext4fsCheckJournalState tableMap 12 .scan (journalFs x y)).toOption
  let fs ← (ext4fsCheckJournalState tableMap 12 .recover fs).toOption
  return fs.disk.block b w

theorem recoveredWord_eq {fs₁ fs₂ : JournalFs} (h₁ : ext4fsCheckJournalState tableMap 12 .scan (journalFs x y) = .ok fs₁)
    (h₂ : ext4fsCheckJournalState tableMap 12 .recover fs₁ = .ok fs₂) (b w : Nat) :
    recoveredWord x y b w = some (fs₂.disk.block b w) := by
  rw [recoveredWord, h₁]
  change (ext4fsCheckJournalState tableMap 12 .recover fs₁).toOption.bind _ = _
  rw [h₂]
  rfl

end

/-!
## The journal that U-Boot writes is recovered

Statements about `ext4fs_log_journal` and `ext4fs_update_journal`, and about `ext4fs_check_journal_state` after an interruption.
-/

section

open Lib JournalAux

/-- The entries of `journal_ptr` after images were logged one after the other. -/
def logImages (images : List JournalEntry) : List JournalEntry :=
  images.foldl (fun entries e => ext4fsLogJournal entries e.buf e.blknr) []

def JournalMap.first (m : JournalMap) (d : ExtDisk) : Nat := (sFirst (m.super d)).toNat

/-- The indices of the journal superblock, of the blocks that are written from `s_first` on, and of the one behind them. -/
def JournalMap.Takes (m : JournalMap) (d : ExtDisk) (n i : Nat) : Prop := i = 0 ∨ m.first d ≤ i ∧ i ≤ m.first d + n + 2

/-- Images of different blocks are to be logged in a journal that has room for them, and is apart from the blocks of the file system that
the operation touches. -/
structure CanLog (m : JournalMap) (d : ExtDisk) (images : List JournalEntry) (touched : Nat → Prop) : Prop where
  log2Blksz : 1 ≤ d.log2Blksz ∧ d.log2Blksz ≤ 7
  size : d.size < 2 ^ 32
  count : 1 ≤ images.length ∧ images.length ≤ MAX_JOURNAL_ENTRIES
  nodup : (images.map JournalEntry.blknr).Nodup
  numbers : ∀ e ∈ images, d.Has e.blknr.toNat
  first : 1 ≤ m.first d
  start : sStart (m.super d) ≠ 0
  has : ∀ i, m.Takes d images.length i → d.Has (m.block d i)
  inj : ∀ i j, m.Takes d images.length i → m.Takes d images.length j → m.block d i = m.block d j → i = j
  apart : ∀ i, m.Takes d images.length i → m.block d i ≠ d.superBlock ∧ ¬touched (m.block d i) ∧ ∀ e ∈ images, e.blknr.toNat ≠ m.block d i

/-- The blocks that change: those that are written to the journal, and those that the operation or recovery may write. -/
def Changing (m : JournalMap) (d : ExtDisk) (images : List JournalEntry) (touched : Nat → Prop) (b : Nat) : Prop :=
  (∃ k ≤ images.length + 1, m.block d (m.first d + k) = b) ∨ touched b ∨ b = d.superBlock ∨ ∃ e ∈ images, e.blknr.toNat = b

/-- What is written to the journal, one block after the other from `s_first` on. -/
def journalWrites (m : JournalMap) (d : ExtDisk) (images : List JournalEntry) : List (Nat × ExtBlock) :=
  (images.getLast?.map fun last =>
    writesFrom (m.block d) (m.first d) (journalContents d (m.super d 6) images.dropLast last)).getD []

/-- Writing and recovery can do with the images: they reach the blocks of the journal and those of the images, the journal stays where it is
while it is written, an image of the superblock says that recovery is needed, and the block behind the commit block does not look like the
next transaction. -/
structure LogFits (m : JournalMap) (d : ExtDisk) (images : List JournalEntry) : Prop where
  steady : m.StaysAlong d d (journalWrites m d images)
  addressable : ∀ i, m.Takes d images.length i → d.Addressable (m.block d i)
  super : d.Writable (m.block d 0)
  journal : ∀ k ≤ images.length + 1, d.Writable (m.block d (m.first d + k))
  homes : ∀ e ∈ images, d.Writable e.blknr.toNat ∧ (e.blknr.toNat = d.superBlock → hasFlag (e.buf d.featureWord) EXT3_FEATURE_INCOMPAT_RECOVER)
  ends : hSequence (d.block (m.block d (m.first d + images.length + 2))) ≠ sSequence (m.super d) + 1

/-- After recovery each image is where it was taken from, and no other block outside the journal has changed. -/
structure Restored (m : JournalMap) (d : ExtDisk) (images : List JournalEntry) (d' d'' : ExtDisk) : Prop where
  logged : ∀ e ∈ images, ∀ w < d.perblock, d''.block e.blknr.toNat w = e.buf w
  others : ∀ b, (∀ i, m.Takes d images.length i → m.block d i ≠ b) → (∀ e ∈ images, e.blknr.toNat ≠ b) → d''.block b = d'.block b

section Written

variable {m : JournalMap} {d : ExtDisk} {images : List JournalEntry} {touched : Nat → Prop}
variable {b : Nat} {init : List JournalEntry} {last : JournalEntry}

/-- The images are the entries of the journal, and their tags fit into a block. -/
theorem CanLog.used (h : CanLog m d images touched) : usedEntries (logImages images) = images ∧ 12 + 8 * images.length ≤ d.blksz := by
  have hpow := Nat.pow_le_pow_right (show 0 < 2 by decide) h.log2Blksz.1
  have hblksz : 1024 ≤ d.blksz := by
    unfold ExtDisk.blksz
    omega
  have hmax : images.length ≤ 100 := h.count.2
  have hlast : ∀ e ∈ images, e.blknr ≠ 0xffffffff := by
    intro e he heq
    have hhas := h.numbers e he
    have hsize := h.size
    have hmul := Nat.mul_le_mul_left e.blknr.toNat hpow
    have hnum : e.blknr.toNat = 2 ^ 32 - 1 := by rw [heq]; rfl
    unfold ExtDisk.Has at hhas
    omega
  have hlog : logImages images = images := logged_eq images [] h.nodup hlast
  rw [hlog]
  exact ⟨usedEntries_eq hlast, by omega⟩

/-- The log that the journal then holds. -/
def writtenLog (d : ExtDisk) (images : List JournalEntry) : JournalLog := ⟨[⟨[], images.map (entryTag d)⟩], [], none⟩

theorem uses_writtenLog {i : Nat} : (writtenLog d images).Uses (m.first d) i ↔ m.Takes d images.length i := by
  have hsize : (writtenLog d images).size = images.length + 2 := by
    simp [writtenLog, JournalLog.size, Transaction.size]
  unfold JournalLog.Uses JournalMap.Takes
  rw [hsize, Nat.add_assoc]

theorem names_writtenLog : (writtenLog d images).Names b ↔ ∃ e ∈ images, e.blknr.toNat = b := by
  constructor
  · rintro ⟨t, ht, tag, htag, rfl⟩
    obtain rfl := mem_singleton.1 ht
    obtain ⟨e, he, rfl⟩ := mem_map.1 htag
    exact ⟨e, he, rfl⟩
  · rintro ⟨e, he, rfl⟩
    exact ⟨_, mem_singleton_self _, _, mem_map_of_mem he, rfl⟩

theorem logResult_writtenLog (hnodup : (images.map JournalEntry.blknr).Nodup) {e : JournalEntry} (he : e ∈ images) :
    logResult (writtenLog d images).txns e.blknr.toNat = some (truncBlock d e.buf) := by
  have hkeys : ((images.map (entryTag d)).map fun tag => (tag.block.toNat, tag.home)).map Prod.fst =
      (images.map JournalEntry.blknr).map UInt32.toNat := by
    simp only [List.map_map]
    rfl
  have hnodup' : (((images.map (entryTag d)).map fun tag => (tag.block.toNat, tag.home)).map Prod.fst).Nodup := by
    rw [hkeys]
    exact List.Pairwise.map UInt32.toNat (fun a b hne heq => hne (UInt32.toNat_inj.1 heq)) hnodup
  have hmem : (e.blknr.toNat, truncBlock d e.buf) ∈ (images.map (entryTag d)).map fun tag => (tag.block.toNat, tag.home) :=
    mem_map.2 ⟨entryTag d e, mem_map_of_mem he, rfl⟩
  exact (logResult_singleton _ _).trans (lastWrite_of_mem hnodup' hmem)

theorem logResult_writtenLog_none (hb : ∀ e ∈ images, e.blknr.toNat ≠ b) : logResult (writtenLog d images).txns b = none := by
  refine (logResult_singleton _ _).trans (lastWrite_eq_none ?_)
  intro v hv
  obtain ⟨tag, htag, heq⟩ := mem_map.1 hv
  obtain ⟨e, he, rfl⟩ := mem_map.1 htag
  exact hb e he (congrArg Prod.fst heq)

theorem logAt_written {d₂ : ExtDisk} {blk : Nat → Nat} {first : Nat} {sequence : UInt32}
    (hsplit : images = init ++ [last]) (hfits : 12 + 8 * images.length ≤ d.blksz)
    (hcontents : ∀ k c, (journalContents d sequence init last)[k]? = some c → d₂.block (blk (first + k)) = c)
    (hends : hSequence (d₂.block (blk (first + images.length + 2))) ≠ be32 sequence + 1) :
    LogAt d.blksz (fun i => d₂.block (blk i)) [] none (be32 sequence) first (writtenLog d images).committed := by
  have hlength : (images.map (entryTag d)).length = images.length := length_map _
  have hdesc : d₂.block (blk first) = truncBlock d (wordsBlock (descriptorWords sequence init last)) := hcontents 0 _ rfl
  have hcommit : d₂.block (blk (first + (images.length + 1))) = truncBlock d (wordsBlock (commitWords sequence)) := by
    apply hcontents
    rw [journalContents, cons_append, getElem?_cons_succ, ← hsplit, getElem?_append_right (by rw [length_map]), length_map, Nat.sub_self]
    rfl
  refine ⟨⟨trivial, ?_, ?_, ?_⟩, ⟨trivial, fun ts h => absurd h (Option.some_ne_none _).symm, ?_⟩⟩
  · change IsDescriptor d.blksz (be32 sequence) (images.map (entryTag d)) (d₂.block (blk first))
    rw [hdesc, hsplit]
    exact isDescriptor_written d (by rw [← hsplit]; exact hfits)
  · apply imagesAt_of_forall
    intro k tag htag
    obtain ⟨e, he, rfl⟩ : ∃ e, images[k]? = some e ∧ entryTag d e = tag := by
      rwa [List.getElem?_map, Option.map_eq_some_iff] at htag
    have hk := (List.getElem?_eq_some_iff.1 he).1
    have hat := hcontents (k + 1) (truncBlock d e.buf) (by
      rw [journalContents, cons_append, getElem?_cons_succ, ← hsplit, getElem?_append_left (by rwa [length_map]), getElem?_map, he]
      rfl)
    rwa [← Nat.add_assoc, Nat.add_right_comm] at hat
  · change IsCommit (be32 sequence) (d₂.block (blk (first + 0 + 1 + (images.map (entryTag d)).length)))
    rw [hlength, Nat.add_zero, Nat.add_assoc, Nat.add_comm 1, hcommit]
    exact isCommit_written d sequence
  · change hSequence (d₂.block (blk (first + (0 + (images.map (entryTag d)).length + 2)))) ≠ be32 sequence + 1
    rw [hlength, Nat.zero_add, ← Nat.add_assoc]
    exact hends

/-- A disk after the journal was written, and after the operation was interrupted. -/
structure Interrupted (m : JournalMap) (d : ExtDisk) (init : List JournalEntry) (last : JournalEntry) (touched : Nat → Prop)
    (d₂ : ExtDisk) : Prop where
  same : d.SameBut (Changing m d (init ++ [last]) touched) d₂
  contents : ∀ k c, (journalContents d (m.super d 6) init last)[k]? = some c → d₂.block (m.block d (m.first d + k)) = c
  super : d₂.block (m.block d 0) = m.super d
  behind : d₂.block (m.block d (m.first d + (init ++ [last]).length + 2)) = d.block (m.block d (m.first d + (init ++ [last]).length + 2))

theorem length_journalContents (d : ExtDisk) (sequence : UInt32) (init : List JournalEntry) (last : JournalEntry) :
    (journalContents d sequence init last).length = (init ++ [last]).length + 2 := by
  simp [journalContents]

theorem takes_add {k : Nat} (hk : k ≤ images.length + 2) : m.Takes d images.length (m.first d + k) :=
  Or.inr ⟨Nat.le_add_right _ _, by omega⟩

theorem interrupted_of_written (h : CanLog m d (init ++ [last]) touched) {d' d₂ : ExtDisk}
    (hwritten : d.Becomes d' (applyWrites d.block (writesFrom (m.block d) (m.first d) (journalContents d (m.super d 6) init last))))
    (htouched : d'.SameBut touched d₂) : Interrupted m d init last touched d₂ := by
  have hlength := length_journalContents d (m.super d 6) init last
  have hsame : d.SameBut (Changing m d (init ++ [last]) touched) d' := by
    refine Becomes.sameBut hwritten ?_
    intro w hw
    obtain ⟨k, c, hc, rfl⟩ := mem_writesFrom.1 hw
    have hk := (List.getElem?_eq_some_iff.1 hc).1
    exact Or.inl ⟨k, by omega, rfl⟩
  -- a block of the journal that is not written is as it was
  have hother (i : Nat) (hi : m.Takes d (init ++ [last]).length i) (hne : ∀ k ≤ (init ++ [last]).length + 1, i ≠ m.first d + k) :
      d₂.block (m.block d i) = d.block (m.block d i) := by
    rw [htouched.2.2 _ (h.apart i hi).2.1, hwritten.block, applyWrites_apply, lastWrite_eq_none, getD_none]
    intro v hv
    obtain ⟨k, c, hc, heq⟩ := mem_writesFrom.1 hv
    have hk := (List.getElem?_eq_some_iff.1 hc).1
    exact hne k (by omega) (h.inj i _ hi (takes_add (by omega)) (congrArg Prod.fst heq))
  refine ⟨SameBut.trans hsame (SameBut.mono htouched fun b hb => Or.inr (Or.inl hb)), ?_, ?_, ?_⟩
  · intro k c hc
    have hk := (List.getElem?_eq_some_iff.1 hc).1
    rw [htouched.2.2 _ (h.apart _ (takes_add (by omega))).2.1, hwritten.block]
    refine applyWrites_writesFrom ?_ _ hc
    intro k l hk hl heq
    have := h.inj _ _ (takes_add (by omega)) (takes_add (by omega)) heq
    omega
  · exact hother 0 (Or.inl rfl) fun k _ => by have := h.first; omega
  · exact hother _ (takes_add (Nat.le_refl _)) fun k _ => by omega

section Interrupted

variable {init : List JournalEntry} {last : JournalEntry} {d₂ : ExtDisk}

theorem Interrupted.superBlock (hi : Interrupted m d init last touched d₂) : d₂.superBlock = d.superBlock ∧ d₂.featureWord = d.featureWord := by
  unfold ExtDisk.superBlock ExtDisk.featureWord
  rw [SameBut.perblock hi.same]
  exact ⟨rfl, rfl⟩

theorem Interrupted.journalSuper (hi : Interrupted m d init last touched d₂) (hm : m.Stays d d₂) : m.super d₂ = m.super d := by
  rw [JournalMap.super, Stays.block hm, hi.super]

theorem Interrupted.holdsLog (hi : Interrupted m d init last touched d₂) (h : CanLog m d (init ++ [last]) touched)
    (hfits : LogFits m d (init ++ [last])) (hm : m.Stays d d₂) {sb : ExtBlock} (hsb : hasFlag (featureIncompat sb) EXT3_FEATURE_INCOMPAT_RECOVER) :
    HoldsLog m ⟨d₂, sb, []⟩ (writtenLog d (init ++ [last])) := by
  have hsuper := hi.journalSuper hm
  have hblock := Stays.block hm
  refine ⟨?_, hsb, ?_, rfl, ?_, ?_, ?_⟩
  · change 1 ≤ d₂.log2Blksz ∧ d₂.log2Blksz ≤ 7
    rw [hi.same.2.1]
    exact h.log2Blksz
  · change sStart (m.super d₂) ≠ 0
    rw [hsuper]
    exact h.start
  · intro i hu
    change (writtenLog d (init ++ [last])).Uses (sFirst (m.super d₂)).toNat i at hu
    rw [hsuper] at hu
    change d₂.Has (m.block d₂ i)
    rw [hblock, SameBut.has hi.same]
    exact h.has i (uses_writtenLog.1 hu)
  · intro i hu
    change (writtenLog d (init ++ [last])).Uses (sFirst (m.super d₂)).toNat i at hu
    rw [hsuper] at hu
    obtain ⟨hsb', -, himages⟩ := h.apart i (uses_writtenLog.1 hu)
    change m.block d₂ i ≠ d₂.superBlock ∧ ¬(writtenLog d (init ++ [last])).Names (m.block d₂ i)
    rw [hblock, hi.superBlock.1, names_writtenLog]
    exact ⟨hsb', fun ⟨e, he, heq⟩ => himages e he heq⟩
  · change LogAt d₂.blksz (fun i => d₂.block (m.block d₂ i)) [] none (sSequence (m.super d₂)) (sFirst (m.super d₂)).toNat _
    rw [SameBut.blksz hi.same, hsuper, funext hblock]
    have hends := hfits.ends
    rw [← hi.behind] at hends
    exact logAt_written rfl h.used.2 hi.contents hends

theorem Interrupted.recoveryFits (hi : Interrupted m d init last touched d₂) (hfits : LogFits m d (init ++ [last]))
    (hsteady : m.Steady d d₂ (writtenLog d (init ++ [last]))) (hlog : 1 ≤ d.log2Blksz) : RecoveryFits m d₂ (writtenLog d (init ++ [last])) := by
  have hm := StaysAlong.here hsteady.replay
  have hsuper := hi.journalSuper hm
  have hblock := Stays.block hm
  refine ⟨?_, ?_, ?_, ?_, ?_⟩
  · exact ⟨fun ws d' hws hd' => Stays.of_stays hm (hsteady.replay ws d' hws hd'), fun d' hd' => Stays.of_stays hm (hsteady.flag d' hd')⟩
  · intro i hu
    rw [hsuper] at hu
    rw [hblock, SameBut.addressable hi.same]
    exact hfits.addressable i (uses_writtenLog.1 hu)
  · rw [hblock, SameBut.writable hi.same]
    exact hfits.super
  · intro n t ht tag _
    match n, ht with
    | 0, ht => rfl
  · intro n t ht tag htag _
    match n, ht with
    | 0, ht =>
      obtain rfl := some.inj ht
      obtain ⟨e, he, rfl⟩ := mem_map.1 htag
      obtain ⟨hwrite, hflag⟩ := hfits.homes e he
      refine ⟨(SameBut.writable hi.same).2 hwrite, rfl, ?_⟩
      intro hb
      rw [hi.superBlock.1] at hb
      change hasFlag (truncBlock d e.buf d₂.featureWord) _
      rw [hi.superBlock.2, truncBlock, if_pos (super_index hlog).2]
      exact hflag hb

end Interrupted

end Written
variable {blocks : List UInt32}


/-- A disk with blocks of 1024 bytes, whose superblock says that recovery is needed, with the table of the map, and a journal that begins with
block 10. Block `2 ^ 22` begins with a 7. -/
def farDisk : ExtDisk where
  words a :=
    if a = 280 then 4 else if a = 512 then 5 else if a = 1280 then 10
    else if a = 2565 then be32 1 else if a = 2566 then be32 1 else if a = 2567 then be32 1
    else if a = 2 ^ 30 then 7 else 0
  size := 2 ^ 24 - 2
  log2Blksz := 1

def imagesOf (blocks : List UInt32) : List JournalEntry := blocks.map fun b => ⟨farDisk.block b.toNat, b⟩

theorem mem_imagesOf {e : JournalEntry} (he : e ∈ imagesOf blocks) : ∃ b ∈ blocks, ⟨farDisk.block b.toNat, b⟩ = e :=
  mem_map.1 he

theorem hasTable_farDisk : HasTable farDisk := by
  constructor <;> decide

theorem super_farDisk : sFirst (tableMap.super farDisk) = 1 ∧ sStart (tableMap.super farDisk) = 1 := by decide

theorem first_farDisk : tableMap.first farDisk = 1 := congrArg UInt32.toNat super_farDisk.1

theorem le_of_takes {n i : Nat} (hn : n ≤ 3) (hi : tableMap.Takes farDisk n i) : i ≤ 6 := by
  rcases hi with rfl | ⟨-, hi⟩
  · exact Nat.zero_le _
  · rw [first_farDisk] at hi
    omega

theorem canLog_farDisk (blocks : List UInt32) (hcount : 1 ≤ blocks.length ∧ blocks.length ≤ 3) (hnodup : blocks.Nodup)
    (hblocks : ∀ b ∈ blocks, (b.toNat < 10 ∨ 20 ≤ b.toNat) ∧ b.toNat ≤ 2 ^ 22) :
    CanLog tableMap farDisk (imagesOf blocks) (· ∈ blocks.map UInt32.toNat) := by
  have hlength : (imagesOf blocks).length = blocks.length := length_map _
  have htakes {i : Nat} (hi : tableMap.Takes farDisk (imagesOf blocks).length i) : i ≤ 6 := le_of_takes (by omega) hi
  refine ⟨by decide, by decide, ?_, ?_, ?_, by rw [first_farDisk], by rw [super_farDisk.2]; decide, ?_, ?_, ?_⟩
  · have hmax : MAX_JOURNAL_ENTRIES = 100 := rfl
    omega
  · have hblknr : (imagesOf blocks).map JournalEntry.blknr = blocks := by
      rw [imagesOf, List.map_map]
      exact List.map_id blocks
    rwa [hblknr]
  · intro e he
    obtain ⟨b, hb, rfl⟩ := mem_imagesOf he
    have := (hblocks b hb).2
    change b.toNat * 2 ^ 1 + 2 ^ 1 ≤ 2 ^ 24 - 2
    omega
  · intro i hi
    have := htakes hi
    rw [hasTable_farDisk.block]
    change (10 + i) * 2 ^ 1 + 2 ^ 1 ≤ 2 ^ 24 - 2
    omega
  · intro i j _ _ heq
    rw [hasTable_farDisk.block, hasTable_farDisk.block] at heq
    exact Nat.add_left_cancel heq
  · intro i hi
    have := htakes hi
    rw [hasTable_farDisk.block]
    refine ⟨?_, ?_, ?_⟩
    · change 10 + i ≠ 256 / (128 * 2 ^ 1)
      omega
    · intro hmem
      obtain ⟨b, hb, heq⟩ := mem_map.1 hmem
      have := (hblocks b hb).1
      omega
    · intro e he
      obtain ⟨b, hb, rfl⟩ := mem_imagesOf he
      have := (hblocks b hb).1
      change b.toNat ≠ 10 + i
      omega

theorem HasTable.steady_written {d₂ : ExtDisk} (h : HasTable d₂) (hlog : d₂.log2Blksz = 1) (blocks : List UInt32) :
    tableMap.Steady farDisk d₂ (writtenLog farDisk (imagesOf blocks)) := by
  refine hasTable_farDisk.steady h hlog ?_
  intro t ht tag htag
  obtain rfl := mem_singleton.1 ht
  obtain ⟨e, he, rfl⟩ := mem_map.1 htag
  obtain ⟨b, -, rfl⟩ := mem_imagesOf he
  constructor
  · intro hb
    change farDisk.block b.toNat 0 = 5
    rw [show b.toNat = 2 from hb]
    exact hasTable_farDisk.1
  · intro hb
    change farDisk.block b.toNat 0 = 10
    rw [show b.toNat = 5 from hb]
    exact hasTable_farDisk.2

theorem log2Blksz_of_update {d' : ExtDisk} {idx : Nat}
    (hupdate : ext4fsUpdateJournal tableMap (logImages (imagesOf blocks)) 1 farDisk = some (d', idx))
    (h : (ext4fsUpdateJournal tableMap (logImages (imagesOf blocks)) 1 farDisk).map (fun r => r.1.log2Blksz) = some 1) : d'.log2Blksz = 1 := by
  rw [hupdate] at h
  exact some.inj h

/-- A disk after an operation overwrote block `2 ^ 22`. -/
def overwritten (d : ExtDisk) : ExtDisk := { d with words := fun a => if a = 2 ^ 30 then 9 else d.words a }

/-- The disk on which recovery is to start, and the one it leaves. -/
def overwrittenDisk : Option ExtDisk := (ext4fsUpdateJournal tableMap (logImages (imagesOf [2 ^ 22])) 1 farDisk).map fun r => overwritten r.1

def recoveredDisk (d : ExtDisk) : Option ExtDisk := do
  let fs ← (ext4fsCheckJournalState tableMap 4 .scan ⟨d, fun _ => 4, []⟩).toOption
  let fs ← (ext4fsCheckJournalState tableMap 4 .recover fs).toOption
  return fs.disk

theorem recoveredDisk_eq {d : ExtDisk} {fs₁ fs₂ : JournalFs} (h₁ : ext4fsCheckJournalState tableMap 4 .scan ⟨d, fun _ => 4, []⟩ = .ok fs₁)
    (h₂ : ext4fsCheckJournalState tableMap 4 .recover fs₁ = .ok fs₂) : recoveredDisk d = some fs₂.disk := by
  rw [recoveredDisk, h₁]
  change (ext4fsCheckJournalState tableMap 4 .recover fs₁).toOption.bind _ = _
  rw [h₂]
  rfl

end

end UBoot
