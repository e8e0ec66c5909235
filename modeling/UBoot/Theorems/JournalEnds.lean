import UBoot.JournalReads
import UBoot.Lemmas.JournalAux

/-!
# When the scan of a journal ends

Statements about one call of `ext4fs_check_journal_state`, on any disk: whether its loops end, and whether what they read is in the buffers.
-/

namespace UBoot

open Lib JournalAux List

/-! ## Tags -/

variable {blksz : Nat} {jdb : ExtBlock} {ofss : List Nat}

theorem tagOffsets_inside (jdb : ExtBlock) (fuel ofs : Nat) (hfuel : blksz < 8 * fuel + ofs) :
    ∃ ofss, tagOffsets blksz jdb (fuel + 1) ofs = some ofss ∧ ∀ o ∈ ofss, o + 8 ≤ blksz := by
  induction fuel generalizing ofs with
  | zero => exact ⟨[], if_pos (by omega), nofun⟩
  | succ fuel ih =>
    rw [tagOffsets]
    split
    · exact ⟨[], rfl, nofun⟩
    · rename_i hofs
      split
      · exact ⟨[ofs], rfl, by simpa using hofs⟩
      · obtain ⟨ofss, hrest, hinside⟩ := ih _ (nextOfs_fuel (tagFlags jdb ofs) hfuel)
        refine ⟨ofs :: ofss, by rw [hrest]; rfl, forall_mem_cons.2 ⟨by omega, hinside⟩⟩

theorem tagsInside (blksz : Nat) (jdb : ExtBlock) : TagsInside blksz jdb := by
  obtain ⟨ofss, hrun, hinside⟩ := tagOffsets_inside jdb blksz 12 (show blksz < 8 * blksz + 12 by omega)
  exact ⟨ofss, ⟨_, hrun⟩, hinside⟩

/-- How a loop over the tags goes: it ends behind the buffer, or with the last tag, or goes on to the next one. -/
theorem tagOffsets_cases {fuel ofs : Nat}
    (h : tagOffsets blksz jdb (fuel + 1) ofs = some ofss) :
    (blksz < ofs + 8 ∧ ofss = []) ∨
    (¬blksz < ofs + 8 ∧ hasFlag (tagFlags jdb ofs) EXT3_JOURNAL_FLAG_LAST_TAG ∧ ofss = [ofs]) ∨
    (¬blksz < ofs + 8 ∧ ¬hasFlag (tagFlags jdb ofs) EXT3_JOURNAL_FLAG_LAST_TAG ∧
      ∃ rest, tagOffsets blksz jdb fuel (nextOfs (tagFlags jdb ofs) ofs) = some rest ∧ ofss = ofs :: rest) := by
  rw [tagOffsets] at h
  split at h
  · rename_i hofs
    exact Or.inl ⟨hofs, (Option.some.inj h).symm⟩
  · rename_i hofs
    split at h
    · rename_i hlast
      exact Or.inr (Or.inl ⟨hofs, hlast, (Option.some.inj h).symm⟩)
    · rename_i hlast
      obtain ⟨rest, hrest, heq⟩ := Option.map_eq_some_iff.1 h
      exact Or.inr (Or.inr ⟨hofs, hlast, rest, hrest, heq.symm⟩)

/-- The loop of `ext4fs_check_journal_state` over the tags goes by these offsets. -/
theorem scanTags_eq_offsets {fuel ofs : Nat} (i : Nat)
    (h : tagOffsets blksz jdb fuel ofs = some ofss) : scanTags blksz jdb fuel ofs i = i + ofss.length := by
  induction fuel generalizing ofs i ofss with
  | zero => cases h
  | succ fuel ih =>
    rw [scanTags]
    rcases tagOffsets_cases h with ⟨hofs, rfl⟩ | ⟨hofs, hlast, rfl⟩ | ⟨hofs, hlast, rest, hrest, rfl⟩
    · exact if_pos hofs
    · rw [if_neg hofs]
      exact if_pos hlast
    · rw [if_neg hofs, if_neg hlast, ih _ hrest, length_cons]
      omega

section

variable (m : JournalMap) (inode : Ext2Inode) (revkBlkList : List ExtBlock) (jdb : ExtBlock)

/-- What `recover_transaction` does with a tag; `a` has the block of the journal before the data, the buffer for it and the disk. -/
def replayTag (a : Nat × ExtBlock × ExtDisk) (ofs : Nat) : Nat × ExtBlock × ExtDisk :=
  let (i, metadata, d) := a
  let skip := revkBlkList ≠ [] && checkBlknrForRevoke revkBlkList (tagBlock jdb ofs) (hSequence jdb)
  let metadata' := if skip then metadata else d.readBlock metadata (m.readAllocatedBlock d inode (i + 1))
  (i + 1, metadata', if skip then d else d.putBlock (d.offset (tagBlock jdb ofs).toNat) metadata')

theorem putBlock_blksz (d : ExtDisk) (off : Nat) (buf : ExtBlock) : (d.putBlock off buf).blksz = d.blksz := by
  unfold ExtDisk.putBlock ExtDisk.put
  split <;> rfl

theorem replayTag_blksz (a : Nat × ExtBlock × ExtDisk) (ofs : Nat) : (replayTag m inode revkBlkList jdb a ofs).2.2.blksz = a.2.2.blksz := by
  unfold replayTag
  dsimp only
  split
  · rfl
  · exact putBlock_blksz _ _ _

/-- So does the loop of `recover_transaction`. -/
theorem recoverTags_eq_offsets {blksz fuel ofs : Nat} {ofss : List Nat} (i : Nat) (metadata : ExtBlock) (d : ExtDisk) (hd : d.blksz = blksz)
    (h : tagOffsets blksz jdb fuel ofs = some ofss) :
    recoverTags m inode revkBlkList jdb fuel ofs i metadata d = (ofss.foldl (replayTag m inode revkBlkList jdb) (i, metadata, d)).2.2 := by
  induction fuel generalizing ofs i metadata d ofss with
  | zero => cases h
  | succ fuel ih =>
    rw [recoverTags, hd]
    rcases tagOffsets_cases h with ⟨hofs, rfl⟩ | ⟨hofs, hlast, rfl⟩ | ⟨hofs, hlast, rest, hrest, rfl⟩
    · exact if_pos hofs
    · rw [if_neg hofs]
      exact if_pos hlast
    · have hblksz := (replayTag_blksz m inode revkBlkList jdb (i, metadata, d) ofs).trans hd
      rw [if_neg hofs, if_neg hlast, foldl_cons]
      exact ih _ _ _ hblksz hrest

end

/-! ## Revoke blocks -/

variable {blk : ExtBlock} {blknr : UInt32} {blksz : Nat}

/-- An entry is read if none before it names the block. -/
theorem mem_entryReads {n offset o : Nat} (hoffset : offset % 4 = 0) :
    o ∈ entryReads blk blknr n offset ↔ ∃ j, j < n ∧ o = offset + 4 * j ∧ ∀ k, k < j → be32 (blk (offset / 4 + k)) ≠ blknr := by
  induction n generalizing offset with
  | zero => simp [entryReads]
  | succ n ih =>
    have hnext : (offset + 4) / 4 = offset / 4 + 1 := by omega
    have hrest : o ∈ entryReads blk blknr n (offset + 4) ↔ _ := ih (by omega)
    rw [entryReads]
    split
    · rename_i hfound
      rw [mem_singleton]
      constructor
      · rintro rfl
        exact ⟨0, by omega, rfl, nofun⟩
      · rintro ⟨j, -, rfl, hbefore⟩
        cases j with
        | zero => rfl
        | succ j => exact absurd hfound (hbefore 0 (Nat.succ_pos j))
    · rename_i hmiss
      rw [mem_cons, hrest, hnext]
      constructor
      · rintro (rfl | ⟨j, hj, rfl, hbefore⟩)
        · exact ⟨0, by omega, rfl, nofun⟩
        · refine ⟨j + 1, by omega, by omega, fun k hk => ?_⟩
          cases k with
          | zero => exact hmiss
          | succ k =>
            have hk' := hbefore k (by omega)
            rwa [Nat.add_assoc, Nat.add_comm 1 k] at hk'
      · rintro ⟨j, hj, rfl, hbefore⟩
        cases j with
        | zero => exact Or.inl rfl
        | succ j =>
          refine Or.inr ⟨j, by omega, by omega, fun k hk => ?_⟩
          have hk' := hbefore (k + 1) (by omega)
          rwa [Nat.add_assoc, Nat.add_comm 1 k]

theorem length_revokeEntries (blk : ExtBlock) : (revokeEntries blk).length = if rCount blk < 2 ^ 31 then (rCount blk - 16 + 3) / 4 else 0 := by
  unfold revokeEntries rCount
  dsimp only
  split
  · rw [length_map, length_range]
  · rfl

theorem getElem_revokeEntries {k : Nat} (hk : k < (revokeEntries blk).length) :
    (revokeEntries blk)[k] = be32 (blk (4 + k)) := by
  have hcount : rCount blk < 2 ^ 31 := by
    by_contra hcount
    rw [length_revokeEntries, if_neg hcount] at hk
    exact Nat.not_lt_zero _ hk
  have heq : revokeEntries blk = (List.range ((rCount blk - 16 + 3) / 4)).map fun j => be32 (blk (4 + j)) := if_pos hcount
  simp only [heq, getElem_map, getElem_range]

theorem mem_take_revokeEntries {n : Nat} :
    blknr ∈ (revokeEntries blk).take n ↔ ∃ k, k < n ∧ k < (revokeEntries blk).length ∧ be32 (blk (4 + k)) = blknr := by
  rw [mem_take_iff_getElem]
  constructor
  · rintro ⟨k, hk, hname⟩
    refine ⟨k, by omega, by omega, ?_⟩
    rwa [getElem_revokeEntries] at hname
  · rintro ⟨k, hn, hlen, hname⟩
    exact ⟨k, by omega, (getElem_revokeEntries hlen).trans hname⟩

theorem entryReads_inside_iff (blk : ExtBlock) (blknr : UInt32) (hblksz : 16 ≤ blksz ∧ blksz % 4 = 0) :
    (∀ o ∈ entryReads blk blknr (revokeEntries blk).length 16, o + 4 ≤ blksz) ↔ CountFits blksz blknr blk := by
  have hlen := length_revokeEntries blk
  constructor
  · intro hinside
    by_contra hfits
    obtain ⟨hlarge, hint, hnames⟩ : ¬rCount blk ≤ blksz ∧ ¬2 ^ 31 ≤ rCount blk ∧ blknr ∉ (revokeEntries blk).take ((blksz - 16) / 4) := by
      simpa [CountFits] using hfits
    rw [if_pos (by omega)] at hlen
    -- the first entry behind the buffer is read
    have hread : 16 + 4 * ((blksz - 16) / 4) ∈ entryReads blk blknr (revokeEntries blk).length 16 := by
      refine (mem_entryReads (by decide)).2 ⟨_, by omega, rfl, fun k hk hname => hnames ?_⟩
      exact mem_take_revokeEntries.2 ⟨k, hk, by omega, hname⟩
    have hout := hinside _ hread
    omega
  · rintro hfits o ho
    obtain ⟨j, hj, rfl, hbefore⟩ := (mem_entryReads (by decide)).1 ho
    rcases hfits with hsmall | hint | hnames
    · split at hlen <;> omega
    · rw [if_neg (by omega)] at hlen
      omega
    · obtain ⟨k, hk, -, hname⟩ := mem_take_revokeEntries.1 hnames
      have hjk : j ≤ k := by
        by_contra hjk
        exact hbefore k (by omega) hname
      omega

theorem checkBlknrForRevoke_cons (blknr sequenceNo : UInt32) (blk : ExtBlock) (blks : List ExtBlock) :
    checkBlknrForRevoke (blk :: blks) blknr sequenceNo =
      ((decide (sequenceNo < hSequence blk) && (revokeEntries blk).contains blknr) || checkBlknrForRevoke blks blknr sequenceNo) := by
  unfold checkBlknrForRevoke
  rw [any_cons]

theorem checkBlknrForRevoke_eq_searched (revkBlkList : List ExtBlock) (blknr sequenceNo : UInt32) :
    checkBlknrForRevoke revkBlkList blknr sequenceNo =
      (searchedBlocks blknr sequenceNo revkBlkList).any fun blk => (revokeEntries blk).contains blknr := by
  induction revkBlkList with
  | nil => rw [checkBlknrForRevoke, searchedBlocks, any_nil, any_nil]
  | cons blk blks ih =>
    rw [checkBlknrForRevoke_cons, ih, searchedBlocks]
    by_cases hless : sequenceNo < hSequence blk
    · rw [if_pos hless, decide_eq_true hless, Bool.true_and]
      cases hfound : (revokeEntries blk).contains blknr with
      | true => rw [if_pos rfl, any_cons, hfound, Bool.true_or, Bool.true_or]
      | false => rw [if_neg Bool.false_ne_true, any_cons, hfound]
    · rw [if_neg hless, decide_eq_false hless, Bool.false_and, Bool.false_or]

theorem revokeReads_inside_iff (revkBlkList : List ExtBlock) (blknr sequenceNo : UInt32) (hblksz : 16 ≤ blksz ∧ blksz % 4 = 0) :
    (∀ o ∈ revokeReads revkBlkList blknr sequenceNo, o + 4 ≤ blksz) ↔
      ∀ blk ∈ searchedBlocks blknr sequenceNo revkBlkList, CountFits blksz blknr blk := by
  constructor
  · intro h blk hblk
    refine (entryReads_inside_iff blk blknr hblksz).1 fun o ho => h o ?_
    exact mem_flatMap.2 ⟨blk, hblk, ho⟩
  · intro h o ho
    obtain ⟨blk, hblk, ho⟩ := mem_flatMap.1 ho
    exact (entryReads_inside_iff blk blknr hblksz).2 (h blk hblk) o ho

theorem blksz_fits (d : ExtDisk) : 16 ≤ d.blksz ∧ d.blksz % 4 = 0 := by
  have hpos := Nat.two_pow_pos d.log2Blksz
  unfold ExtDisk.blksz
  omega

theorem scan_counts_replayed (m : JournalMap) (revkBlkList : List ExtBlock) (prev : Nat) (d : ExtDisk) :
    let inode := m.readInode d
    let jdb := d.readBlock (fun _ => 0) (m.readAllocatedBlock d inode prev)
    ∃ ofss : List Nat, (∀ ofs ∈ ofss, ofs + 8 ≤ d.blksz) ∧ (∀ i, scanTags d.blksz jdb d.blksz 12 i = i + ofss.length) ∧
      recoverTransaction m revkBlkList prev d = (ofss.foldl (replayTag m inode revkBlkList jdb) (prev, fun _ => 0, d)).2.2 ∧
      ∀ blknr sequenceNo, checkBlknrForRevoke revkBlkList blknr sequenceNo =
        (searchedBlocks blknr sequenceNo revkBlkList).any fun blk => (revokeEntries blk).contains blknr := by
  intro inode jdb
  have hpos := (blksz_fits d).1
  obtain ⟨ofss, hrun, hinside⟩ := tagOffsets_inside jdb (d.blksz - 1) 12 (show d.blksz < _ by omega)
  rw [Nat.sub_add_cancel (by omega)] at hrun
  exact ⟨ofss, hinside, fun i => scanTags_eq_offsets i hrun, recoverTags_eq_offsets m inode revkBlkList jdb prev _ d rfl hrun,
    checkBlknrForRevoke_eq_searched revkBlkList⟩

/-! ## The loop over the blocks -/

section

variable {m : JournalMap} {inode : Ext2Inode} {flag : RecoveryFlag} {s s' : JournalScan}

theorem journalStep_unexpected (h : ¬s.Expected m inode) : journalStep m inode flag s = .stop := if_pos h

theorem journalStep_expected (h : s.Expected m inode) : journalStep m inode flag s =
    if hBlocktype (s.jdb m inode) = EXT3_JOURNAL_DESCRIPTOR_BLOCK then descriptorStep (s.jdb m inode) s
    else if hBlocktype (s.jdb m inode) = EXT3_JOURNAL_COMMIT_BLOCK then commitStep m flag s
    else if hBlocktype (s.jdb m inode) = EXT3_JOURNAL_REVOKE_BLOCK then revokeStep flag (s.jdb m inode) s
    else .next s := if_neg (not_not.2 h)

theorem goes_iff_next : Goes (checkRound m inode flag) s s' ↔ journalStep m inode flag s = .next s' := by
  rw [Goes, checkRound]
  generalize journalStep m inode flag s = step
  cases step with
  | next t => simp [JournalStep.outcome]
  | stop => simp [JournalStep.outcome]
  | fail => simp [JournalStep.outcome]

theorem goes_self_of_unknown (h : s.Expected m inode) (htype : ¬KnownType (s.jdb m inode)) : Goes (checkRound m inode flag) s s := by
  obtain ⟨hdescriptor, hcommit, hrevoke⟩ := not_or.1 htype |>.imp_right not_or.1
  rw [goes_iff_next, journalStep_expected h, if_neg hdescriptor, if_neg hcommit, if_neg hrevoke]

theorem exists_goes (flag : RecoveryFlag) (h : s.Expected m inode) (hopen : ¬s.Reopens m inode) : ∃ s', Goes (checkRound m inode flag) s s' := by
  simp only [goes_iff_next, journalStep_expected h]
  split
  · rename_i hdescriptor
    exact ⟨_, if_neg fun hrunning => hopen ⟨hdescriptor, hrunning⟩⟩
  · split
    · exact ⟨_, rfl⟩
    · split
      · exact ⟨_, rfl⟩
      · exact ⟨_, rfl⟩

theorem le_scanTags (blksz : Nat) (jdb : ExtBlock) (fuel ofs i : Nat) : i ≤ scanTags blksz jdb fuel ofs i := by
  induction fuel generalizing ofs i with
  | zero => exact Nat.le_refl i
  | succ fuel ih =>
    rw [scanTags]
    dsimp only
    split
    · exact Nat.le_refl i
    · split
      · exact Nat.le_succ i
      · exact (Nat.le_succ i).trans (ih _ _)

/-- What a round of the loop does: `DB_FOUND` stays `YES` as long as a transaction is open, and the position grows unless the type of the
block is another one. -/
theorem goes_cases (h : Goes (checkRound m inode flag) s s') (hopen : s.dbFound = s.running) :
    s.Expected m inode ∧ ¬s.Reopens m inode ∧ s'.dbFound = s'.running ∧
      (KnownType (s.jdb m inode) ∧ s.i < s'.i ∨ ¬KnownType (s.jdb m inode) ∧ s' = s) := by
  rw [goes_iff_next] at h
  by_cases hexpected : s.Expected m inode
  · rw [journalStep_expected hexpected] at h
    refine ⟨hexpected, ?_⟩
    split at h
    · rename_i hdescriptor
      unfold descriptorStep at h
      split at h
      · cases h
      · rename_i hclosed
        obtain rfl := JournalStep.next.inj h
        exact ⟨fun hre => hclosed hre.2, rfl, Or.inl ⟨Or.inl hdescriptor, Nat.lt_succ_of_le (le_scanTags _ _ _ _ _)⟩⟩
    · rename_i hdescriptor
      refine ⟨fun hre => hdescriptor hre.1, ?_⟩
      split at h
      · rename_i hcommit
        have hends : (s.running || !s.dbFound) = true := by
          rw [hopen]
          exact Bool.or_not_self _
        obtain rfl := JournalStep.next.inj h
        simp only [hends, if_true]
        exact ⟨trivial, Or.inl ⟨Or.inr (Or.inl hcommit), Nat.lt_succ_self _⟩⟩
      · rename_i hcommit
        split at h
        · rename_i hrevoke
          obtain rfl := JournalStep.next.inj h
          exact ⟨hopen, Or.inl ⟨Or.inr (Or.inr hrevoke), Nat.lt_succ_self _⟩⟩
        · rename_i hrevoke
          obtain rfl := JournalStep.next.inj h
          exact ⟨hopen, Or.inr ⟨fun htype => htype.elim hdescriptor fun h => h.elim hcommit hrevoke, rfl⟩⟩
  · rw [journalStep_unexpected hexpected] at h
    cases h

theorem open_of_comes {s₀ : JournalScan} (h : Comes (checkRound m inode flag) s₀ s) (h₀ : s₀.dbFound = s₀.running) : s.dbFound = s.running := by
  induction h with
  | refl => exact h₀
  | tail _ hgoes ih => exact (goes_cases hgoes ih).2.2.1

end

/-! ## A call -/

section

variable (m : JournalMap) (flag : RecoveryFlag) (fs : JournalFs)

theorem journalLoop_eq_loop_iff (inode : Ext2Inode) (fuel : Nat) (s : JournalScan) :
    journalLoop m inode flag fuel s = .error .loop ↔ machine (checkRound m inode flag) fuel s = none := by
  unfold journalLoop
  induction fuel generalizing s with
  | zero => exact iff_of_true rfl rfl
  | succ fuel ih =>
    rw [journalRounds, machine, checkRound]
    generalize journalStep m inode flag s = step
    cases step with
    | next s' => exact ih s'
    | stop => exact iff_of_false (by intro h; cases h) (by intro h; cases h)
    | fail => exact iff_of_false (by intro h; cases h) (by intro h; cases h)

/-- A call has no result yet only if its loop has none. -/
theorem checkJournalState_eq_loop_iff (fuel : Nat) : ext4fsCheckJournalState m fuel flag fs = .error .loop ↔
    NeedsRecovery m fs ∧ journalLoop m (m.readInode fs.disk) flag fuel (scanStart m fs) = .error .loop := by
  unfold ext4fsCheckJournalState NeedsRecovery
  dsimp only
  split
  · rename_i hnone
    refine iff_of_false nofun fun h => ?_
    rcases hnone with hflag | hstart
    · exact absurd (hflag.symm.trans h.1.1) Bool.false_ne_true
    · exact h.1.2 hstart
  · rename_i hneeds
    obtain ⟨hflag, hstart⟩ := not_or.1 hneeds
    have hloop : ∀ r : Except JournalFault JournalScan, ∀ f : JournalScan → JournalFs,
        (r >>= fun s => pure (f s) : Except JournalFault JournalFs) = .error .loop ↔ r = .error .loop := by
      intro r f
      cases r with
      | ok s => exact iff_of_false nofun nofun
      | error e => exact ⟨fun h => by cases h; rfl, fun h => by cases h; rfl⟩
    refine (hloop _ _).trans ⟨fun h => ⟨⟨by simpa using hflag, hstart⟩, h⟩, fun h => h.2⟩

/-- What is asked of a call: the loop over the blocks ends, the loops over tags do in the buffers of the blocks, and the entries of revoke
blocks that a replay reads are in the buffers. -/
structure JournalSafe : Prop where
  ends : ∃ fuel, ext4fsCheckJournalState m fuel flag fs ≠ .error .loop
  tags : ∀ s, Scans m flag fs s → TagsInside s.fs.disk.blksz (s.jdb m (m.readInode fs.disk))
  replays : ∀ s, Scans m flag fs s → s.Replays m (m.readInode fs.disk) flag → TagsInside s.fs.disk.blksz (s.descriptor m)
  entries : ∀ s, Scans m flag fs s → s.Replays m (m.readInode fs.disk) flag → ∀ ofss, ReadsTags s.fs.disk.blksz (s.descriptor m) ofss →
    ∀ ofs ∈ ofss, ∀ o ∈ revokeReads s.fs.revkBlkList (tagBlock (s.descriptor m) ofs) (hSequence (s.descriptor m)), o + 4 ≤ s.fs.disk.blksz

/-- What the blocks that a call comes to must be like: a block of another type has another sequence number than the one that is expected,
from some position on every block has, unless it is a descriptor block in an open transaction, and the counts of the revoke blocks that a
replay searches fit. -/
structure JournalFinite : Prop where
  known : ∀ s, Scans m flag fs s → s.Expected m (m.readInode fs.disk) → KnownType (s.jdb m (m.readInode fs.disk))
  bounded : ∃ n, ∀ s, Scans m flag fs s → n ≤ s.i → s.Expected m (m.readInode fs.disk) → s.Reopens m (m.readInode fs.disk)
  counts : ∀ s, Scans m flag fs s → s.Replays m (m.readInode fs.disk) flag → ∀ ofss, ReadsTags s.fs.disk.blksz (s.descriptor m) ofss →
    ∀ ofs ∈ ofss, ∀ blk ∈ searchedBlocks (tagBlock (s.descriptor m) ofs) (hSequence (s.descriptor m)) s.fs.revkBlkList,
      CountFits s.fs.disk.blksz (tagBlock (s.descriptor m) ofs) blk

variable {m flag fs}

/-- The loop over the blocks ends just if it meets no block of another type with the expected number, and no end of blocks with it. -/
theorem halts_scan_iff (hneeds : NeedsRecovery m fs) : Halts (checkRound m (m.readInode fs.disk) flag) (scanStart m fs) ↔
    (∀ s, Scans m flag fs s → s.Expected m (m.readInode fs.disk) → KnownType (s.jdb m (m.readInode fs.disk))) ∧
      ∃ n, ∀ s, Scans m flag fs s → n ≤ s.i → s.Expected m (m.readInode fs.disk) → s.Reopens m (m.readInode fs.disk) := by
  have hpos : ∀ s s', Comes (checkRound m (m.readInode fs.disk) flag) (scanStart m fs) s →
      Goes (checkRound m (m.readInode fs.disk) flag) s s' → s' = s ∨ s.i < s'.i := by
    intro s s' hs hgoes
    rcases (goes_cases hgoes (open_of_comes hs rfl)).2.2.2 with ⟨-, hless⟩ | ⟨-, rfl⟩
    · exact Or.inr hless
    · exact Or.inl rfl
  rw [halts_iff_bounded JournalScan.i hpos]
  constructor
  · rintro ⟨hself, n, hn⟩
    refine ⟨fun s hs hexpected => ?_, n, fun s hs hle hexpected => ?_⟩
    · by_contra htype
      exact hself s hs.2 (goes_self_of_unknown hexpected htype)
    · by_contra hopen
      obtain ⟨s', hgoes⟩ := exists_goes flag hexpected hopen
      exact Nat.not_lt.2 hle (hn s s' hs.2 hgoes)
  · rintro ⟨hknown, n, hn⟩
    refine ⟨fun s hs hself => ?_, n, fun s s' hs hgoes => ?_⟩
    · obtain ⟨hexpected, -, -, hcases⟩ := goes_cases hself (open_of_comes hs rfl)
      rcases hcases with ⟨-, hless⟩ | ⟨htype, -⟩
      · exact Nat.lt_irrefl _ hless
      · exact htype (hknown s ⟨hneeds, hs⟩ hexpected)
    · obtain ⟨hexpected, hopen, -, -⟩ := goes_cases hgoes (open_of_comes hs rfl)
      by_contra hle
      exact hopen (hn s ⟨hneeds, hs⟩ (Nat.not_lt.1 hle) hexpected)

theorem ends_iff : (∃ fuel, ext4fsCheckJournalState m fuel flag fs ≠ .error .loop) ↔
    (∀ s, Scans m flag fs s → s.Expected m (m.readInode fs.disk) → KnownType (s.jdb m (m.readInode fs.disk))) ∧
      ∃ n, ∀ s, Scans m flag fs s → n ≤ s.i → s.Expected m (m.readInode fs.disk) → s.Reopens m (m.readInode fs.disk) := by
  by_cases hneeds : NeedsRecovery m fs
  · rw [← halts_scan_iff hneeds]
    simp only [Halts, ne_eq, checkJournalState_eq_loop_iff, journalLoop_eq_loop_iff, hneeds, true_and, ← Option.ne_none_iff_exists']
  · have hnone : ext4fsCheckJournalState m 0 flag fs ≠ .error .loop := fun h => hneeds ((checkJournalState_eq_loop_iff m flag fs 0).1 h).1
    exact iff_of_true ⟨0, hnone⟩ ⟨fun s hs => absurd hs.1 hneeds, 0, fun s hs => absurd hs.1 hneeds⟩

/-- **The scan of a journal ends, and reads in its buffers, just if the journal ends and its counts fit.** -/
theorem journal_scan_ends_iff (m : JournalMap) (flag : RecoveryFlag) (fs : JournalFs) : JournalSafe m flag fs ↔ JournalFinite m flag fs := by
  constructor
  · intro h
    obtain ⟨hknown, hbounded⟩ := ends_iff.1 h.ends
    refine ⟨hknown, hbounded, fun s hs hreplay ofss hofss ofs hofs => ?_⟩
    exact (revokeReads_inside_iff _ _ _ (blksz_fits _)).1 (h.entries s hs hreplay ofss hofss ofs hofs)
  · intro h
    have hends := ends_iff.2 ⟨h.known, h.bounded⟩
    refine ⟨hends, fun s _ => tagsInside _ _, fun s _ _ => tagsInside _ _, fun s hs hreplay ofss hofss ofs hofs => ?_⟩
    exact (revokeReads_inside_iff _ _ _ (blksz_fits _)).2 (h.counts s hs hreplay ofss hofss ofs hofs)

end

/-- A disk with blocks of 1024 bytes, all with the same words: those of a journal superblock, with the sequence number that it expects. -/
def equalBlocks : ExtDisk where
  words a := [be32 EXT3_JOURNAL_MAGIC_NUMBER, be32 4, be32 1, be32 1024, be32 64, be32 1, be32 1, be32 1][a % 256]?.getD 0
  size := 2 ^ 16
  log2Blksz := 1

def equalJournal : JournalFs := ⟨equalBlocks, fun _ => EXT3_FEATURE_INCOMPAT_RECOVER, []⟩

def journalFrom8 : JournalMap := ⟨fun _ => ⟨0, fun _ => 0⟩, fun _ _ i => 8 + i⟩

/-- Where all blocks are equal, the loop stays with the first one. -/
theorem journal_scan_stuck : ¬JournalSafe journalFrom8 .scan equalJournal := by
  intro h
  have hneeds : NeedsRecovery journalFrom8 equalJournal := ⟨by decide, by decide⟩
  have hexpected : (scanStart journalFrom8 equalJournal).Expected journalFrom8 (journalFrom8.readInode equalJournal.disk) := by
    unfold JournalScan.Expected
    decide
  have htype : hBlocktype ((scanStart journalFrom8 equalJournal).jdb journalFrom8 (journalFrom8.readInode equalJournal.disk)) = 4 := by
    decide
  have hknown := (ends_iff.1 h.ends).1 _ ⟨hneeds, Relation.ReflTransGen.refl⟩ hexpected
  unfold KnownType at hknown
  rw [htype] at hknown
  revert hknown
  decide

end UBoot
