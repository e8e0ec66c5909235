import UBoot.Lemmas.JournalAux

/-!
# The two passes over a journal

Statements about `ext4fs_check_journal_state`: what a round of its loop does with each kind of block, and from this what a pass does with
a log.
-/

namespace UBoot.JournalAux

open Lib List Option

/-! ## The loop over the journal -/

variable {blksz : Nat} {seq : UInt32}

/-- What the revoke blocks of a pass are pushed to. -/
def pushRevokes (flag : RecoveryFlag) (blks : List ExtBlock) (fs : JournalFs) : JournalFs :=
  if flag = .scan then { fs with revkBlkList := fs.revkBlkList ++ blks } else fs

/-- Blocks of the journal one after the other. -/
def journalBlocks (j : Nat → ExtBlock) (i n : Nat) : List ExtBlock := (List.range' i n).map j

theorem pushRevokes_disk (flag : RecoveryFlag) (blks : List ExtBlock) (fs : JournalFs) : (pushRevokes flag blks fs).disk = fs.disk := by
  unfold pushRevokes
  split <;> rfl

theorem pushRevokes_nil (flag : RecoveryFlag) (fs : JournalFs) : pushRevokes flag [] fs = fs := by
  unfold pushRevokes
  split
  · rw [append_nil]
  · rfl

theorem pushRevokes_pushRevokes (flag : RecoveryFlag) (blks blks' : List ExtBlock) (fs : JournalFs) :
    pushRevokes flag blks' (pushRevokes flag blks fs) = pushRevokes flag (blks ++ blks') fs := by
  unfold pushRevokes
  split
  · rw [append_assoc]
  · rfl

theorem revokeView_eq {names : List UInt32} {blk : ExtBlock} (h : IsRevoke blksz seq names blk)
    (hsmall : blksz < 2 ^ 31) : revokeView blk = (seq, names) := by
  have hfits := h.fits
  have hmax : (be32 (blk 3)).toNat < 2 ^ 31 := by
    rw [h.count]
    omega
  have hlen : ((be32 (blk 3)).toNat - 16 + 3) / 4 = names.length := by
    rw [h.count]
    omega
  unfold revokeView revokeEntries
  rw [h.sequence, if_pos hmax, hlen]
  congr 1
  apply ext_getElem?
  intro k
  rw [getElem?_map]
  cases hk : names[k]? with
  | none =>
    have := getElem?_eq_none_iff.1 hk
    rw [getElem?_eq_none (by simpa using this)]
    rfl
  | some b =>
    have hlt := (List.getElem?_eq_some_iff.1 hk).1
    rw [List.getElem?_range hlt, Option.map_some, h.names k b hk]

theorem journalBlocks_view {j : Nat → ExtBlock} {i : Nat} {revokes : List (List UInt32)}
    (h : RevokesAt blksz j seq i revokes) (hsmall : blksz < 2 ^ 31) :
    (journalBlocks j i revokes.length).map revokeView = revokes.map fun names => (seq, names) := by
  induction revokes generalizing i with
  | nil => rfl
  | cons names revokes ih =>
    have hrest := ih h.2
    unfold journalBlocks at hrest ⊢
    rw [length_cons, range'_succ, map_cons, map_cons, map_cons, hrest, revokeView_eq h.1 hsmall]

section Loop

variable {m : JournalMap} {d₀ : ExtDisk} {S : Nat → Prop} {flag : RecoveryFlag} {s : JournalScan} {seq : UInt32}
variable {inode : Ext2Inode}

theorem journalStep_eq (h : Kept m d₀ S s.fs.disk) (hsafe : SafeIndex m d₀ S s.i) (hseq : sSequence s.jsb = seq) :
    journalStep m (m.readInode d₀) flag s =
      let jdb := d₀.block (m.block d₀ s.i)
      if hSequence jdb ≠ seq then .stop
      else if hBlocktype jdb = EXT3_JOURNAL_DESCRIPTOR_BLOCK then descriptorStep jdb s
      else if hBlocktype jdb = EXT3_JOURNAL_COMMIT_BLOCK then commitStep m flag s
      else if hBlocktype jdb = EXT3_JOURNAL_REVOKE_BLOCK then revokeStep flag jdb s
      else .next s := by
  unfold journalStep
  rw [readBlock_journal h hsafe, hseq]

theorem journalStep_revoke {names : List UInt32} (h : Kept m d₀ S s.fs.disk) (hsafe : SafeIndex m d₀ S s.i)
    (hseq : sSequence s.jsb = seq) (hblk : IsRevoke d₀.blksz seq names (d₀.block (m.block d₀ s.i))) :
    journalStep m (m.readInode d₀) flag s = .next { s with
      i := s.i + 1
      fs := pushRevokes flag [d₀.block (m.block d₀ s.i)] s.fs } := by
  rw [journalStep_eq h hsafe hseq]
  simp only
  rw [if_neg (not_not.2 hblk.sequence), hblk.blocktype, if_neg (by decide), if_neg (by decide), if_pos rfl]
  rfl

theorem journalStep_descriptor {tags : List JournalTag} (h : Kept m d₀ S s.fs.disk)
    (hsafe : SafeIndex m d₀ S s.i) (hseq : sSequence s.jsb = seq) (hrun : s.running = false)
    (hblk : IsDescriptor d₀.blksz seq tags (d₀.block (m.block d₀ s.i))) :
    journalStep m (m.readInode d₀) flag s = .next { s with
      i := s.i + tags.length + 1
      dbFound := true
      running := true
      currDesc := s.i } := by
  have htags := scanTags_eq hblk.tags s.fs.disk.blksz s.i (by rw [SameBut.blksz h.same]; omega)
  rw [journalStep_eq h hsafe hseq]
  simp only
  rw [if_neg (not_not.2 hblk.sequence), if_pos hblk.blocktype, descriptorStep, hrun, if_neg Bool.false_ne_true]
  rw [SameBut.blksz h.same] at htags ⊢
  rw [htags]

theorem journalStep_commit (h : Kept m d₀ S s.fs.disk) (hsafe : SafeIndex m d₀ S s.i)
    (hseq : sSequence s.jsb = seq) (hrun : s.running = true) (hfound : s.dbFound = true)
    (hblk : IsCommit seq (d₀.block (m.block d₀ s.i))) :
    journalStep m (m.readInode d₀) flag s = .next {
      i := s.i + 1
      dbFound := false
      running := false
      prevDesc := s.currDesc
      currDesc := s.currDesc
      jsb := Function.update s.jsb 6 (be32 (seq + 1))
      fs := if flag = .recover then { s.fs with disk := recoverTransaction m s.fs.revkBlkList s.currDesc s.fs.disk } else s.fs } := by
  rw [journalStep_eq h hsafe hseq]
  simp only
  rw [if_neg (not_not.2 hblk.sequence), hblk.blocktype, if_neg (by decide), if_pos rfl]
  simp [commitStep, hrun, hfound, hseq]

theorem journalStep_stop (h : Kept m d₀ S s.fs.disk) (hsafe : SafeIndex m d₀ S s.i)
    (hseq : sSequence s.jsb = seq) (hblk : hSequence (d₀.block (m.block d₀ s.i)) ≠ seq) :
    journalStep m (m.readInode d₀) flag s = .stop := by
  rw [journalStep_eq h hsafe hseq]
  exact if_pos hblk

theorem journalLoop_next {s' : JournalScan} (h : journalStep m inode flag s = .next s') (fuel : Nat) :
    journalLoop m inode flag (fuel + 1) s = journalLoop m inode flag fuel s' := by
  rw [journalLoop, journalRounds, h]

theorem journalLoop_stop (h : journalStep m inode flag s = .stop) (fuel : Nat) :
    journalLoop m inode flag (fuel + 1) s = .ok s := by
  rw [journalLoop, journalRounds, h]

theorem journalLoop_revokes (h : Kept m d₀ S s.fs.disk) (revokes : List (List UInt32))
    (hsafe : ∀ k < revokes.length, SafeIndex m d₀ S (s.i + k)) (hseq : sSequence s.jsb = seq)
    (hblks : RevokesAt d₀.blksz (fun i => d₀.block (m.block d₀ i)) seq s.i revokes) (fuel : Nat) :
    journalLoop m (m.readInode d₀) flag (fuel + revokes.length) s = journalLoop m (m.readInode d₀) flag fuel { s with
      i := s.i + revokes.length
      fs := pushRevokes flag (journalBlocks (fun i => d₀.block (m.block d₀ i)) s.i revokes.length) s.fs } := by
  induction revokes generalizing s with
  | nil => rw [length_nil, journalBlocks, range'_zero, map_nil, pushRevokes_nil, Nat.add_zero]; rfl
  | cons names revokes ih =>
    have hstep : journalStep m (m.readInode d₀) flag s = _ := journalStep_revoke h (hsafe 0 (Nat.succ_pos _)) hseq hblks.1
    have hsafe' : ∀ k < revokes.length, SafeIndex m d₀ S (s.i + 1 + k) := by
      intro k hk
      have := hsafe (k + 1) (Nat.succ_lt_succ hk)
      rwa [← Nat.add_assoc, Nat.add_right_comm] at this
    have hrest := ih (s := { s with i := s.i + 1, fs := pushRevokes flag [d₀.block (m.block d₀ s.i)] s.fs })
      (by rw [pushRevokes_disk]; exact h) hsafe' hseq hblks.2
    rw [length_cons, ← Nat.add_assoc, journalLoop_next hstep, hrest]
    simp only [pushRevokes_pushRevokes, journalBlocks, range'_succ, map_cons, singleton_append, Nat.add_assoc, Nat.add_comm 1]

/-- The loop with the state that a committed transaction leaves. -/
theorem journalLoop_transaction {t : Transaction} (h : Kept m d₀ S s.fs.disk)
    (hsafe : ∀ k < t.size, SafeIndex m d₀ S (s.i + k)) (hseq : sSequence s.jsb = seq) (hrun : s.running = false)
    (ht : TransactionAt d₀.blksz (fun i => d₀.block (m.block d₀ i)) seq s.i t) (fuel : Nat) :
    journalLoop m (m.readInode d₀) flag (fuel + 1 + 1 + t.revokes.length) s = journalLoop m (m.readInode d₀) flag fuel {
      i := s.i + t.size
      dbFound := false
      running := false
      prevDesc := s.i + t.revokes.length
      currDesc := s.i + t.revokes.length
      jsb := Function.update s.jsb 6 (be32 (seq + 1))
      fs :=
        let fs := pushRevokes flag (journalBlocks (fun i => d₀.block (m.block d₀ i)) s.i t.revokes.length) s.fs
        if flag = .recover then { fs with disk := recoverTransaction m fs.revkBlkList (s.i + t.revokes.length) fs.disk } else fs } := by
  have hsize : t.size = t.revokes.length + t.tags.length + 2 := rfl
  have hat (k : Nat) (hk : k < t.size) (i : Nat) (hi : s.i + k = i) : SafeIndex m d₀ S i := hi ▸ hsafe k hk
  rw [journalLoop_revokes h t.revokes (fun k hk => hsafe k (by omega)) hseq ht.revokes]
  -- the descriptor block
  let s₁ : JournalScan := { s with
    i := s.i + t.revokes.length
    fs := pushRevokes flag (journalBlocks (fun i => d₀.block (m.block d₀ i)) s.i t.revokes.length) s.fs }
  have h₁ : Kept m d₀ S s₁.fs.disk := by
    change Kept m d₀ S (pushRevokes flag _ s.fs).disk
    rw [pushRevokes_disk]
    exact h
  have hdesc : journalStep m (m.readInode d₀) flag s₁ = _ :=
    journalStep_descriptor h₁ (hat t.revokes.length (by omega) _ rfl) hseq hrun ht.descriptor
  rw [journalLoop_next hdesc]
  -- the commit block
  have hcommit : journalStep m (m.readInode d₀) flag
      { s₁ with i := s₁.i + t.tags.length + 1, dbFound := true, running := true, currDesc := s₁.i } = _ :=
    journalStep_commit h₁ (hat (t.revokes.length + t.tags.length + 1) (by omega) _ (by change _ = s.i + t.revokes.length + _ + 1; omega))
      hseq rfl rfl (by
        have := ht.commit
        rwa [Nat.add_right_comm] at this)
  rw [journalLoop_next hcommit]
  congr 2
  change s.i + t.revokes.length + t.tags.length + 1 + 1 = s.i + t.size
  omega

theorem journalLoop_pending {names : List (List UInt32)} {tags : Option (List JournalTag)} (h : Kept m d₀ S s.fs.disk) (hsafe : ∀ k ≤ names.length + (tags.elim 0 fun ts => ts.length + 1), SafeIndex m d₀ S (s.i + k))
    (hseq : sSequence s.jsb = seq) (hrun : s.running = false)
    (hp : PendingAt d₀.blksz (fun i => d₀.block (m.block d₀ i)) seq s.i names tags) (fuel : Nat) :
    ∃ s', journalLoop m (m.readInode d₀) flag (fuel + 1 + 1 + names.length) s = .ok s' ∧
      s'.fs = pushRevokes flag (journalBlocks (fun i => d₀.block (m.block d₀ i)) s.i names.length) s.fs := by
  let s₁ : JournalScan := { s with
    i := s.i + names.length
    fs := pushRevokes flag (journalBlocks (fun i => d₀.block (m.block d₀ i)) s.i names.length) s.fs }
  have h₁ : Kept m d₀ S s₁.fs.disk := by
    change Kept m d₀ S (pushRevokes flag _ s.fs).disk
    rw [pushRevokes_disk]
    exact h
  rw [journalLoop_revokes h names (fun k hk => hsafe k (by omega)) hseq hp.revokes]
  cases tags with
  | none =>
    have hstop : journalStep m (m.readInode d₀) flag s₁ = .stop :=
      journalStep_stop h₁ (hsafe names.length (Nat.le_add_right _ _)) hseq hp.ends
    exact ⟨s₁, journalLoop_stop hstop _, rfl⟩
  | some ts =>
    have hdesc : journalStep m (m.readInode d₀) flag s₁ = _ :=
      journalStep_descriptor h₁ (hsafe names.length (Nat.le_add_right _ _)) hseq hrun (hp.descriptor ts rfl)
    have hstop : journalStep m (m.readInode d₀) flag
        { s₁ with i := s₁.i + ts.length + 1, dbFound := true, running := true, currDesc := s₁.i } = .stop :=
      journalStep_stop h₁ (by
        have := hsafe (names.length + (ts.length + 1)) (Nat.le_refl _)
        rwa [← Nat.add_assoc, ← Nat.add_assoc] at this) hseq (by
        have := hp.ends
        rwa [elim_some, ← Nat.add_assoc] at this)
    rw [journalLoop_next hdesc]
    exact ⟨_, journalLoop_stop hstop _, rfl⟩

end Loop

/-- How many rounds a pass takes for committed transactions. -/
def rounds (ts : List Transaction) : Nat := (ts.map fun t => t.revokes.length + 2).sum

/-- The blocks of committed transactions. -/
def sizes (ts : List Transaction) : Nat := (ts.map Transaction.size).sum

theorem sSequence_update (jsb : ExtBlock) (seq : UInt32) : sSequence (Function.update jsb 6 (be32 seq)) = seq := by
  rw [sSequence, Function.update_self, be32_be32]

theorem succ_add_ofNat (seq : UInt32) (n : Nat) : seq + 1 + UInt32.ofNat n = seq + UInt32.ofNat (n + 1) := by
  rw [UInt32.ofNat_add, UInt32.add_assoc, UInt32.add_comm 1]
  rfl

section Passes

variable {m : JournalMap} {d₀ : ExtDisk} {S : Nat → Prop} {names : List (List UInt32)} {tags : Option (List JournalTag)}
variable {s : JournalScan}

/-- The first pass gathers the revoke blocks, and changes nothing else. -/
theorem scanPass (hsmall : d₀.blksz < 2 ^ 31) (ts : List Transaction) {seq : UInt32}
    (h : Kept m d₀ S s.fs.disk)
    (hsafe : ∀ k ≤ sizes ts + names.length + (tags.elim 0 fun ts => ts.length + 1), SafeIndex m d₀ S (s.i + k))
    (hseq : sSequence s.jsb = seq) (hrun : s.running = false)
    (hlog : LogAt d₀.blksz (fun i => d₀.block (m.block d₀ i)) names tags seq s.i ts) (fuel : Nat) :
    ∃ s' blks, journalLoop m (m.readInode d₀) .scan (fuel + 1 + 1 + names.length + rounds ts) s = .ok s' ∧
      s'.fs = { s.fs with revkBlkList := s.fs.revkBlkList ++ blks } ∧
      blks.map revokeView = revokeRecords seq ts ++ names.map fun names => (seq + UInt32.ofNat ts.length, names) := by
  induction ts generalizing s seq with
  | nil =>
    obtain ⟨s', hloop, hfs⟩ := journalLoop_pending h (fun k hk => hsafe k (by simpa [sizes] using hk)) hseq hrun hlog fuel
    refine ⟨s', _, hloop, hfs, ?_⟩
    have hzero : seq + UInt32.ofNat ([] : List Transaction).length = seq := UInt32.add_zero seq
    rw [hzero, revokeRecords, nil_append]
    exact journalBlocks_view hlog.revokes hsmall
  | cons t ts ih =>
    obtain ⟨ht, hrest⟩ := hlog
    have hsizes : sizes (t :: ts) = t.size + sizes ts := by simp [sizes]
    have hrounds : fuel + 1 + 1 + names.length + rounds (t :: ts) = fuel + 1 + 1 + names.length + rounds ts + 1 + 1 + t.revokes.length := by
      simp only [rounds, map_cons, sum_cons]
      omega
    rw [hrounds, journalLoop_transaction h (fun k hk => hsafe k (by omega)) hseq hrun ht]
    obtain ⟨s', blks, hloop, hfs, hview⟩ := ih (s := {
        i := s.i + t.size
        dbFound := false
        running := false
        prevDesc := s.i + t.revokes.length
        currDesc := s.i + t.revokes.length
        jsb := Function.update s.jsb 6 (be32 (seq + 1))
        fs := pushRevokes .scan (journalBlocks (fun i => d₀.block (m.block d₀ i)) s.i t.revokes.length) s.fs })
      (by rw [pushRevokes_disk]; exact h)
      (fun k hk => by
        have := hsafe (t.size + k) (by omega)
        rwa [← Nat.add_assoc] at this)
      (sSequence_update _ _) rfl hrest
    refine ⟨s', journalBlocks (fun i => d₀.block (m.block d₀ i)) s.i t.revokes.length ++ blks, hloop, ?_, ?_⟩
    · rw [hfs, pushRevokes, if_pos rfl, ← append_assoc]
    · rw [map_append, hview, journalBlocks_view ht.revokes hsmall, revokeRecords, append_assoc, succ_add_ofNat, length_cons]

theorem imageWrites_txn {skip : Nat → Bool} {t : Transaction} (h : ∀ tag ∈ t.tags, skip tag.block.toNat = false → tag.escape = false) :
    imageWrites skip t.tags = t.txn.writes.filter fun w => !skip w.1 := by
  unfold imageWrites Transaction.txn
  rw [List.filter_map, List.filter_map]
  apply List.map_congr_left
  intro tag htag
  obtain ⟨hmem, hskip⟩ := mem_filter.1 htag
  have hescape := h tag hmem (by simpa using hskip)
  rw [JournalTag.home, hescape, if_neg Bool.false_ne_true]

/-- The second pass replays the committed transactions, less what is revoked, and changes nothing else. -/
theorem recoverPass (skip : Nat → Nat → Bool) (ts : List Transaction) {seq₀ : UInt32} {n : Nat}
    (hm : m.StaysAlong d₀ s.fs.disk (replayed skip n (ts.map Transaction.txn))) (h : d₀.SameBut S s.fs.disk)
    (hsafe : ∀ k ≤ sizes ts + names.length + (tags.elim 0 fun ts => ts.length + 1), SafeIndex m d₀ S (s.i + k))
    (hseq : sSequence s.jsb = seq₀ + UInt32.ofNat n) (hrun : s.running = false)
    (hlog : LogAt d₀.blksz (fun i => d₀.block (m.block d₀ i)) names tags (seq₀ + UInt32.ofNat n) s.i ts)
    (hskip : ∀ n, skip n = revokedAfter (s.fs.revkBlkList.map revokeView) (seq₀ + UInt32.ofNat n))
    (hhome : ∀ k t, ts[k]? = some t → ∀ tag ∈ t.tags, skip (n + k) tag.block.toNat = false →
      S tag.block.toNat ∧ d₀.Writable tag.block.toNat ∧ tag.escape = false) (fuel : Nat) :
    ∃ s' d', journalLoop m (m.readInode d₀) .recover (fuel + 1 + 1 + names.length + rounds ts) s = .ok s' ∧ s'.fs = { s.fs with disk := d' } ∧
      s.fs.disk.Becomes d' (applyWrites s.fs.disk.block (replayed skip n (ts.map Transaction.txn))) := by
  induction ts generalizing s n with
  | nil =>
    obtain ⟨s', hloop, hfs⟩ := journalLoop_pending ⟨StaysAlong.here hm, h⟩ (fun k hk => hsafe k (by simpa [sizes] using hk)) hseq hrun hlog fuel
    exact ⟨s', s.fs.disk, hloop, hfs, Becomes.refl _⟩
  | cons t ts ih =>
    obtain ⟨ht, hrest⟩ := hlog
    have hsizes : sizes (t :: ts) = t.size + sizes ts := by simp [sizes]
    have hsize : t.size = t.revokes.length + t.tags.length + 2 := rfl
    have hrounds : fuel + 1 + 1 + names.length + rounds (t :: ts) = fuel + 1 + 1 + names.length + rounds ts + 1 + 1 + t.revokes.length := by
      simp only [rounds, map_cons, sum_cons]
      omega
    have hhead : ∀ tag ∈ t.tags, skip n tag.block.toNat = false → S tag.block.toNat ∧ d₀.Writable tag.block.toNat ∧ tag.escape = false :=
      hhome 0 t rfl
    have hwrites : imageWrites (revokedAfter (s.fs.revkBlkList.map revokeView) (seq₀ + UInt32.ofNat n)) t.tags =
        t.txn.writes.filter fun w => !skip n w.1 := by
      rw [← hskip n, imageWrites_txn fun tag htag hs => (hhead tag htag hs).2.2]
    rw [map_cons, replayed] at hm ⊢
    have hreplay := recoverTransaction_becomes s.fs.revkBlkList (hwrites ▸ StaysAlong.left hm) h ht.descriptor ht.images (fun k hk => by
        have := hsafe (t.revokes.length + k) (by omega)
        rwa [← Nat.add_assoc] at this)
      (fun tag htag hs => by
        rw [← hskip n] at hs
        exact ⟨(hhead tag htag hs).1, (hhead tag htag hs).2.1⟩)
    rw [hwrites] at hreplay
    have hsame := SameBut.trans h (Becomes.sameBut hreplay (by
      intro w hw
      obtain ⟨hmem, hs⟩ := mem_filter.1 hw
      obtain ⟨tag, htag, rfl⟩ := mem_map.1 hmem
      exact (hhead tag htag (by simpa using hs)).1))
    obtain ⟨s', d', hloop, hfs, hrep⟩ := ih (n := n + 1) (s := {
        i := s.i + t.size
        dbFound := false
        running := false
        prevDesc := s.i + t.revokes.length
        currDesc := s.i + t.revokes.length
        jsb := Function.update s.jsb 6 (be32 (seq₀ + UInt32.ofNat n + 1))
        fs := { s.fs with disk := recoverTransaction m s.fs.revkBlkList (s.i + t.revokes.length) s.fs.disk } })
      (StaysAlong.behind hm hreplay) hsame
      (fun k hk => by
        have := hsafe (t.size + k) (by omega)
        rwa [← Nat.add_assoc] at this)
      (by rw [sSequence_update, UInt32.ofNat_add, UInt32.add_assoc]; rfl) rfl
      (by
        rw [UInt32.ofNat_add, ← UInt32.add_assoc]
        exact hrest)
      hskip
      (fun k u hu tag htag hs => by
        rw [Nat.add_assoc, Nat.add_comm 1] at hs
        exact hhome (k + 1) u hu tag htag hs)
    rw [hrounds, journalLoop_transaction ⟨StaysAlong.here hm, h⟩ (fun k hk => hsafe k (by omega)) hseq hrun ht]
    exact ⟨s', d', hloop, hfs, Becomes.trans hreplay hrep⟩

end Passes

/-! ## The two calls -/

theorem rounds_le_sizes (ts : List Transaction) : rounds ts ≤ sizes ts := by
  induction ts with
  | nil => rfl
  | cons t ts ih =>
    have hsize : t.size = t.revokes.length + t.tags.length + 2 := rfl
    simp only [rounds, sizes, map_cons, sum_cons] at ih ⊢
    omega

/-- The end of recovery writes the journal superblock, and a flag of the superblock. -/
theorem finishRecovery_block {m : JournalMap} {d₀ : ExtDisk} {S : Nat → Prop} (fs : JournalFs) (hm : m.Stays d₀ fs.disk.flagged)
    (h : d₀.SameBut S fs.disk) (hlog : 1 ≤ d₀.log2Blksz) (hsuper : S d₀.superBlock) (hwrite : d₀.Writable (m.block d₀ 0)) (jsb : ExtBlock)
    {b : Nat} (hb : b ≠ m.block d₀ 0)
    (hflag : b = d₀.superBlock → hasFlag (fs.disk.block b d₀.featureWord) EXT3_FEATURE_INCOMPAT_RECOVER) :
    (finishRecovery m (m.readInode d₀) jsb fs).disk.block b = fs.disk.block b := by
  have hsb : fs.disk.superBlock = d₀.superBlock := by
    unfold ExtDisk.superBlock
    rw [SameBut.perblock h]
  have hfw : fs.disk.featureWord = d₀.featureWord := by
    unfold ExtDisk.featureWord
    rw [SameBut.perblock h]
  obtain ⟨hother, hsame⟩ := flagged_block fs.disk (by rw [h.2.1]; exact hlog)
  rw [hsb] at hother hsame
  rw [hfw] at hsame
  have h' := SameBut.trans h (SameBut.mono hother fun c hc => hc ▸ hsuper)
  have hput := putBlock_becomes ((SameBut.writable h').2 hwrite)
  unfold finishRecovery
  simp only
  rw [put_super, hm.map, offset_eq ((SameBut.writable h').2 hwrite), (hput _).block, Function.update_of_ne hb]
  by_cases hbs : b = d₀.superBlock
  · rw [hbs] at hflag ⊢
    exact hsame (hflag rfl)
  · exact hother.2.2 b hbs

section Calls

variable {m : JournalMap} {fs : JournalFs} {log : JournalLog}

theorem safeIndex_of_uses (hlog : HoldsLog m fs log) (hfits : RecoveryFits m fs.disk log) {i : Nat}
    (hi : log.Uses (sFirst (m.super fs.disk)).toNat i) :
    SafeIndex m fs.disk (fun b => b = fs.disk.superBlock ∨ log.Names b) i :=
  ⟨fun h => h.elim (hlog.apart i hi).1 (hlog.apart i hi).2, hlog.has i hi, hfits.addressable i hi⟩

theorem uses_add {first k : Nat} (hk : k ≤ sizes log.committed + log.revokes.length + (log.tags.elim 0 fun ts => ts.length + 1)) :
    log.Uses first (first + k) :=
  Or.inr ⟨Nat.le_add_right _ _, Nat.add_le_add_left hk _⟩

/-- The state in which the loop of a pass begins. -/
def startScan (m : JournalMap) (fs : JournalFs) : JournalScan where
  i := (sFirst (m.super fs.disk)).toNat
  dbFound := false
  running := false
  prevDesc := 0
  currDesc := 0
  jsb := Function.update (m.super fs.disk) 9 (m.super fs.disk 9 ||| be32 JBD2_FEATURE_COMPAT_CHECKSUM)
  fs := fs

theorem sSequence_compat (jsb : ExtBlock) (w : UInt32) : sSequence (Function.update jsb 9 w) = sSequence jsb := by
  rw [sSequence, Function.update_of_ne (by decide), sSequence]

theorem sFirst_compat (jsb : ExtBlock) (w : UInt32) : sFirst (Function.update jsb 9 w) = sFirst jsb := by
  rw [sFirst, Function.update_of_ne (by decide), sFirst]

theorem checkJournalState_eq (fs : JournalFs) {flag : RecoveryFlag} {fuel : Nat} {s : JournalScan}
    (hread : fs.disk.readBlock (fun _ => 0) (m.block fs.disk 0) = m.super fs.disk)
    (hrecover : hasFlag (featureIncompat fs.sb) EXT3_FEATURE_INCOMPAT_RECOVER) (hstart : sStart (m.super fs.disk) ≠ 0)
    (hloop : journalLoop m (m.readInode fs.disk) flag fuel (startScan m fs) = .ok s) :
    ext4fsCheckJournalState m fuel flag fs = .ok (if flag = .recover then finishRecovery m (m.readInode fs.disk) s.jsb s.fs else s.fs) := by
  have hfails : ¬(hasFlag (featureIncompat fs.sb) EXT3_FEATURE_INCOMPAT_RECOVER = false ∨ sStart (m.super fs.disk) = 0) := by
    rw [hrecover]
    exact fun h => h.elim (fun h => Bool.noConfusion h) hstart
  unfold ext4fsCheckJournalState
  simp only
  rw [← JournalMap.block, hread, if_neg hfails, sFirst_compat]
  exact congrArg (· >>= _) hloop

theorem tag_of_logResult {b : Nat} {image : ExtBlock} (h : logResult log.txns b = some image) :
    ∃ n t, log.committed[n]? = some t ∧ ∃ tag ∈ t.tags, tag.block.toNat = b ∧ tag.home = image ∧
      revokedIn (log.txns.drop (n + 1)) b = false := by
  obtain ⟨n, u, hu, hmem, hrev⟩ := exists_of_logResult h
  rw [JournalLog.txns, getElem?_map, map_eq_some_iff] at hu
  obtain ⟨t, ht, rfl⟩ := hu
  obtain ⟨tag, htag, he⟩ := mem_map.1 hmem
  exact ⟨n, t, ht, tag, htag, congrArg Prod.fst he, congrArg Prod.snd he, hrev⟩

theorem lastWrite_writes (log : JournalLog) (b : Nat) : lastWrite log.writes b = logResult log.txns b := by
  apply lastWrite_replayed
  intro n u _ v _
  rw [Nat.zero_add]

/-- The two calls leave for each block what the log leaves for it, but for the journal superblock and a flag in the superblock. -/
theorem recovery_block (hlog : HoldsLog m fs log) (hfits : RecoveryFits m fs.disk log) (fuel : Nat) :
    ∃ fs₁ fs₂, ext4fsCheckJournalState m (fuel + 1 + 1 + log.revokes.length + rounds log.committed) .scan fs = .ok fs₁ ∧
      ext4fsCheckJournalState m (fuel + 1 + 1 + log.revokes.length + rounds log.committed) .recover fs₁ = .ok fs₂ ∧
      ∀ b, b ≠ m.block fs.disk 0 → (b = fs.disk.superBlock → logResult log.txns b = none →
        hasFlag (fs.disk.block b fs.disk.featureWord) EXT3_FEATURE_INCOMPAT_RECOVER) →
        fs₂.disk.block b = (logResult log.txns b).getD (fs.disk.block b) := by
  have hsmall : fs.disk.blksz < 2 ^ 31 := by
    have := Nat.pow_le_pow_right (show 0 < 2 by decide) hlog.log2Blksz.2
    unfold ExtDisk.blksz
    omega
  have hsafe := fun k hk => safeIndex_of_uses hlog hfits (@uses_add log (sFirst (m.super fs.disk)).toNat k hk)
  have hread : fs.disk.readBlock (fun _ => 0) (m.block fs.disk 0) = m.super fs.disk :=
    readBlock_eq _ (hlog.has 0 (Or.inl rfl)) (hfits.addressable 0 (Or.inl rfl))
  -- the first pass
  obtain ⟨s₁, blks, hloop₁, hfs₁, hview⟩ := scanPass hsmall log.committed (s := startScan m fs) ⟨StaysAlong.here hfits.steady.replay, SameBut.refl _ _⟩ hsafe
    (sSequence_compat _ _) rfl hlog.log fuel
  have hscan := checkJournalState_eq fs hread hlog.recover hlog.start hloop₁
  rw [if_neg (by decide), hfs₁] at hscan
  -- the second pass
  have hrecords : (fs.revkBlkList ++ blks).map revokeView = log.records (sSequence (m.super fs.disk)) := by
    rw [hlog.revkBlkList, nil_append, hview, JournalLog.records]
  have hzero : sSequence (m.super fs.disk) + UInt32.ofNat 0 = sSequence (m.super fs.disk) := UInt32.add_zero _
  let skip (n : Nat) := revokedAfter (log.records (sSequence (m.super fs.disk))) (sSequence (m.super fs.disk) + UInt32.ofNat n)
  have hwrites : replayed skip 0 (log.committed.map Transaction.txn) = log.writes := by
    apply replayed_congr
    intro k u hu w hw
    rw [getElem?_map, map_eq_some_iff] at hu
    obtain ⟨t, ht, rfl⟩ := hu
    obtain ⟨tag, htag, rfl⟩ := mem_map.1 hw
    rw [Nat.zero_add]
    exact hfits.revokes k t ht tag htag
  obtain ⟨s₂, d', hloop₂, hfs₂, hbecomes⟩ := recoverPass skip log.committed (n := 0)
    (s := startScan m { fs with revkBlkList := fs.revkBlkList ++ blks }) (hwrites ▸ hfits.steady.replay) (SameBut.refl _ _) hsafe
    ((sSequence_compat _ _).trans hzero.symm) rfl (by rw [hzero]; exact hlog.log)
    (fun n => congrArg (revokedAfter · _) hrecords.symm)
    (fun k t ht tag htag hs => by
      rw [Nat.zero_add] at hs
      rw [show skip k tag.block.toNat = _ from hfits.revokes k t ht tag htag] at hs
      obtain ⟨hwrite, hescape, -⟩ := hfits.tags k t ht tag htag hs
      exact ⟨Or.inr ⟨t, mem_of_getElem? ht, tag, htag, rfl⟩, hwrite, hescape⟩) fuel
  have hbecomes : fs.disk.Becomes d' (applyWrites fs.disk.block log.writes) := hwrites ▸ hbecomes
  have hrecover := checkJournalState_eq { fs with revkBlkList := fs.revkBlkList ++ blks } hread hlog.recover hlog.start hloop₂
  rw [if_pos rfl, hfs₂] at hrecover
  refine ⟨_, _, hscan, hrecover, ?_⟩
  intro b hb hsuper
  have hblock : d'.block b = (logResult log.txns b).getD (fs.disk.block b) := by
    rw [hbecomes.block, applyWrites_apply, lastWrite_writes]
  have hsame : fs.disk.SameBut (fun b => b = fs.disk.superBlock ∨ log.Names b) d' := by
    refine Becomes.sameBut hbecomes ?_
    intro w hw
    obtain ⟨u, hu, hmem⟩ := mem_replayed hw
    obtain ⟨t, ht, rfl⟩ := mem_map.1 hu
    obtain ⟨tag, htag, rfl⟩ := mem_map.1 hmem
    exact Or.inr ⟨t, ht, tag, htag, rfl⟩
  refine (finishRecovery_block { fs with disk := d', revkBlkList := fs.revkBlkList ++ blks } (hfits.steady.flag d' hbecomes) hsame
    hlog.log2Blksz.1 (Or.inl rfl) hfits.super s₂.jsb hb ?_).trans hblock
  intro hb'
  dsimp only
  cases hresult : logResult log.txns b with
  | none =>
    rw [hblock, hresult, getD_none]
    exact hsuper hb' hresult
  | some image =>
    obtain ⟨n, t, ht, tag, htag, hname, hhome, hrev⟩ := tag_of_logResult hresult
    subst hname
    obtain ⟨-, hescape, hflag⟩ := hfits.tags n t ht tag htag hrev
    rw [hblock, hresult, getD_some, ← hhome, JournalTag.home, hescape, if_neg Bool.false_ne_true]
    exact hflag hb'

end Calls

end UBoot.JournalAux
