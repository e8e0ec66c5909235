import UBoot.Lemmas.FatInside

/-!
# Where a look-up of a file stays in its buffers

Nothing on the medium is checked but the sector size. `FatRead.Inside` says of a state what keeps the next round in the buffers.
-/

namespace UBoot

open List Option

/-- What keeps a turn of a loop over entries in the buffers: the entry is in the block, and where it is a slot, its name is inside. -/
structure EntryInside (disk : Nat → UInt8) (fs : FsData) (curclust : Nat) (st : ScanState) : Prop where
  room : st.left ≠ 0 → DIRENT_SIZE * (st.dent + 1) ≤ MAX_CLUSTSIZE
  name : st.left ≠ 0 → entryKind (st.bufs.block (DIRENT_SIZE * st.dent)) (st.bufs.block (DIRENT_SIZE * st.dent + ATTR)) = .slot →
    NameInside disk fs curclust st.dent st.bufs

/-- What keeps a round in the buffers: a cluster that is read fits in a block; the entries are inside; the FAT entry of the cluster is one of
the FAT where it is looked up, behind the last entry or in a file; and of a cluster that is entered in the middle, `pos` lies in what is
read. -/
def FatRead.Inside (r : FatRead) : FatState → Prop
  | .root cursect rootCluster j dent bufs =>
    (j = 0 → r.fs.fatsize = .fat32 → r.fs.bytesPerClust ≤ MAX_CLUSTSIZE) ∧ ∀ d b, r.rootBlock cursect j dent bufs = some (d, b) →
      ∀ st, (scanLoop r.disk r.fs rootCluster r.rootSearch).Reaches ⟨r.fs.sectSize / DIRENT_SIZE, d, b⟩ st →
        EntryInside r.disk r.fs rootCluster st ∧
          (st.left = 0 → r.fs.fatsize = .fat32 → j + 1 = r.fs.clustSize → r.fs.InReach rootCluster)
  | .dir step curclust bufs =>
    r.fs.bytesPerClust ≤ MAX_CLUSTSIZE ∧ ∀ st, (scanLoop r.disk r.fs curclust (r.dirSearch step)).Reaches ⟨r.fs.bytesPerClust / DIRENT_SIZE, 0,
        { bufs with block := getCluster r.disk r.fs curclust 0 r.fs.bytesPerClust bufs.block }⟩ st →
      EntryInside r.disk r.fs curclust st ∧ (st.left = 0 → r.fs.InReach curclust)
  | .seek curclust actsize filesize pos _ =>
    if actsize ≤ pos then r.fs.InReach curclust
    else
      let filesize := sub32 filesize (sub32 actsize r.fs.bytesPerClust)
      let pos := sub32 pos (sub32 actsize r.fs.bytesPerClust)
      let actsize := min filesize r.fs.bytesPerClust
      pos ≠ 0 → actsize ≤ MAX_CLUSTSIZE ∧ pos ≤ actsize ∧ (sub32 filesize actsize ≠ 0 → r.fs.InReach curclust)
  | .run endclust actsize filesize _ _ => actsize < filesize → r.fs.InReach endclust

namespace FatInside

variable {disk : Nat → UInt8} {fs : FsData} {curclust : Nat} {s : Search} {st st' : ScanState}
variable {dent cursect rootCluster j actsize filesize pos : Nat} {bufs b : DirBufs} {x : (ScanEnd × DirBufs) ⊕ ScanState} {mount : FatMount}
    {step : PathStep}

/-! ## Entries -/

theorem entryKind_slot {name0 attr : UInt8} (h : entryKind name0 attr = .slot) : name0 &&& LAST_LONG_ENTRY_MASK ≠ 0 := by
  unfold entryKind at h
  split at h
  · cases h
  · split at h
    · cases h
    · split at h
      next hslot => exact hslot.2
      next => cases h

/-- Where a loop over entries is: the FAT buffer is loaded, and the entry lies in front of the end of the cluster. -/
structure ScanPlaced (fs : FsData) (curclust : Nat) (st : ScanState) : Prop where
  loaded : fs.Loaded st.bufs.fb
  within : st.left ≠ 0 → curclust ≠ 0 → fs.clustSize ≠ 0 → DIRENT_SIZE * (st.dent + st.left) ≤ fs.slotLimit curclust

/-- What is known of the volume and of a cluster whose entries are gone through. -/
structure Readable (fs : FsData) (curclust : Nat) : Prop where
  sectSize : fs.sectSize = 512
  fatlength : fs.fatlength < 2 ^ 32
  cluster : curclust < 2 ^ 32
  fits : curclust ≠ 0 → fs.bytesPerClust ≤ MAX_CLUSTSIZE

/-- A turn of a loop over entries stays in the buffers just if the entry is inside. -/
theorem scanRound_isSome_iff (hr : Readable fs curclust) (hp : ScanPlaced fs curclust st) :
    (scanRound disk fs curclust s st).isSome ↔ EntryInside disk fs curclust st := by
  unfold scanRound
  split
  next hleft => exact iff_of_true rfl ⟨fun h => absurd hleft h, fun h => absurd hleft h⟩
  next hleft =>
    split
    next hroom => exact iff_of_false Bool.false_ne_true fun h => absurd (h.room hleft) (Nat.not_le.2 hroom)
    next hroom =>
      have hroom := Nat.le_of_not_lt hroom
      simp only
      split
      next hkind => exact iff_of_true rfl ⟨fun _ => hroom, fun _ h => by cases hkind.symm.trans h⟩
      next hkind => exact iff_of_true rfl ⟨fun _ => hroom, fun _ h => by cases hkind.symm.trans h⟩
      next hkind =>
        refine iff_of_true ?_ ⟨fun _ => hroom, fun _ h => by cases hkind.symm.trans h⟩
        split <;> rfl
      next hkind =>
        have hname := getVfatname_isSome_iff disk hr.sectSize hr.fatlength hp.loaded hr.cluster hr.fits (entryKind_slot hkind)
          (fun hne hflat => by
            have := hp.within hleft hne hflat
            unfold DIRENT_SIZE at *
            omega)
        have hentry : EntryInside disk fs curclust st ↔ NameInside disk fs curclust st.dent st.bufs :=
          ⟨fun h => h.name hleft hkind, fun h => ⟨fun _ => hroom, fun _ _ => h⟩⟩
        rw [hentry, ← hname]
        cases hget : getVfatname disk fs curclust st.dent st.bufs with
        | none => exact Iff.rfl
        | some r =>
          refine iff_of_true ?_ rfl
          simp only
          split <;> rfl

theorem scan_reaches (h : (scanLoop disk fs curclust s).Reaches st st') : st'.dent + st'.left = st.dent + st.left := by
  induction h with
  | refl => rfl
  | tail _ hround ih =>
    obtain ⟨hleft, hless, hdent, -⟩ := scanRound_goes hround
    omega

theorem getVfatname_loaded {bufs' : DirBufs} {lname : Option (List UInt8)} (hr : Readable fs curclust)
    (hfb : fs.Loaded bufs.fb) (h : getVfatname disk fs curclust dent bufs = some (lname, bufs')) : fs.Loaded bufs'.fb := by
  have hend {st : DirBufs} {slot : Nat} {realdent name : List UInt8} (hst : fs.Loaded st.fb)
      (h : endVfatname st dent slot realdent name = some (lname, bufs')) : fs.Loaded bufs'.fb := by
    unfold endVfatname at h
    split at h
    · cases h
    · split at h
      · cases h
      · cases h
        exact hst
  unfold getVfatname at h
  simp only at h
  generalize (fs.sectSize * if curclust = 0 then PREFETCH_BLOCKS else fs.clustSize) = limit at h
  split at h
  · cases h
    exact hfb
  · split at h
    · cases h
      exact hfb
    · split at h
      · split at h
        · cases h
          exact hfb
        · split at h
          · cases h
          next clust fb hget =>
            have hfb' := (getFatentIn_spec hr.sectSize hr.fatlength hfb hr.cluster hget).2.1
            split at h
            · cases h
              exact hfb'
            · split at h
              · cases h
              · split at h
                · cases h
                  exact hfb'
                · split at h
                  · cases h
                  · exact hend hfb' h
      · exact hend hfb h

/-- The buffers behind a turn of a loop over entries. -/
def bufsOf : (ScanEnd × DirBufs) ⊕ ScanState → DirBufs := Sum.elim Prod.snd ScanState.bufs

theorem scanRound_loaded (hr : Readable fs curclust) (hfb : fs.Loaded st.bufs.fb)
    (h : scanRound disk fs curclust s st = some x) : fs.Loaded (bufsOf x).fb := by
  have hcompare (st0 : ScanState) (lname : List UInt8) : bufsOf (s.compare st0 lname) = st0.bufs := by
    unfold Search.compare
    split <;> rfl
  unfold scanRound at h
  simp only at h
  split at h
  · cases h
    exact hfb
  · split at h
    · cases h
    · split at h
      · cases h
        exact hfb
      · cases h
        exact hfb
      · split at h
        · cases h
          exact hfb
        · cases h
          rwa [hcompare]
      · split at h
        · cases h
        next hget =>
          have hfb' := getVfatname_loaded hr hfb hget
          split at h
          · cases h
            exact hfb'
          · cases h
            rwa [hcompare]

theorem scanPlaced_reaches (hr : Readable fs curclust) (hp : ScanPlaced fs curclust st) (h : (scanLoop disk fs curclust s).Reaches st st') :
    ScanPlaced fs curclust st' := by
  induction h with
  | refl => exact hp
  | @tail st₁ st₂ _ hround ih =>
    obtain ⟨hleft, hless, hdent, -⟩ := scanRound_goes hround
    have hsum : st₂.dent + st₂.left = st₁.dent + st₁.left := by omega
    exact ⟨scanRound_loaded hr ih.loaded hround, fun _ hne hflat => hsum ▸ ih.within hleft hne hflat⟩

theorem scan_isSome_iff (hr : Readable fs curclust) (hp : ScanPlaced fs curclust st) :
    ((scanLoop disk fs curclust s).run st).isSome ↔
      ∀ st', (scanLoop disk fs curclust s).Reaches st st' → EntryInside disk fs curclust st' := by
  rw [Lib.Loop.run_isSome_iff]
  exact forall₂_congr fun st' hreach => scanRound_isSome_iff hr (scanPlaced_reaches hr hp hreach)

/-- A loop comes behind the last entry just if it comes to a state without any left. -/
theorem scan_more_iff {d : Nat} : (scanLoop disk fs curclust s).run st = some (.more d, b) ↔
    ∃ st', (scanLoop disk fs curclust s).Reaches st st' ∧ st'.left = 0 ∧ d = st'.dent ∧ b = st'.bufs := by
  have hcompare (st0 : ScanState) (lname : List UInt8) : s.compare st0 lname ≠ .inl (.more d, b) := by
    unfold Search.compare
    split <;> exact fun h => by cases h
  rw [Lib.Loop.run_eq_some_iff]
  refine exists_congr fun st' => and_congr_right fun _ => ?_
  change scanRound disk fs curclust s st' = some (.inl (.more d, b)) ↔ _
  unfold scanRound
  simp only
  split
  next hleft =>
    constructor
    · intro h
      cases h
      exact ⟨hleft, rfl, rfl⟩
    · rintro ⟨-, rfl, rfl⟩
      rfl
  next hleft =>
    refine iff_of_false ?_ fun h => hleft h.1
    intro h
    split at h
    · cases h
    · split at h
      · cases h
      · cases h
      · split at h
        · cases h
        · exact hcompare _ _ (some.inj h)
      · split at h
        · cases h
        · split at h
          · cases h
          · exact hcompare _ _ (some.inj h)

/-- A loop over entries stays in the buffers, and asks where it may, just if each entry that it comes to is inside and a state without
any left may ask. -/
theorem scan_inside_iff (hr : Readable fs curclust) (hp : ScanPlaced fs curclust st) (asks : Prop) :
    (∀ st', (scanLoop disk fs curclust s).Reaches st st' → EntryInside disk fs curclust st' ∧ (st'.left = 0 → asks)) ↔
      ∃ e b, (scanLoop disk fs curclust s).run st = some (e, b) ∧ ∀ d, e = .more d → asks := by
  constructor
  · intro h
    obtain ⟨⟨e, b⟩, hrun⟩ := isSome_iff_exists.1 ((scan_isSome_iff hr hp).2 fun st' hreach => (h st' hreach).1)
    refine ⟨e, b, hrun, ?_⟩
    rintro d rfl
    obtain ⟨st', hreach, hleft, -⟩ := scan_more_iff.1 hrun
    exact (h st' hreach).2 hleft
  · rintro ⟨e, b, hrun, hasks⟩ st' hreach
    refine ⟨(scan_isSome_iff hr hp).1 (by rw [hrun]; rfl) st' hreach, fun hleft => ?_⟩
    have hmore := scan_more_iff.2 ⟨st', hreach, hleft, rfl, rfl⟩
    rw [hrun] at hmore
    exact hasks st'.dent (Prod.mk.inj (some.inj hmore)).1

theorem scan_loaded (hr : Readable fs curclust) (hp : ScanPlaced fs curclust st) {e : ScanEnd}
    (h : (scanLoop disk fs curclust s).run st = some (e, b)) : fs.Loaded b.fb := by
  obtain ⟨st', hreach, hround⟩ := Lib.Loop.run_eq_some_iff.1 h
  exact scanRound_loaded hr (scanPlaced_reaches hr hp hreach).loaded hround

/-! ## The volume -/

theorem bootNat_lt (disk : Nat → UInt8) (i n : Nat) : bootNat disk i n < 256 ^ n := by
  have h := leNat_lt ((List.range n).map fun j => disk (i + j))
  rwa [length_map, length_range] at h

/-- What is checked of a volume, and what follows from the sizes of its fields. -/
theorem fatMount_spec {blksz : Nat} (h : fatMount disk blksz = some mount) :
    mount.fs.sectSize = blksz ∧ mount.fs.fatlength < 2 ^ 32 ∧ mount.rootCluster < 2 ^ 32 ∧
      (mount.fs.fatsize ≠ .fat32 → mount.rootCluster = 0) := by
  unfold fatMount at h
  split at h
  · cases h
  next fatsize _ =>
    simp only at h
    split at h
    · cases h
    next hsect =>
      cases h
      refine ⟨Classical.not_not.1 hsect, ?_, ?_, ?_⟩
      · simp only
        split
        · exact bootNat_lt disk 36 4
        · exact Nat.lt_trans (bootNat_lt disk 22 2) (by decide)
      · simp only
        split
        · exact bootNat_lt disk 44 4
        · decide
      · intro hne
        exact if_neg hne

/-- The short name of an entry stays in `s_name`. -/
theorem snameLast_lt (entry : List UInt8) : snameLast entry < SNAME_SIZE := by
  have hlen : ((entry.take 8).takeWhile inShortName).length ≤ 8 :=
    Nat.le_trans (List.takeWhile_prefix _).length_le (length_take_le 8 entry)
  unfold snameLast SNAME_SIZE
  split <;> omega

/-! ## Rounds -/

/-- What is known of a volume whose sectors have the size of a block. -/
structure Mounted (r : FatRead) : Prop where
  sectSize : r.fs.sectSize = 512
  fatlength : r.fs.fatlength < 2 ^ 32

/-- Where the loop over the root directory is. -/
structure RootPlaced (r : FatRead) (rootCluster j dent : Nat) : Prop where
  dent : j ≠ 0 → dent = 16 * j
  fat32 : r.fs.fatsize = .fat32 → j ≠ 0 → (r.fs.clustSize ≠ 0 → j < r.fs.clustSize) ∧ r.fs.bytesPerClust ≤ MAX_CLUSTSIZE
  other : r.fs.fatsize ≠ .fat32 → j < 2 ∧ rootCluster = 0

/-- Where the loops put a state. -/
def Placed (r : FatRead) : FatState → Prop
  | .root _ rootCluster j dent bufs => r.fs.Loaded bufs.fb ∧ rootCluster < 2 ^ 32 ∧ RootPlaced r rootCluster j dent
  | .dir _ curclust bufs => r.fs.Loaded bufs.fb ∧ curclust < 2 ^ 32
  | .seek curclust _ _ _ bufs => r.fs.Loaded bufs.fb ∧ curclust < 2 ^ 32
  | .run endclust _ _ _ bufs => r.fs.Loaded bufs.fb ∧ endclust < 2 ^ 32

variable {r : FatRead}

theorem Mounted.fatent_isSome_iff (hm : Mounted r) {fb : FatBuf} (hfb : r.fs.Loaded fb) (hcurclust : curclust < 2 ^ 32) :
    (getFatentIn r.disk r.fs fb curclust).isSome ↔ r.fs.InReach curclust :=
  getFatentIn_isSome_iff r.disk hm.sectSize hm.fatlength hfb hcurclust

theorem Mounted.fatent_spec (hm : Mounted r) {fb fb' : FatBuf} {clust : Nat} (hfb : r.fs.Loaded fb) (hcurclust : curclust < 2 ^ 32)
    (h : getFatentIn r.disk r.fs fb curclust = some (clust, fb')) : clust < 2 ^ 32 ∧ r.fs.Loaded fb' :=
  have hspec := getFatentIn_spec hm.sectSize hm.fatlength hfb hcurclust h
  ⟨hspec.1, hspec.2.1⟩

theorem rootBlock_isSome_iff (hm : Mounted r) (cursect j dent : Nat) (bufs : DirBufs) :
    (r.rootBlock cursect j dent bufs).isSome ↔ (j = 0 → r.fs.fatsize = .fat32 → r.fs.bytesPerClust ≤ MAX_CLUSTSIZE) := by
  unfold FatRead.rootBlock
  split
  next hj =>
    simp only
    by_cases h32 : r.fs.fatsize = .fat32
    · rw [if_pos h32]
      split
      next hbig => exact iff_of_false Bool.false_ne_true fun h => absurd (h hj h32) (Nat.not_le.2 hbig)
      next hbig => exact iff_of_true rfl fun _ _ => Nat.le_of_not_lt hbig
    · rw [if_neg h32, hm.sectSize]
      exact iff_of_true rfl fun _ h => absurd h h32
  next hj => exact iff_of_true rfl fun h => absurd h hj

/-- A root directory that has a cluster is that of a FAT32. -/
theorem RootPlaced.fatsize (hp : RootPlaced r rootCluster j dent) (hroot : rootCluster ≠ 0) : r.fs.fatsize = .fat32 := by
  by_contra h
  exact hroot (hp.other h).2

theorem RootPlaced.fits (hp : RootPlaced r rootCluster j dent) (hfit : j = 0 → r.fs.fatsize = .fat32 → r.fs.bytesPerClust ≤ MAX_CLUSTSIZE)
    (h32 : r.fs.fatsize = .fat32) : r.fs.bytesPerClust ≤ MAX_CLUSTSIZE := by
  by_cases hj : j = 0
  · exact hfit hj h32
  · exact (hp.fat32 h32 hj).2

theorem rootBlock_spec {d : Nat} (hp : RootPlaced r rootCluster j dent)
    (h : r.rootBlock cursect j dent bufs = some (d, b)) : d = 16 * j ∧ b.fb = bufs.fb := by
  unfold FatRead.rootBlock at h
  simp only at h
  generalize (if r.fs.fatsize = .fat32 then r.fs.clustSize else PREFETCH_BLOCKS) = n at h
  split at h
  next hj =>
    split at h
    · cases h
    · cases h
      exact ⟨by rw [hj], rfl⟩
  next hj =>
    cases h
    exact ⟨hp.dent hj, rfl⟩

theorem scanPlaced_root (hm : Mounted r) (hp : RootPlaced r rootCluster j dent)
    (hfb : r.fs.Loaded b.fb) : ScanPlaced r.fs rootCluster ⟨r.fs.sectSize / DIRENT_SIZE, 16 * j, b⟩ := by
  refine ⟨hfb, fun _ hroot hflat => ?_⟩
  have h32 := hp.fatsize hroot
  have hj : j + 1 ≤ r.fs.clustSize := by
    by_cases hj : j = 0
    · omega
    · exact (hp.fat32 h32 hj).1 hflat
  rw [FsData.slotLimit, if_neg hroot, hm.sectSize]
  change DIRENT_SIZE * (16 * j + 512 / DIRENT_SIZE) ≤ _
  unfold DIRENT_SIZE
  omega

theorem readable_root (hm : Mounted r) (hp : RootPlaced r rootCluster j dent) (hcluster : rootCluster < 2 ^ 32)
    (hfit : j = 0 → r.fs.fatsize = .fat32 → r.fs.bytesPerClust ≤ MAX_CLUSTSIZE) : Readable r.fs rootCluster :=
  ⟨hm.sectSize, hm.fatlength, hcluster, fun hroot => hp.fits hfit (hp.fatsize hroot)⟩

theorem rootNext_isSome_iff (hm : Mounted r) (hfb : r.fs.Loaded bufs.fb)
    (hcluster : rootCluster < 2 ^ 32) : (r.rootNext cursect rootCluster j dent bufs).isSome ↔
      (r.fs.fatsize = .fat32 → j + 1 = r.fs.clustSize → r.fs.InReach rootCluster) := by
  unfold FatRead.rootNext
  split
  next h32 =>
    split
    next hend =>
      have hreach := hm.fatent_isSome_iff hfb hcluster
      cases hget : getFatentIn r.disk r.fs bufs.fb rootCluster with
      | none => exact iff_of_false Bool.false_ne_true fun h => absurd (hreach.2 (h h32 hend)) (by rw [hget]; exact Bool.false_ne_true)
      | some x =>
        refine iff_of_true ?_ fun _ _ => hreach.1 (by rw [hget]; rfl)
        simp only
        split <;> rfl
    next hend => exact iff_of_true rfl fun _ h => absurd h hend
  next h32 =>
    refine iff_of_true ?_ fun h => absurd h h32
    simp only
    split <;> rfl

theorem rootRound_isSome_iff (hm : Mounted r)
    (hp : Placed r (.root cursect rootCluster j dent bufs)) :
    (r.rootRound cursect rootCluster j dent bufs).isSome ↔ r.Inside (.root cursect rootCluster j dent bufs) := by
  obtain ⟨hfb, hcluster, hroot⟩ := hp
  have hfit := rootBlock_isSome_iff hm cursect j dent bufs
  unfold FatRead.rootRound
  cases hb : r.rootBlock cursect j dent bufs with
  | none =>
    refine iff_of_false Bool.false_ne_true fun h => ?_
    have hsome := hfit.2 h.1
    rw [hb] at hsome
    exact Bool.false_ne_true hsome
  | some x =>
    obtain ⟨d, b⟩ := x
    have hfit := hfit.1 (by rw [hb]; rfl)
    obtain ⟨rfl, hbfb⟩ := rootBlock_spec hroot hb
    have hr := readable_root hm hroot hcluster hfit
    have hp := scanPlaced_root hm hroot (show r.fs.Loaded b.fb from hbfb ▸ hfb)
    have hinside : r.Inside (.root cursect rootCluster j dent bufs) ↔ ∃ e b', (scanLoop r.disk r.fs rootCluster r.rootSearch).run
        ⟨r.fs.sectSize / DIRENT_SIZE, 16 * j, b⟩ = some (e, b') ∧
          ∀ d, e = .more d → r.fs.fatsize = .fat32 → j + 1 = r.fs.clustSize → r.fs.InReach rootCluster := by
      rw [← scan_inside_iff hr hp]
      constructor
      · exact fun h => h.2 _ _ hb
      · refine fun h => ⟨hfit, fun d b' hb' => ?_⟩
        cases hb.symm.trans hb'
        exact h
    rw [hinside]
    simp only
    cases hrun : (scanLoop r.disk r.fs rootCluster r.rootSearch).run ⟨r.fs.sectSize / DIRENT_SIZE, 16 * j, b⟩ with
    | none =>
      refine iff_of_false Bool.false_ne_true ?_
      rintro ⟨e, b', h, -⟩
      cases h
    | some x =>
      obtain ⟨e, b'⟩ := x
      cases e with
      | mark => exact iff_of_true rfl ⟨_, _, rfl, fun d h => by cases h⟩
      | found d =>
        refine iff_of_true ?_ ⟨_, _, rfl, fun d h => by cases h⟩
        simp only
        split <;> rfl
      | more d =>
        rw [rootNext_isSome_iff hm (scan_loaded hr hp hrun) hcluster]
        constructor
        · exact fun h => ⟨_, _, rfl, fun _ _ => h⟩
        · rintro ⟨e, b'', h, hasks⟩
          cases h
          exact hasks d rfl

/-- The loop of `get_dentfromdir` begins with the first entry of the cluster. -/
theorem scanPlaced_dir (hfb : r.fs.Loaded b.fb) :
    ScanPlaced r.fs curclust ⟨r.fs.bytesPerClust / DIRENT_SIZE, 0, b⟩ := by
  refine ⟨hfb, fun _ hne _ => ?_⟩
  rw [FsData.slotLimit, if_neg hne, Nat.zero_add, Nat.mul_comm r.fs.sectSize]
  exact Nat.mul_div_le _ _

theorem dirRound_isSome_iff (hm : Mounted r) (hp : Placed r (.dir step curclust bufs)) :
    (r.dirRound step curclust bufs).isSome ↔ r.Inside (.dir step curclust bufs) := by
  obtain ⟨hfb, hcluster⟩ := hp
  unfold FatRead.dirRound
  split
  next hbig => exact iff_of_false Bool.false_ne_true fun h => absurd h.1 (Nat.not_le.2 hbig)
  next hbig =>
    have hfit := Nat.le_of_not_lt hbig
    have hr : Readable r.fs curclust := ⟨hm.sectSize, hm.fatlength, hcluster, fun _ => hfit⟩
    have hp : ScanPlaced r.fs curclust ⟨r.fs.bytesPerClust / DIRENT_SIZE, 0,
        { bufs with block := getCluster r.disk r.fs curclust 0 r.fs.bytesPerClust bufs.block }⟩ := scanPlaced_dir hfb
    rw [show r.Inside (.dir step curclust bufs) ↔ _ from (and_iff_right hfit).trans (scan_inside_iff hr hp (r.fs.InReach curclust))]
    simp only
    cases hrun : (scanLoop r.disk r.fs curclust (r.dirSearch step)).run ⟨r.fs.bytesPerClust / DIRENT_SIZE, 0,
        { bufs with block := getCluster r.disk r.fs curclust 0 r.fs.bytesPerClust bufs.block }⟩ with
    | none =>
      refine iff_of_false Bool.false_ne_true ?_
      rintro ⟨e, b', h, -⟩
      cases h
    | some x =>
      obtain ⟨e, b'⟩ := x
      cases e with
      | mark => exact iff_of_true rfl ⟨_, _, rfl, fun d h => by cases h⟩
      | found d =>
        refine iff_of_true ?_ ⟨_, _, rfl, fun d h => by cases h⟩
        simp only
        split <;> rfl
      | more d =>
        have hreach := hm.fatent_isSome_iff (scan_loaded hr hp hrun) hcluster
        refine Iff.trans ?_ (hreach.trans ⟨fun h => ⟨_, _, rfl, fun _ _ => h⟩, ?_⟩)
        · simp only
          cases getFatentIn r.disk r.fs b'.fb curclust with
          | none => exact Iff.rfl
          | some x =>
            refine iff_of_true ?_ rfl
            simp only
            split <;> rfl
        · rintro ⟨e, b'', h, hasks⟩
          cases h
          exact hasks d rfl

theorem enterRun_isSome_iff (hm : Mounted r)
    (hp : Placed r (.seek curclust actsize filesize pos bufs)) (hact : ¬ actsize ≤ pos) :
    (r.enterRun curclust actsize filesize pos bufs).isSome ↔ r.Inside (.seek curclust actsize filesize pos bufs) := by
  have hreach := hm.fatent_isSome_iff hp.1 hp.2
  have hpos32 := sub32_lt pos (sub32 actsize r.fs.bytesPerClust)
  rw [FatRead.Inside, if_neg hact]
  unfold FatRead.enterRun
  simp only
  generalize sub32 pos (sub32 actsize r.fs.bytesPerClust) = pos at hpos32
  generalize sub32 filesize (sub32 actsize r.fs.bytesPerClust) = filesize
  split
  next hpos =>
    have hcopy : ¬(MAX_CLUSTSIZE < min filesize r.fs.bytesPerClust ∨
        MAX_CLUSTSIZE < pos + sub32 (min filesize r.fs.bytesPerClust) pos) ↔
          min filesize r.fs.bytesPerClust ≤ MAX_CLUSTSIZE ∧ pos ≤ min filesize r.fs.bytesPerClust := by
      unfold sub32 MAX_CLUSTSIZE
      omega
    split
    next hbig => exact iff_of_false Bool.false_ne_true fun h => hcopy.2 ⟨(h hpos).1, (h hpos).2.1⟩ hbig
    next hbig =>
      obtain ⟨hmax, hle⟩ := hcopy.1 hbig
      split
      next hend => exact iff_of_true rfl fun _ => ⟨hmax, hle, fun h => absurd hend h⟩
      next hend =>
        rw [show (pos ≠ 0 → _ ∧ _ ∧ (sub32 filesize (min filesize r.fs.bytesPerClust) ≠ 0 → r.fs.InReach curclust)) ↔ r.fs.InReach curclust from
          ⟨fun h => (h hpos).2.2 hend, fun h _ => ⟨hmax, hle, fun _ => h⟩⟩, ← hreach]
        cases getFatentIn r.disk r.fs bufs.fb curclust with
        | none => exact Iff.rfl
        | some x =>
          refine iff_of_true ?_ rfl
          simp only
          split <;> rfl
  next hpos => exact iff_of_true rfl fun h => absurd h hpos

theorem seekRound_isSome_iff (hm : Mounted r)
    (hp : Placed r (.seek curclust actsize filesize pos bufs)) :
    (r.seekRound curclust actsize filesize pos bufs).isSome ↔ r.Inside (.seek curclust actsize filesize pos bufs) := by
  unfold FatRead.seekRound
  split
  next hact =>
    rw [FatRead.Inside, if_pos hact, ← hm.fatent_isSome_iff hp.1 hp.2]
    cases getFatentIn r.disk r.fs bufs.fb curclust with
    | none => exact Iff.rfl
    | some x =>
      refine iff_of_true ?_ rfl
      simp only
      split <;> rfl
  next hact => exact enterRun_isSome_iff hm hp hact

theorem runRound_isSome_iff (hm : Mounted r) {endclust gotsize : Nat}
    (hp : Placed r (.run endclust actsize filesize gotsize bufs)) :
    (r.runRound endclust actsize filesize gotsize bufs).isSome ↔ r.Inside (.run endclust actsize filesize gotsize bufs) := by
  unfold FatRead.runRound
  split
  next hlt =>
    have hreach := hm.fatent_isSome_iff hp.1 hp.2
    rw [show r.Inside (.run endclust actsize filesize gotsize bufs) ↔ r.fs.InReach endclust from ⟨fun h => h hlt, fun h _ => h⟩, ← hreach]
    cases hget : getFatentIn r.disk r.fs bufs.fb endclust with
    | none => exact Iff.rfl
    | some x =>
      obtain ⟨newclust, fb⟩ := x
      refine iff_of_true ?_ rfl
      have hfb := (hm.fatent_spec hp.1 hp.2 hget).2
      have hagain := (hm.fatent_isSome_iff hfb hp.2).2 (hreach.1 (by rw [hget]; rfl))
      obtain ⟨y, hy⟩ := isSome_iff_exists.1 hagain
      simp only [hy]
      split
      · split <;> rfl
      · split <;> rfl
  next hlt => exact iff_of_true rfl fun h => absurd h hlt

theorem round_isSome_iff (hm : Mounted r) {st : FatState} (hp : Placed r st) : (r.round st).isSome ↔ r.Inside st := by
  cases st with
  | root cursect rootCluster j dent bufs => exact rootRound_isSome_iff hm hp
  | dir step curclust bufs => exact dirRound_isSome_iff hm hp
  | seek curclust actsize filesize pos bufs => exact seekRound_isSome_iff hm hp
  | run endclust actsize filesize gotsize bufs => exact runRound_isSome_iff hm hp

/-! ## Runs -/

theorem enterDir_placed {isdir firsttime : Bool} {subname entry : List UInt8} (hfb : r.fs.Loaded bufs.fb) {st : FatState}
    (h : r.enterDir isdir firsttime subname entry bufs = .inr st) : Placed r st := by
  unfold FatRead.enterDir at h
  split at h
  · cases h
    exact ⟨hfb, start_lt _ _⟩
  · unfold FatRead.enterContents at h
    simp only at h
    split at h
    · cases h
    · cases h
      exact ⟨hfb, start_lt _ _⟩

/-- Where the loop over the root directory is after a turn. -/
theorem rootNext_placed (hm : Mounted r) (hroot : RootPlaced r rootCluster j dent)
    (hfb : r.fs.Loaded bufs.fb) (hcluster : rootCluster < 2 ^ 32) (hfit : r.fs.fatsize = .fat32 → r.fs.bytesPerClust ≤ MAX_CLUSTSIZE)
    {st : FatState} (h : r.rootNext cursect rootCluster j (16 * (j + 1)) bufs = some (.inr st)) : Placed r st := by
  unfold FatRead.rootNext at h
  split at h
  next hf =>
    split at h
    next =>
      split at h
      · cases h
      next hget =>
        obtain ⟨hclust, hfb'⟩ := hm.fatent_spec hfb hcluster hget
        split at h
        · cases h
        · cases h
          exact ⟨hfb', hclust, fun hne => absurd rfl hne, fun _ hne => absurd rfl hne, fun hne => absurd hf hne⟩
    next hend =>
      cases h
      refine ⟨hfb, hcluster, fun _ => rfl, fun _ _ => ⟨fun hflat => ?_, hfit hf⟩, fun hne => absurd hf hne⟩
      by_cases hj : j = 0
      · omega
      · have := (hroot.fat32 hf hj).1 hflat
        omega
  next hf =>
    obtain ⟨hj, hzero⟩ := hroot.other hf
    simp only at h
    split at h
    · cases h
    · cases h
      unfold PREFETCH_BLOCKS
      refine ⟨hfb, hcluster, ?_, fun h32 => absurd h32 hf, fun _ => ⟨?_, hzero⟩⟩
      · intro hne
        rw [if_neg (fun h0 => hne (if_pos h0))]
      · split <;> omega

theorem rootRound_placed (hm : Mounted r) {st : FatState}
    (hp : Placed r (.root cursect rootCluster j dent bufs)) (h : r.rootRound cursect rootCluster j dent bufs = some (.inr st)) :
    Placed r st := by
  obtain ⟨hfb, hcluster, hroot⟩ := hp
  unfold FatRead.rootRound at h
  split at h
  · cases h
  next d b hb =>
    have hfit := (rootBlock_isSome_iff hm cursect j dent bufs).1 (by rw [hb]; rfl)
    obtain ⟨rfl, hbfb⟩ := rootBlock_spec hroot hb
    have hr := readable_root hm hroot hcluster hfit
    have hp := scanPlaced_root hm hroot (show r.fs.Loaded b.fb from hbfb ▸ hfb)
    split at h
    · cases h
    · cases h
    next hrun =>
      simp only at h
      split at h
      · cases h
      · have hfb' := scan_loaded hr hp hrun
        refine enterDir_placed ?_ (some.inj h)
        exact hfb'
    next d b' hrun =>
      obtain ⟨st', hreach, hleft, hd, -⟩ := scan_more_iff.1 hrun
      have h16 : d = 16 * (j + 1) := by
        have hsum := scan_reaches hreach
        simp only [hm.sectSize] at hsum
        unfold DIRENT_SIZE at hsum
        omega
      rw [h16] at h
      exact rootNext_placed hm hroot (scan_loaded hr hp hrun) hcluster (hroot.fits hfit) h

theorem dirRound_placed (hm : Mounted r) {st : FatState}
    (hp : Placed r (.dir step curclust bufs)) (h : r.dirRound step curclust bufs = some (.inr st)) : Placed r st := by
  obtain ⟨hfb, hcluster⟩ := hp
  unfold FatRead.dirRound at h
  split at h
  · cases h
  next hbig =>
    have hr : Readable r.fs curclust := ⟨hm.sectSize, hm.fatlength, hcluster, fun _ => Nat.le_of_not_lt hbig⟩
    have hp : ScanPlaced r.fs curclust ⟨r.fs.bytesPerClust / DIRENT_SIZE, 0,
        { bufs with block := getCluster r.disk r.fs curclust 0 r.fs.bytesPerClust bufs.block }⟩ := scanPlaced_dir hfb
    simp only at h
    split at h
    · cases h
    · cases h
    next hrun =>
      split at h
      · cases h
      · exact enterDir_placed (scan_loaded hr hp hrun) (some.inj h)
    next hrun =>
      split at h
      · cases h
      next hget =>
        obtain ⟨hclust, hfb'⟩ := hm.fatent_spec (scan_loaded hr hp hrun) hcluster hget
        split at h
        · cases h
        · cases h
          exact ⟨hfb', hclust⟩

theorem seekRound_placed (hm : Mounted r) {st : FatState}
    (hp : Placed r (.seek curclust actsize filesize pos bufs)) (h : r.seekRound curclust actsize filesize pos bufs = some (.inr st)) :
    Placed r st := by
  obtain ⟨hfb, hcluster⟩ := hp
  unfold FatRead.seekRound FatRead.enterRun at h
  simp only at h
  split at h
  · split at h
    · cases h
    next hget =>
      obtain ⟨hclust, hfb'⟩ := hm.fatent_spec hfb hcluster hget
      split at h
      · cases h
      · cases h
        exact ⟨hfb', hclust⟩
  · split at h
    · split at h
      · cases h
      · split at h
        · cases h
        · split at h
          · cases h
          next hget =>
            obtain ⟨hclust, hfb'⟩ := hm.fatent_spec hfb hcluster hget
            split at h
            · cases h
            · cases h
              exact ⟨hfb', hclust⟩
    · cases h
      exact ⟨hfb, hcluster⟩

theorem runRound_placed (hm : Mounted r) {endclust gotsize : Nat} {st : FatState}
    (hp : Placed r (.run endclust actsize filesize gotsize bufs)) (h : r.runRound endclust actsize filesize gotsize bufs = some (.inr st)) :
    Placed r st := by
  obtain ⟨hfb, hcluster⟩ := hp
  unfold FatRead.runRound at h
  split at h
  · split at h
    · cases h
    next hget =>
      obtain ⟨hclust, hfb'⟩ := hm.fatent_spec hfb hcluster hget
      split at h
      · simp only at h
        split at h
        · cases h
        next hagain =>
          obtain ⟨hclust', hfb''⟩ := hm.fatent_spec hfb' hcluster hagain
          split at h
          · cases h
          · cases h
            exact ⟨hfb'', hclust'⟩
      · split at h
        · cases h
        · cases h
          exact ⟨hfb', hclust⟩
  · cases h

theorem placed_comes (hm : Mounted r) {st st' : FatState} (hp : Placed r st) (hcomes : Lib.Comes r.round st st') : Placed r st' := by
  induction hcomes with
  | refl => exact hp
  | @tail st₁ st₂ _ hgoes ih =>
    cases st₁ with
    | root cursect rootCluster j dent bufs => exact rootRound_placed hm ih hgoes
    | dir step curclust bufs => exact dirRound_placed hm ih hgoes
    | seek curclust actsize filesize pos bufs => exact seekRound_placed hm ih hgoes
    | run endclust actsize filesize gotsize bufs => exact runRound_placed hm ih hgoes

theorem mounted_of_fatMount (h : fatMount r.disk 512 = some mount) (hr : r.mount = mount) : Mounted r ∧
    ∀ block contents fatbuf, Placed r (r.init block contents fatbuf) := by
  obtain ⟨hsize, hlen, hcluster, hroot⟩ := fatMount_spec h
  rw [← hr] at hsize hlen hcluster hroot
  refine ⟨⟨hsize, hlen⟩, fun block contents fatbuf => ⟨Or.inl rfl, hcluster, fun hne => absurd rfl hne, fun _ hne => absurd rfl hne, ?_⟩⟩
  exact fun hf => ⟨Nat.zero_lt_two, hroot hf⟩

theorem fatRead_mount {dirBlock : Nat → UInt8} {filename : List UInt8} {maxsize : Nat} {dols : Bool}
    (h : fatRead disk mount dirBlock filename pos maxsize dols = some r) : r.disk = disk ∧ r.mount = mount := by
  unfold fatRead at h
  simp only at h
  split at h
  · split at h
    · cases h
      exact ⟨rfl, rfl⟩
    · cases h
  · cases h
    exact ⟨rfl, rfl⟩
  · cases h
    exact ⟨rfl, rfl⟩

end FatInside

open FatInside in
/-- A look-up leaves no buffer, in any number of rounds, just if all states that it comes to meet `FatRead.Inside`, for every medium, every
name that fits in `fnamecopy`, and every range; and a short name stays in `s_name`. -/
theorem fat_reads_inside_iff (disk block dirBlock contents fatbuf : Nat → UInt8) (filename : List UInt8) (pos maxsize : Nat) (dols : Bool)
    (hname : filename.length < FNAMECOPY_SIZE) :
    ((∀ fuel, doFatReadAt disk 512 fuel block dirBlock contents fatbuf filename pos maxsize dols ≠ some none) ↔
      ∀ mount r, fatMount disk 512 = some mount → fatRead disk mount dirBlock filename pos maxsize dols = some r →
        ∀ st, Lib.Comes r.round (r.init block contents fatbuf) st → r.Inside st) ∧
      ∀ entry, snameLast entry < SNAME_SIZE := by
  refine ⟨?_, snameLast_lt⟩
  have hdrop : (filename.dropWhile isDirDelim).length ≤ filename.length := (dropWhile_suffix _).length_le
  unfold doFatReadAt
  cases hmount : fatMount disk 512 with
  | none => exact iff_of_true (fun _ h => by cases h) fun mount r h => by cases h
  | some mount =>
    simp only [if_neg (show ¬FNAMECOPY_SIZE ≤ (filename.dropWhile isDirDelim).length by omega)]
    cases hread : fatRead disk mount dirBlock filename pos maxsize dols with
    | none =>
      refine iff_of_true (fun _ h => by cases h) fun mount' r h h' => ?_
      cases h
      cases hread.symm.trans h'
    | some r =>
      obtain ⟨hdisk, hr⟩ := fatRead_mount hread
      obtain ⟨hm, hinit⟩ := mounted_of_fatMount (hdisk ▸ hmount) hr
      have hround (st : FatState) (hcomes : Lib.Comes r.round (r.init block contents fatbuf) st) : r.round st ≠ none ↔ r.Inside st := by
        rw [← round_isSome_iff hm (placed_comes hm (hinit block contents fatbuf) hcomes), isSome_iff_ne_none]
      rw [Lib.machine_ne_wrong_iff]
      constructor
      · intro h mount' r' hmount' hread' st hcomes
        cases hmount'
        cases hread.symm.trans hread'
        exact (hround st hcomes).1 (h st hcomes)
      · exact fun h st hcomes => (hround st hcomes).2 (h mount r rfl hread st hcomes)

/-- A look-up that has returned does not go wrong in any number of rounds. -/
theorem doFatReadAt_ne_wrong {disk block dirBlock contents fatbuf : Nat → UInt8} {blksz n pos maxsize : Nat} {filename : List UInt8} {dols : Bool}
    {ret : Int} (h : doFatReadAt disk blksz n block dirBlock contents fatbuf filename pos maxsize dols = some (some ret)) (fuel : Nat) :
    doFatReadAt disk blksz fuel block dirBlock contents fatbuf filename pos maxsize dols ≠ some none := by
  intro hwrong
  unfold doFatReadAt at h hwrong
  cases hmount : fatMount disk blksz with
  | none =>
    rw [hmount] at hwrong
    cases hwrong
  | some mount =>
    rw [hmount] at h hwrong
    simp only at h hwrong
    split at h
    · cases h
    next hfits =>
      rw [if_neg hfits] at hwrong
      cases hread : fatRead disk mount dirBlock filename pos maxsize dols with
      | none =>
        rw [hread] at hwrong
        cases hwrong
      | some r =>
        rw [hread] at h hwrong
        cases Lib.Outcome.unique ⟨n, h⟩ ⟨fuel, hwrong⟩

/-- A FAT16 with clusters of one sector, one FAT of one sector and a root directory of one. The directory `D` is in cluster 2; it holds a file
of 600 bytes in the clusters 3 and 4, with the long name `a`. -/
def nestedFat (i : Nat) : UInt8 :=
  ([(12, 2), (13, 1), (14, 1), (16, 1), (17, 16), (22, 1), (54, 0x46), (55, 0x41), (56, 0x54), (57, 0x31), (58, 0x36), (59, 0x20), (60, 0x20),
    (61, 0x20), (516, 0xff), (517, 0xff), (518, 4), (520, 0xff), (521, 0xff), (1024, 0x44), (1025, 0x20), (1032, 0x20), (1035, ATTR_DIR),
    (1050, 2), (1536, 0x41), (1537, 0x61), (1547, ATTR_VFAT), (1568, 0x42), (1569, 0x20), (1576, 0x20), (1594, 3), (1596, 0x58),
    (1597, 2)].lookup i).getD 0

/-- The boot sector of a FAT32 with clusters of 255 sectors. -/
def bootWide (i : Nat) : UInt8 :=
  ([(12, 2), (13, 255), (14, 32), (16, 1), (36, 1), (44, 2), (82, 0x46), (83, 0x41), (84, 0x54), (85, 0x33), (86, 0x32), (87, 0x20), (88, 0x20),
    (89, 0x20)].lookup i).getD 0

/-- The look-up of `d/a` reads from byte 100 on the rest of the first cluster and the second one, and all its states are inside. -/
theorem fat_reads_inside_nested :
    doFatReadAt nestedFat 512 5 (fun _ => 0) (fun _ => 0) (fun _ => 0) (fun _ => 0) [0x64, 0x2f, 0x61] 100 0 false = some (some 500) ∧
    (∀ fuel, doFatReadAt nestedFat 512 fuel (fun _ => 0) (fun _ => 0) (fun _ => 0) (fun _ => 0) [0x64, 0x2f, 0x61] 100 0 false ≠ some none) ∧
      ∀ mount r, fatMount nestedFat 512 = some mount → fatRead nestedFat mount (fun _ => 0) [0x64, 0x2f, 0x61] 100 0 false = some r →
        ∀ st, Lib.Comes r.round (r.init (fun _ => 0) (fun _ => 0) (fun _ => 0)) st → r.Inside st := by
  have hreturns : doFatReadAt nestedFat 512 5 (fun _ => 0) (fun _ => 0) (fun _ => 0) (fun _ => 0) [0x64, 0x2f, 0x61] 100 0 false =
      some (some 500) := by decide +kernel
  have hright := doFatReadAt_ne_wrong hreturns
  exact ⟨hreturns, hright, (fat_reads_inside_iff nestedFat (fun _ => 0) (fun _ => 0) (fun _ => 0) (fun _ => 0) [0x64, 0x2f, 0x61] 100 0 false
    (by decide)).1.1 hright⟩

/-- A cluster of 255 sectors does not fit in a block of 64 KiB. -/
theorem fat_reads_outside : doFatReadAt bootWide 512 1 (fun _ => 0) (fun _ => 0) (fun _ => 0) (fun _ => 0) [0x61] 0 0 false = some none := by
  rfl

end UBoot
