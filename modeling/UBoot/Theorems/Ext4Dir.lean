import UBoot.Lemmas.Ext4Dirents

/-!
# Directories of ext4 stay well formed

A directory is at most twelve blocks, each tiled by its entries.
-/

namespace UBoot

open List Function

namespace Ext4Dir

open Lib Ext4Dirents

variable {blksz blknr : Nat} {filename : CString} {disk disk' : Nat → List UInt8} {es pre mid post : List ExtDirent} {e : ExtDirent}
  {dirBlocks blknrs : List Nat} {dir : List (Nat × List ExtDirent)} {io : Ext4Io}
variable {x : Nat × UInt8 × List UInt8} {inode inodeno b slack : Nat} {buffer : List UInt8} {p : Nat × List ExtDirent} {es' : List ExtDirent}
    {dir' front : List (Nat × List ExtDirent)} {old : List (Nat × UInt8 × List UInt8)}

/-- The entries of the blocks of a directory. -/
structure IsDir (blksz : Nat) (dirBlocks : List Nat) (disk : Nat → List UInt8) (dir : List (Nat × List ExtDirent)) : Prop where
  pointers : dirBlocks = dir.map Prod.fst ++ List.replicate (INDIRECT_BLOCKS - dir.length) 0
  few : dir.length ≤ INDIRECT_BLOCKS
  nonzero : ∀ p ∈ dir, p.1 ≠ 0
  nodup : (dir.map Prod.fst).Nodup
  tiles : ∀ p ∈ dir, Tiles blksz (disk p.1) p.2

/-- The entries of a directory that are used. -/
def liveDir (dir : List (Nat × List ExtDirent)) : List (Nat × UInt8 × List UInt8) := dir.flatMap fun p => live p.2

/-- A block without the name, used or not. -/
def Without (filename : CString) (es : List ExtDirent) : Prop := ∀ x ∈ es, x.name ≠ filename.bytes

/-- The first entry with the name is used and the one before it can take its bytes. -/
def Removable (filename : CString) (es : List ExtDirent) : Prop :=
  ∀ mid e post, es = mid ++ e :: post → Without filename mid → e.name = filename.bytes →
    e.inode ≠ 0 ∧ ∃ pre q, mid = pre ++ [q] ∧ q.len + e.len < 2 ^ 16

/-- The name was found in a block just if an entry that is used has it, and that entry was taken out. -/
def Checked (blksz : Nat) (filename : CString) (disk : Nat → List UInt8) (blknr : Nat) (es : List ExtDirent) :
    Option (Int × (Nat → List UInt8)) → Prop
  | none => False
  | some (inodeno, disk') =>
    (inodeno = -1 ∧ disk' = disk ∧ ∀ x ∈ live es, x.2.2 ≠ filename.bytes) ∨
      ∃ a x b buffer es', live es = a ++ x :: b ∧ x.2.2 = filename.bytes ∧ inodeno = inodeInt x.1 ∧ inodeno ≠ -1 ∧
        disk' = Function.update disk blknr buffer ∧ Tiles blksz buffer es' ∧ live es' = a ++ b

/-- The same for a directory. -/
def DirChecked (blksz : Nat) (filename : CString) (dirBlocks : List Nat) (disk : Nat → List UInt8) (dir : List (Nat × List ExtDirent)) :
    Option (Int × (Nat → List UInt8)) → Prop
  | none => False
  | some (inodeno, disk') =>
    (inodeno = -1 ∧ disk' = disk ∧ ∀ x ∈ liveDir dir, x.2.2 ≠ filename.bytes) ∨
      ∃ a x b dir', liveDir dir = a ++ x :: b ∧ x.2.2 = filename.bytes ∧ inodeno = inodeInt x.1 ∧ inodeno ≠ -1 ∧
        IsDir blksz dirBlocks disk' dir' ∧ liveDir dir' = a ++ b

theorem inodeInt_inj {m n : Nat} (hm : m < 2 ^ 32) (hn : n < 2 ^ 32) (h : inodeInt m = inodeInt n) : m = n := by
  unfold inodeInt at h
  split at h <;> split at h <;> omega

theorem inodeInt_ne (e : ExtDirent) : inodeInt e.inode ≠ -1 := by
  have := e.inode_lt
  unfold inodeInt
  split <;> omega

theorem exists_of_mem_live (h : x ∈ live es) : ∃ e ∈ es, e.inode ≠ 0 ∧ e.said = x := by
  obtain ⟨e, he, rfl⟩ := mem_map.1 h
  obtain ⟨hmem, hne⟩ := mem_filter.1 he
  exact ⟨e, hmem, by simpa using hne, rfl⟩

theorem exists_of_mem_liveDir (h : x ∈ liveDir dir) : ∃ e : ExtDirent, e.inode ≠ 0 ∧ e.said = x := by
  obtain ⟨p, -, hx⟩ := mem_flatMap.1 h
  obtain ⟨e, -, hne, hsaid⟩ := exists_of_mem_live hx
  exact ⟨e, hne, hsaid⟩

theorem Without.live (h : Without filename es) : ∀ x ∈ live es, x.2.2 ≠ filename.bytes := by
  intro x hx
  obtain ⟨e, he, -, rfl⟩ := exists_of_mem_live hx
  exact h e he

theorem exists_first (h : ¬ Without filename es) : ∃ mid e post, es = mid ++ e :: post ∧ Without filename mid ∧ e.name = filename.bytes := by
  have hex : ∃ x ∈ es, x.name = filename.bytes := by
    by_contra hnot
    exact h fun x hx he => hnot ⟨x, hx, he⟩
  exact exists_first_entry hex

theorem checkFilename_without (hio : (io.devread blknr && io.logJournal blknr) = true) (hblksz : 0 < blksz)
    (h : Tiles blksz (disk blknr) es) (hes : Without filename es) : checkFilename io blksz filename disk blknr = some (-1, disk) := by
  rw [checkFilename, if_pos hio, findDentry_none h hblksz hes (Nat.le_succ_of_le h.length_le)]

theorem checkFilename_fault (hio : (io.devread blknr && io.logJournal blknr) = true)
    (hfind : findDentry filename blksz (disk blknr) ((disk blknr).length + 1) none 0 = none) :
    checkFilename io blksz filename disk blknr = none := by
  rw [checkFilename, if_pos hio, hfind]

theorem checkFilename_found (hio : (io.devread blknr && io.logJournal blknr) = true)
    (hput : io.putMetadata blknr = true)
    (hfind : findDentry filename blksz (disk blknr) ((disk blknr).length + 1) none 0 = some (some (inode, buffer))) :
    checkFilename io blksz filename disk blknr = some (inodeInt inode, Function.update disk blknr buffer) := by
  rw [checkFilename, if_pos hio, hfind]
  exact if_pos hput

theorem checkFilename_first (hio : (io.devread blknr && io.logJournal blknr) = true) (hput : io.putMetadata blknr = true)
    (hblksz : 0 < blksz) (hmax : blksz ≤ 2 ^ 16) (h : Tiles blksz (disk blknr) (mid ++ e :: post)) (hmid : Without filename mid)
    (he : e.name = filename.bytes) :
    (mid = [] ∧ checkFilename io blksz filename disk blknr = none) ∨ ∃ pre q buffer, mid = pre ++ [q] ∧
        checkFilename io blksz filename disk blknr = some (inodeInt e.inode, Function.update disk blknr buffer) ∧
        (q.len + e.len < 2 ^ 16 → ∃ es', Tiles blksz buffer es' ∧ live es' = live mid ++ live post) ∧
        (2 ^ 16 ≤ q.len + e.len → ∀ es', ¬ Tiles blksz buffer es') := by
  obtain ⟨previousDir, hprev, hfind⟩ := findDentry_some h hmid he (Nat.le_succ_of_le h.length_le)
  cases previousDir with
  | none => exact Or.inl ⟨hprev, checkFilename_fault hio hfind⟩
  | some previousDir =>
    obtain ⟨pre, q, rfl, rfl⟩ := hprev
    have hq : Tiles blksz (disk blknr) (pre ++ q :: e :: post) := by rwa [append_assoc] at h
    right
    rw [unlinkDentry_eq hq] at hfind
    have hcheck : checkFilename io blksz filename disk blknr = some (inodeInt e.inode, Function.update disk blknr _) :=
      checkFilename_found hio hput hfind
    refine ⟨pre, q, _, rfl, hcheck, fun hlen => ?_, fun hlen es' => ?_⟩
    · obtain ⟨buffer', hunlink, htiles⟩ := hq.unlink hlen
      rw [unlinkDentry_eq hq, Option.some.injEq, Prod.mk.injEq] at hunlink
      obtain ⟨-, rfl⟩ := hunlink
      refine ⟨_, htiles, ?_⟩
      have hsaid : live (q.join e hlen :: post) = live (q :: post) := by
        rw [live_cons, live_cons]
        rfl
      rw [live_append, hsaid, ← live_append, ← live_append, append_assoc]
      rfl
    · -- The two entries are all of a block of the largest size, and the length of the first one comes round to 0.
      have hsplit := hq.split_length
      rw [area_cons, length_append, ExtDirent.length_bytes] at hsplit
      have hpre : area pre = [] := eq_nil_of_length_eq_zero (by omega)
      have hround : (q.len + e.len) % 2 ^ 16 = 0 := by
        rw [show q.len + e.len = 2 ^ 16 by omega]
        rfl
      rw [hpre, nil_append]
      refine not_tiles_of_len ?_ hblksz es'
      have hlen := @direntlen_eq q.inode (q.len + e.len) q.filetype q.name q.slack [] (dirent 0 e.len e.filetype e.name e.slack ++ area post)
      rwa [hround] at hlen

/-- `check_filename` does what it should just if the first entry with the name can be taken out. -/
theorem checkFilename_iff (hio : (io.devread blknr && io.logJournal blknr) = true) (hput : io.putMetadata blknr = true)
    (hblksz : 0 < blksz) (hmax : blksz ≤ 2 ^ 16) (h : Tiles blksz (disk blknr) es) :
    Checked blksz filename disk blknr es (checkFilename io blksz filename disk blknr) ↔ Removable filename es := by
  constructor
  · rintro hchecked mid e post rfl hmid he
    rcases checkFilename_first hio hput hblksz hmax h hmid he with ⟨-, hcheck⟩ | ⟨pre, q, buffer, hq, hcheck, -, hround⟩
    · rw [hcheck] at hchecked
      exact hchecked.elim
    · rw [hcheck] at hchecked
      rcases hchecked with ⟨hneg, -, -⟩ | ⟨a, x, b, buffer', es', hlive, -, hx, -, hdisk, htiles, -⟩
      · exact absurd hneg (inodeInt_ne e)
      · obtain ⟨e', he', hne, rfl⟩ := exists_of_mem_live (hlive ▸ mem_append_right a (mem_cons_self ..))
        have hinode := inodeInt_inj (Nat.lt_trans e.inode_lt (by decide)) (Nat.lt_trans e'.inode_lt (by decide)) hx
        have hbuffer : buffer = buffer' := by
          have := congrFun hdisk blknr
          rwa [update_self, update_self] at this
        refine ⟨by rw [hinode]; exact hne, pre, q, hq, ?_⟩
        rw [← Nat.not_le]
        exact fun hlen => hround hlen es' (hbuffer ▸ htiles)
  · intro hremovable
    by_cases hes : Without filename es
    · rw [checkFilename_without hio hblksz h hes]
      exact Or.inl ⟨rfl, rfl, hes.live⟩
    · obtain ⟨mid, e, post, rfl, hmid, he⟩ := exists_first hes
      obtain ⟨hinode, pre, q, rfl, hlen⟩ := hremovable mid e post rfl hmid he
      rcases checkFilename_first hio hput hblksz hmax h hmid he with ⟨hnil, -⟩ | ⟨pre', q', buffer, hq, hcheck, htaken, -⟩
      · cases pre <;> cases hnil
      · obtain ⟨-, hq⟩ := append_inj' hq rfl
        obtain rfl : q = q' := head_eq_of_cons_eq hq
        obtain ⟨es', htiles, hlive⟩ := htaken hlen
        rw [hcheck]
        refine Or.inr ⟨live (pre ++ [q]), e.said, live post, buffer, es', ?_, he, rfl, inodeInt_ne e, rfl, htiles, hlive⟩
        rw [live_append, live_cons, if_pos hinode]

/-! ## A directory -/

theorem IsDir.blocks (h : IsDir blksz dirBlocks disk dir) : (dirBlocks.takeWhile fun blknr => blknr ≠ 0) = dir.map Prod.fst := by
  rw [h.pointers, takeWhile_append_of_pos fun blknr hmem => ?_]
  · cases INDIRECT_BLOCKS - dir.length with
    | zero => exact append_nil _
    | succ n =>
      rw [replicate_succ, takeWhile_cons_of_neg (by simp), append_nil]
  · obtain ⟨p, hp, rfl⟩ := mem_map.1 hmem
    simpa using h.nonzero p hp

theorem IsDir.pointers_split {pre post : List (Nat × List ExtDirent)} (h : IsDir blksz dirBlocks disk dir)
    (hdir : dir = pre ++ p :: post) :
    dirBlocks = pre.map Prod.fst ++ (p.1 :: (post.map Prod.fst ++ List.replicate (INDIRECT_BLOCKS - dir.length) 0)) := by
  rw [h.pointers]
  conv => enter [1, 1]; rw [hdir]
  rw [map_append, map_cons, append_assoc, cons_append]

theorem IsDir.update {pre post : List (Nat × List ExtDirent)}
    (h : IsDir blksz dirBlocks disk (pre ++ p :: post)) (htiles : Tiles blksz buffer es') :
    IsDir blksz dirBlocks (Function.update disk p.1 buffer) (pre ++ (p.1, es') :: post) := by
  have hmap : (pre ++ (p.1, es') :: post).map Prod.fst = (pre ++ p :: post).map Prod.fst := by
    rw [map_append, map_append, map_cons, map_cons]
  have hlen : (pre ++ (p.1, es') :: post).length = (pre ++ p :: post).length := by
    rw [length_append, length_append, length_cons, length_cons]
  refine ⟨by rw [hmap, hlen]; exact h.pointers, hlen ▸ h.few, fun p' hp' => ?_, hmap ▸ h.nodup, fun p' hp' => ?_⟩
  · have hmem : p'.1 ∈ (pre ++ (p.1, es') :: post).map Prod.fst := mem_map_of_mem hp'
    rw [hmap] at hmem
    obtain ⟨p'', hp'', heq⟩ := mem_map.1 hmem
    rw [← heq]
    exact h.nonzero p'' hp''
  · have hnodup := h.nodup
    rw [map_append, map_cons, nodup_append, nodup_cons] at hnodup
    obtain ⟨-, ⟨hpost, -⟩, hpre⟩ := hnodup
    rcases mem_append.1 hp' with hmem | hmem
    · rw [update_of_ne (hpre p'.1 (mem_map_of_mem hmem) p.1 (mem_cons_self ..))]
      exact h.tiles p' (mem_append_left _ hmem)
    · rcases mem_cons.1 hmem with rfl | hmem
      · rw [update_self]
        exact htiles
      · have hmap : p'.1 ∈ post.map Prod.fst := mem_map_of_mem hmem
        rw [update_of_ne fun heq : p'.1 = p.1 => hpost (heq ▸ hmap)]
        exact h.tiles p' (mem_append_right _ (mem_cons_of_mem p hmem))

theorem IsDir.exists_tiles (h' : IsDir blksz dirBlocks disk' dir')
    (hmem : blknr ∈ dirBlocks.takeWhile fun blknr => blknr ≠ 0) : ∃ es', Tiles blksz (disk' blknr) es' := by
  rw [h'.blocks] at hmem
  obtain ⟨p, hp, rfl⟩ := mem_map.1 hmem
  exact ⟨p.2, h'.tiles p hp⟩

theorem liveDir_append (xs ys : List (Nat × List ExtDirent)) : liveDir (xs ++ ys) = liveDir xs ++ liveDir ys := flatMap_append

theorem liveDir_cons (p : Nat × List ExtDirent) (ps : List (Nat × List ExtDirent)) : liveDir (p :: ps) = live p.2 ++ liveDir ps :=
  flatMap_cons

/-- The blocks before the first one that has the name. -/
def Before (filename : CString) (pre : List (Nat × List ExtDirent)) : Prop := ∀ p ∈ pre, Without filename p.2

/-- In the first block that has the name, its first entry with it can be taken out. -/
def DirRemovable (filename : CString) (dir : List (Nat × List ExtDirent)) : Prop :=
  ∀ pre p post, dir = pre ++ p :: post → Before filename pre → Removable filename p.2

theorem exists_first_block (h : ¬ Before filename dir) :
    ∃ pre p post, dir = pre ++ p :: post ∧ Before filename pre ∧ ¬ Without filename p.2 := by
  induction dir with
  | nil => exact absurd (fun p hp => absurd hp not_mem_nil) h
  | cons p dir ih =>
    by_cases hp : Without filename p.2
    · have hrest : ¬ Before filename dir := fun hdir => h fun q hq => by
        rcases mem_cons.1 hq with rfl | hq
        · exact hp
        · exact hdir q hq
      obtain ⟨pre, q, post, rfl, hpre, hq⟩ := ih hrest
      refine ⟨p :: pre, q, post, rfl, fun r hr => ?_, hq⟩
      rcases mem_cons.1 hr with rfl | hr
      · exact hp
      · exact hpre r hr
    · exact ⟨[], p, dir, rfl, fun q hq => absurd hq not_mem_nil, hp⟩

theorem filenameCheck_zero (k : Nat) : filenameCheck io blksz filename (List.replicate k 0) disk = some (-1, disk) := by
  cases k <;> rfl

theorem filenameCheck_pass (hio : ∀ b, (io.devread b && io.logJournal b) = true) (hblksz : 0 < blksz) {pre : List (Nat × List ExtDirent)}
    (htiles : ∀ p ∈ pre, p.1 ≠ 0 ∧ Tiles blksz (disk p.1) p.2) (hpre : Before filename pre) (rest : List Nat) :
    filenameCheck io blksz filename (pre.map Prod.fst ++ rest) disk = filenameCheck io blksz filename rest disk := by
  induction pre with
  | nil => rfl
  | cons p pre ih =>
    obtain ⟨hne, hp⟩ := htiles p (mem_cons_self ..)
    rw [map_cons, cons_append, filenameCheck, if_neg hne, checkFilename_without (hio p.1) hblksz hp (hpre p (mem_cons_self ..))]
    simp only [ne_eq, not_true_eq_false, if_false]
    exact ih (fun q hq => htiles q (mem_cons_of_mem p hq)) fun q hq => hpre q (mem_cons_of_mem p hq)

/-- `ext4fs_filename_check` does what it should just if the first entry with the name can be taken out. -/
theorem filenameCheck_iff (hio : ∀ b, (io.devread b && io.logJournal b) = true) (hput : ∀ b, io.putMetadata b = true) (hblksz : 0 < blksz)
    (hmax : blksz ≤ 2 ^ 16) (h : IsDir blksz dirBlocks disk dir) :
    DirChecked blksz filename dirBlocks disk dir (filenameCheck io blksz filename dirBlocks disk) ↔ DirRemovable filename dir := by
  have hpass {pre post : List (Nat × List ExtDirent)} {p : Nat × List ExtDirent} (hdir : dir = pre ++ p :: post)
      (hpre : Before filename pre) : filenameCheck io blksz filename dirBlocks disk =
        match checkFilename io blksz filename disk p.1 with
        | none => none
        | some (inodeno, disk) => if inodeno ≠ -1 then some (inodeno, disk) else
          filenameCheck io blksz filename (post.map Prod.fst ++ List.replicate (INDIRECT_BLOCKS - dir.length) 0) disk := by
    have hp : p ∈ dir := hdir ▸ mem_append_right pre (mem_cons_self ..)
    have htiles : ∀ q ∈ pre, q.1 ≠ 0 ∧ Tiles blksz (disk q.1) q.2 := fun q hq =>
      ⟨h.nonzero q (hdir ▸ mem_append_left _ hq), h.tiles q (hdir ▸ mem_append_left _ hq)⟩
    rw [h.pointers_split hdir, filenameCheck_pass hio hblksz htiles hpre, filenameCheck]
    exact if_neg (h.nonzero p hp)
  constructor
  · intro hchecked pre p post hdir hpre mid e rest hp hmid he
    have hmem : p ∈ dir := hdir ▸ mem_append_right pre (mem_cons_self ..)
    have htiles := h.tiles p hmem
    rw [hp] at htiles
    rw [hpass hdir hpre] at hchecked
    rcases checkFilename_first (hio p.1) (hput p.1) hblksz hmax htiles hmid he with
      ⟨-, hcheck⟩ | ⟨pre', q, buffer, hq, hcheck, -, hround⟩
    · rw [hcheck] at hchecked
      exact hchecked.elim
    · rw [hcheck] at hchecked
      simp only [ne_eq, inodeInt_ne e, not_false_eq_true, if_true] at hchecked
      rcases hchecked with ⟨hneg, -, -⟩ | ⟨a, x, b, dir', hlive, -, hx, -, hdir', -⟩
      · exact absurd hneg (inodeInt_ne e)
      · obtain ⟨e', hne, rfl⟩ := exists_of_mem_liveDir (hlive ▸ mem_append_right a (mem_cons_self ..))
        have hinode := inodeInt_inj (Nat.lt_trans e.inode_lt (by decide)) (Nat.lt_trans e'.inode_lt (by decide)) hx
        refine ⟨by rw [hinode]; exact hne, pre', q, hq, ?_⟩
        rw [← Nat.not_le]
        intro hlen
        obtain ⟨es', htiles'⟩ := @IsDir.exists_tiles _ p.1 _ _ _ hdir' (by rw [h.blocks]; exact mem_map_of_mem hmem)
        rw [update_self] at htiles'
        exact hround hlen es' htiles'
  · intro hremovable
    by_cases hdir : Before filename dir
    · have htiles : ∀ q ∈ dir, q.1 ≠ 0 ∧ Tiles blksz (disk q.1) q.2 := fun q hq => ⟨h.nonzero q hq, h.tiles q hq⟩
      rw [h.pointers, filenameCheck_pass hio hblksz htiles hdir, filenameCheck_zero]
      refine Or.inl ⟨rfl, rfl, fun x hx => ?_⟩
      obtain ⟨p, hp, hx⟩ := mem_flatMap.1 hx
      exact (hdir p hp).live x hx
    · obtain ⟨pre, p, post, hsplit, hpre, hp⟩ := exists_first_block hdir
      obtain ⟨mid, e, rest, hes, hmid, he⟩ := exists_first hp
      have htiles := h.tiles p (hsplit ▸ mem_append_right pre (mem_cons_self ..))
      rw [hes] at htiles
      obtain ⟨hinode, pre', q, hq, hlen⟩ := hremovable pre p post hsplit hpre mid e rest hes hmid he
      rw [hpass hsplit hpre]
      rcases checkFilename_first (hio p.1) (hput p.1) hblksz hmax htiles hmid he with
        ⟨hnil, -⟩ | ⟨pre'', q', buffer, hq', hcheck, htaken, -⟩
      · rw [hnil] at hq
        cases pre' <;> cases hq
      · obtain ⟨-, hqq⟩ := append_inj' (hq.symm.trans hq') rfl
        obtain rfl : q = q' := head_eq_of_cons_eq hqq
        obtain ⟨es', htiles', hlive⟩ := htaken hlen
        rw [hcheck]
        simp only [ne_eq, inodeInt_ne e, not_false_eq_true, if_true]
        subst hsplit
        refine Or.inr ⟨liveDir pre ++ live mid, e.said, live rest ++ liveDir post, _, ?_, he, rfl, inodeInt_ne e, h.update htiles', ?_⟩
        · rw [liveDir_append, liveDir_cons, hes, live_append, live_cons, if_pos hinode]
          simp only [append_assoc, cons_append]
        · rw [liveDir_append, liveDir_cons, hlive]
          simp only [append_assoc]

/-- The name is not that of the first entry of the first block that has it. -/
def NotAhead (filename : CString) (dir : List (Nat × List ExtDirent)) : Prop :=
  ∀ pre p post, dir = pre ++ p :: post → Before filename pre → ∀ e rest, p.2 = e :: rest → e.name ≠ filename.bytes

/-- `search_dir` stays in its buffers just if no first entry of a block is found. -/
theorem searchDir_isSome_iff (hio : ∀ b, io.devread b = true) (hblksz : 0 < blksz) (h : IsDir blksz dirBlocks disk dir) :
    (searchDir io blksz filename disk dirBlocks).isSome = true ↔ NotAhead filename dir := by
  have hcons (p : Nat × List ExtDirent) (hp : p ∈ dir) (rest : List Nat) : searchDir io blksz filename disk (p.1 :: rest) =
      (findDentry filename blksz (disk p.1) ((disk p.1).length + 1) none 0).elim none fun r =>
        r.elim (searchDir io blksz filename disk rest) fun r => some (inodeInt r.1) := by
    rw [searchDir, hio, if_neg (by simpa using h.nonzero p hp)]
    cases findDentry filename blksz (disk p.1) ((disk p.1).length + 1) none 0 with
    | none => rfl
    | some r =>
      cases r with
      | none => rfl
      | some r => rfl
  have hpass (pre : List (Nat × List ExtDirent)) (hmem : ∀ p ∈ pre, p ∈ dir) (hpre : Before filename pre) (rest : List Nat) :
      searchDir io blksz filename disk (pre.map Prod.fst ++ rest) = searchDir io blksz filename disk rest := by
    induction pre with
    | nil => rfl
    | cons p pre ih =>
      have htiles := h.tiles p (hmem p (mem_cons_self ..))
      rw [map_cons, cons_append, hcons p (hmem p (mem_cons_self ..)),
        findDentry_none htiles hblksz (hpre p (mem_cons_self ..)) (Nat.le_succ_of_le htiles.length_le)]
      exact ih (fun q hq => hmem q (mem_cons_of_mem p hq)) fun q hq => hpre q (mem_cons_of_mem p hq)
  have hfirst {pre post : List (Nat × List ExtDirent)} {p : Nat × List ExtDirent} (hdir : dir = pre ++ p :: post)
      (hpre : Before filename pre) : searchDir io blksz filename disk dirBlocks = searchDir io blksz filename disk
        (p.1 :: (post.map Prod.fst ++ List.replicate (INDIRECT_BLOCKS - dir.length) 0)) := by
    rw [h.pointers_split hdir, hpass pre (fun q hq => hdir ▸ mem_append_left _ hq) hpre]
  constructor
  · intro hsome pre p post hdir hpre e rest hp he
    have hmem : p ∈ dir := hdir ▸ mem_append_right pre (mem_cons_self ..)
    have htiles := h.tiles p hmem
    rw [hp] at htiles
    obtain ⟨previousDir, hprev, hfind⟩ := @findDentry_some _ _ e [] rest filename htiles (fun x hx => absurd hx not_mem_nil) he _
      (Nat.le_succ_of_le htiles.length_le)
    cases previousDir with
    | none =>
      rw [hfirst hdir hpre, hcons p hmem, hfind] at hsome
      cases hsome
    | some previousDir =>
      obtain ⟨a, q, hnil, -⟩ := hprev
      cases a <;> cases hnil
  · intro hhead
    by_cases hdir : Before filename dir
    · rw [h.pointers, hpass dir (fun q hq => hq) hdir]
      cases INDIRECT_BLOCKS - dir.length <;> rfl
    · obtain ⟨pre, p, post, hsplit, hpre, hp⟩ := exists_first_block hdir
      obtain ⟨mid, e, rest, hes, hmid, he⟩ := exists_first hp
      have hmem : p ∈ dir := hsplit ▸ mem_append_right pre (mem_cons_self ..)
      have htiles := h.tiles p hmem
      rw [hes] at htiles
      obtain ⟨previousDir, hprev, hfind⟩ := findDentry_some htiles hmid he (Nat.le_succ_of_le htiles.length_le)
      rw [hfirst hsplit hpre, hcons p hmem, hfind]
      cases previousDir with
      | none =>
        obtain rfl : mid = [] := hprev
        exact absurd he (hhead pre p post hsplit hpre e rest hes)
      | some previousDir =>
        obtain ⟨a, q, rfl, rfl⟩ := hprev
        have hq : Tiles blksz (disk p.1) (a ++ q :: e :: rest) := by rwa [append_assoc] at htiles
        rw [unlinkDentry_eq hq]
        rfl

/-! ## A new entry -/

variable {sectPerblk : Nat} {s : ParentDir} {newBlkno newInodeno : Option Nat}

/-- A directory is as it was after a failure, and has one more entry after a success. -/
def Updated (blksz : Nat) (filename : CString) (newInodeno : Option Nat) (dir : List (Nat × List ExtDirent)) :
    Option (Option Nat × ParentDir) → Prop
  | none => False
  | some (none, s') => IsDir blksz s'.dirBlocks s'.disk dir
  | some (some inodeno, s') => newInodeno = some inodeno ∧
    ∃ dir', IsDir blksz s'.dirBlocks s'.disk dir' ∧ Made filename inodeno (liveDir dir) (liveDir dir')

/-- What an entry in a new block takes: an inode, and a block that is written at its place and whose length fits an entry. -/
structure NewBlock (io : Ext4Io) (blksz blknr : Nat) (newBlkno newInodeno : Option Nat) : Prop where
  inode : newInodeno ≠ none
  fits : blksz < 2 ^ 16
  put : io.putMetadata blknr = true
  block : ∃ b, newBlkno = some b ∧ b * blksz < 2 ^ 32 ∧ (io.devread b && io.logJournal b) = true ∧ io.putMetadata b = true

/-- The last block of a directory of fewer than twelve blocks has room and is put into the metadata, or it has none and is full, and there
is a new block. -/
structure Meets (io : Ext4Io) (blksz : Nat) (filename : CString) (newBlkno newInodeno : Option Nat) (dir : List (Nat × List ExtDirent))
    (blknr : Nat) (es : List ExtDirent) (l : ExtDirent) : Prop where
  put : (∃ e ∈ es ++ [l], Room filename e) → newInodeno = none ∨ io.putMetadata blknr = true
  padded : (¬ ∃ e ∈ es ++ [l], Room filename e) → Unpadded l → newInodeno = none
  full : (¬ ∃ e ∈ es ++ [l], Room filename e) → ¬ Unpadded l → dir.length = INDIRECT_BLOCKS - 1 ∨ NewBlock io blksz blknr newBlkno newInodeno

/-- One pass over a directory of fewer than twelve blocks. -/
theorem updateParentDentry_eq (hblocks : (s.dirBlocks.takeWhile fun blknr => blknr ≠ 0) = blknrs ++ [blknr])
    (hlt : blknrs.length < INDIRECT_BLOCKS - 1) (newBlknos : List (Option Nat)) (first : Nat) :
    updateParentDentry io blksz sectPerblk filename newInodeno newBlknos first s =
      if !(io.devread blknr && io.logJournal blknr) then some (none, s)
      else
        match findVoid filename blksz (s.disk blknr) ((s.disk blknr).length + 1) 0 with
        | none => none
        | some none =>
          if blknrs.length + 1 = INDIRECT_BLOCKS - 1 then some (none, s)
          else
            match newBlknos with
            | [] => none
            | none :: _ => some (none, { s with dirBlocks := s.dirBlocks.set (blknrs.length + 1) (2 ^ 32 - 1) })
            | some b :: newBlknos =>
              if io.putMetadata blknr then
                updateParentDentry io blksz sectPerblk filename newInodeno newBlknos blknr (s.addBlock blksz sectPerblk (blknrs.length + 1) b)
              else some (none, s.addBlock blksz sectPerblk (blknrs.length + 1) b)
        | some (some (dir, void, buffer)) => makeDentry io blksz filename newInodeno blknr s dir void buffer := by
  have h12 : ¬ blknrs.length + 1 = INDIRECT_BLOCKS := by simp only [INDIRECT_BLOCKS] at hlt ⊢; omega
  have hle : ¬ INDIRECT_BLOCKS ≤ blknrs.length + 1 := by simp only [INDIRECT_BLOCKS] at hlt ⊢; omega
  rw [updateParentDentry]
  rw [hblocks]
  simp only [length_append, length_singleton, h12, if_false, getLast?_concat]
  refine if_congr Iff.rfl rfl ?_
  cases findVoid filename blksz (s.disk blknr) ((s.disk blknr).length + 1) 0 with
  | none => rfl
  | some r =>
    cases r with
    | none => exact if_congr Iff.rfl rfl (if_neg hle)
    | some r => rfl

theorem IsDir.set (h : IsDir blksz dirBlocks disk dir) (hlt : dir.length < INDIRECT_BLOCKS) (blknr : Nat) :
    dirBlocks.set dir.length blknr = dir.map Prod.fst ++ blknr :: List.replicate (INDIRECT_BLOCKS - (dir.length + 1)) 0 := by
  obtain ⟨k, hk⟩ := Nat.exists_eq_add_of_lt hlt
  rw [h.pointers, set_append_right _ _ (by rw [length_map]), length_map, Nat.sub_self,
    show INDIRECT_BLOCKS - dir.length = k + 1 by omega, show INDIRECT_BLOCKS - (dir.length + 1) = k by omega, replicate_succ]
  rfl

theorem IsDir.set_blocks (h : IsDir blksz dirBlocks disk dir) (hlt : dir.length < INDIRECT_BLOCKS) (hne : blknr ≠ 0) :
    ((dirBlocks.set dir.length blknr).takeWhile fun blknr => blknr ≠ 0) = dir.map Prod.fst ++ [blknr] := by
  rw [h.set hlt, takeWhile_append_of_pos fun b hmem => ?_, takeWhile_cons_of_pos (by simpa using hne)]
  · cases INDIRECT_BLOCKS - (dir.length + 1) with
    | zero => rfl
    | succ n => rw [replicate_succ, takeWhile_cons_of_neg (by simp)]
  · obtain ⟨p, hp, rfl⟩ := mem_map.1 hmem
    simpa using h.nonzero p hp

theorem IsDir.not_set (h : IsDir blksz dirBlocks disk dir) (hlt : dir.length < INDIRECT_BLOCKS) (hne : blknr ≠ 0) :
    ¬ IsDir blksz (dirBlocks.set dir.length blknr) disk' dir := by
  intro h'
  have hlen := congrArg List.length ((h.set_blocks hlt hne).symm.trans h'.blocks)
  rw [length_append, length_singleton] at hlen
  omega

/-- The entries of a directory are those that its blocks hold. -/
theorem IsDir.unique (h : IsDir blksz dirBlocks disk dir) (h' : IsDir blksz dirBlocks disk dir') :
    dir = dir' := by
  have hmap : dir.map Prod.fst = dir'.map Prod.fst := h.blocks.symm.trans h'.blocks
  have htiles := h.tiles
  have htiles' := h'.tiles
  clear h h'
  induction dir generalizing dir' with
  | nil => exact (map_eq_nil_iff.1 hmap.symm).symm
  | cons p dir ih =>
    cases dir' with
    | nil => cases hmap
    | cons p' dir' =>
      rw [map_cons, map_cons, List.cons.injEq] at hmap
      have hp := htiles p (mem_cons_self ..)
      have hp' := htiles' p' (mem_cons_self ..)
      rw [hmap.1] at hp
      rw [show p = p' from Prod.ext hmap.1 (hp.unique hp'), ih hmap.2 (fun q hq => htiles q (mem_cons_of_mem p hq))
        fun q hq => htiles' q (mem_cons_of_mem p' hq)]

theorem not_made_self : ¬ Made filename inodeno old old := by
  rintro ⟨a, b, h, h'⟩
  have hlen := congrArg List.length (h.symm.trans h')
  rw [length_append, length_append, length_cons] at hlen
  omega

theorem Made.liveDir {pre post : List (Nat × List ExtDirent)}
    (h : Made filename inodeno (live es) (live es')) :
    Made filename inodeno (Ext4Dir.liveDir (pre ++ (blknr, es) :: post)) (Ext4Dir.liveDir (pre ++ (blknr, es') :: post)) := by
  obtain ⟨a, b, hold, hnew⟩ := h
  refine ⟨Ext4Dir.liveDir pre ++ a, b ++ Ext4Dir.liveDir post, ?_, ?_⟩
  · rw [liveDir_append, liveDir_cons, hold]
    simp only [append_assoc]
  · rw [liveDir_append, liveDir_cons, hnew]
    simp only [append_assoc, cons_append]

theorem direntlen_zeros (hblksz : 6 ≤ blksz) : direntlen (List.replicate blksz 0) 0 = some 0 := by
  obtain ⟨n, rfl⟩ := Nat.exists_eq_add_of_le hblksz
  have hsplit : List.replicate (6 + n) (0 : UInt8) = List.replicate 4 0 ++ ([0, 0] ++ List.replicate n 0) := by
    rw [show ([0, 0] : List UInt8) = List.replicate 2 0 from rfl, replicate_append_replicate, replicate_append_replicate]
    congr 1
    omega
  have hread := readAt_eq (i := 4) (n := 2) hsplit rfl rfl
  rw [direntlen, Nat.zero_add, hread]
  rfl

theorem updateParentDentry_zeros (hblocks : (s.dirBlocks.takeWhile fun blknr => blknr ≠ 0) = blknrs ++ [blknr])
    (hlt : blknrs.length < INDIRECT_BLOCKS - 1) (hzeros : s.disk blknr = List.replicate blksz 0) (hblksz : 1024 ≤ blksz)
    (hname : filename.bytes.length < 256) (newBlknos : List (Option Nat)) (first : Nat) :
    updateParentDentry io blksz sectPerblk filename newInodeno newBlknos first s =
      if !(io.devread blknr && io.logJournal blknr) then some (none, s)
      else
        match newInodeno with
        | none => some (none, s)
        | some inodeno =>
          if io.putMetadata blknr then
            some (some inodeno, { s with disk := Function.update s.disk blknr (dirent inodeno blksz FILETYPE_REG filename.bytes
              ((List.replicate blksz 0).drop (EXT2_DIRENT_SIZE + filename.bytes.length))) })
          else some (some inodeno, s) := by
  have hzero := direntlen_zeros (show 6 ≤ blksz by omega)
  have hfind : findVoid filename blksz (List.replicate blksz 0) ((List.replicate blksz (0 : UInt8)).length + 1) 0 =
      some (some (0, 0, List.replicate blksz 0)) := by
    rw [findVoid, hzero]
    rfl
  rw [updateParentDentry_eq hblocks hlt, hzeros, hfind]
  simp only [makeDentry, hzero]
  split
  · rfl
  · cases newInodeno with
    | none => rfl
    | some inodeno =>
      have hwrite := @writeDentry_eq 0 [] [] (List.replicate blksz 0) filename (List.replicate blksz 0) inodeno blksz
        (append_nil _).symm rfl (by rw [length_replicate]; simp only [EXT2_DIRENT_SIZE]; omega)
      rw [nil_append, append_nil] at hwrite
      simp only [ne_eq, not_true_eq_false, if_false, Nat.add_zero, Nat.sub_zero, hwrite]

theorem IsDir.addEntry (h : IsDir blksz dirBlocks disk dir) (hlt : dir.length < INDIRECT_BLOCKS) (hne : b ≠ 0)
    (hnot : b ∉ dir.map Prod.fst) (hname : filename.bytes.length < 256) (hblksz : 1024 ≤ blksz) (hmax : blksz < 2 ^ 16)
    (hpos : 0 < inodeno) (hino : inodeno < 2 ^ 32 - 1) (zeros : List UInt8) :
    ∃ dir', IsDir blksz (dirBlocks.set dir.length b) (Function.update (Function.update disk b zeros) b
      (dirent inodeno blksz FILETYPE_REG filename.bytes ((List.replicate blksz 0).drop (EXT2_DIRENT_SIZE + filename.bytes.length)))) dir' ∧
        Made filename inodeno (liveDir dir) (liveDir dir') := by
  have hlen : EXT2_DIRENT_SIZE + filename.bytes.length +
      ((List.replicate blksz (0 : UInt8)).drop (EXT2_DIRENT_SIZE + filename.bytes.length)).length = blksz := by
    rw [length_drop, length_replicate]
    simp only [EXT2_DIRENT_SIZE]
    omega
  let new : ExtDirent := ⟨inodeno, FILETYPE_REG, filename.bytes,
    (List.replicate blksz 0).drop (EXT2_DIRENT_SIZE + filename.bytes.length), hino, hname, by rw [hlen]; exact hmax⟩
  have hnew : dirent inodeno blksz FILETYPE_REG filename.bytes ((List.replicate blksz 0).drop (EXT2_DIRENT_SIZE + filename.bytes.length)) =
      new.bytes := by rw [ExtDirent.bytes, show new.len = blksz from hlen]
  have hmap : (dir ++ [(b, [new])]).map Prod.fst = dir.map Prod.fst ++ [b] := map_append
  refine ⟨dir ++ [(b, [new])], ⟨?_, ?_, fun p hp => ?_, ?_, fun p hp => ?_⟩, liveDir dir, [], (append_nil _).symm, ?_⟩
  · rw [h.set hlt, hmap, length_append, length_singleton, append_assoc]
    rfl
  · rw [length_append, length_singleton]
    exact hlt
  · rcases mem_append.1 hp with hp | hp
    · exact h.nonzero p hp
    · obtain rfl := mem_singleton.1 hp
      exact hne
  · rw [hmap, nodup_append]
    refine ⟨h.nodup, pairwise_singleton _ b, fun x hx y hy heq => hnot ?_⟩
    rw [← mem_singleton.1 hy, ← heq]
    exact hx
  · rcases mem_append.1 hp with hp | hp
    · have hother : p.1 ≠ b := fun heq => hnot (heq ▸ mem_map_of_mem hp)
      rw [update_of_ne hother, update_of_ne hother]
      exact h.tiles p hp
    · obtain rfl := mem_singleton.1 hp
      rw [update_self, hnew]
      refine ⟨(ExtDirent.length_bytes new).trans hlen, ?_⟩
      rw [area_cons, show area [] = [] from rfl, append_nil]
  · rw [liveDir_append, liveDir_cons, live_cons, if_pos (show new.inode ≠ 0 from Nat.ne_of_gt hpos)]
    rfl

theorem not_tiles_largest {slack : List UInt8} (es : List ExtDirent) :
    ¬ Tiles (2 ^ 16) (dirent inodeno (2 ^ 16) FILETYPE_REG filename.bytes slack) es := by
  have hlen := @direntlen_eq inodeno (2 ^ 16) FILETYPE_REG filename.bytes slack [] []
  rw [nil_append, append_nil, Nat.mod_self] at hlen
  exact not_tiles_of_len hlen (by decide) es

theorem putBlock_eq (hblksz : 0 < blksz) (hb : b * blksz < 2 ^ 32) : putBlock blksz b = b := by
  rw [putBlock, Nat.mod_eq_of_lt hb, Nat.mul_div_cancel b hblksz]

/-- The directory with a new block that is written at its place, once the code comes back to it. -/
theorem updated_newBlock {L : Nat} (h : IsDir blksz s.dirBlocks s.disk dir) (hlt : dir.length < INDIRECT_BLOCKS - 1)
    (hblksz : 1024 ≤ blksz) (hmax : blksz ≤ 2 ^ 16) (hname : filename.bytes.length < 256)
    (hino : ∀ i, newInodeno = some i → 0 < i ∧ i < 2 ^ 32 - 1) (hne : b ≠ 0) (hnot : b ∉ dir.map Prod.fst) (hb : b * blksz < 2 ^ 32)
    (newBlknos : List (Option Nat)) :
    Updated blksz filename newInodeno dir (updateParentDentry io blksz sectPerblk filename newInodeno newBlknos L
      (s.addBlock blksz sectPerblk dir.length b)) ↔
        newInodeno ≠ none ∧ blksz < 2 ^ 16 ∧ (io.devread b && io.logJournal b) = true ∧ io.putMetadata b = true := by
  have hlt' : dir.length < INDIRECT_BLOCKS := Nat.lt_of_lt_of_le hlt (Nat.sub_le ..)
  have hblocks := h.set_blocks hlt' hne
  have hput : putBlock blksz b = b := putBlock_eq (by omega) hb
  have hdisk : (s.addBlock blksz sectPerblk dir.length b).disk = Function.update s.disk b (List.replicate blksz 0) :=
    congrArg (Function.update s.disk · (List.replicate blksz 0)) hput
  have hfail : ¬ IsDir blksz (s.addBlock blksz sectPerblk dir.length b).dirBlocks (s.addBlock blksz sectPerblk dir.length b).disk dir :=
    h.not_set hlt' hne
  have hrun := @updateParentDentry_zeros blksz b filename (dir.map Prod.fst) io sectPerblk (s.addBlock blksz sectPerblk dir.length b)
    newInodeno hblocks (by rwa [length_map]) (by rw [hdisk, update_self]) hblksz hname newBlknos L
  rw [hrun]
  have hmem : b ∈ (s.dirBlocks.set dir.length b).takeWhile fun blknr => blknr ≠ 0 := by
    rw [hblocks]
    exact mem_append_right _ (mem_singleton_self b)
  by_cases hio : (io.devread b && io.logJournal b) = true
  · rw [hio]
    cases newInodeno with
    | none => exact ⟨fun hok => absurd hok hfail, fun hcond => absurd rfl hcond.1⟩
    | some inodeno =>
      obtain ⟨hpos, hlti⟩ := hino inodeno rfl
      by_cases hputb : io.putMetadata b = true
      · simp only [hputb, if_true, Bool.not_true, Bool.false_eq_true, if_false, hdisk, Updated]
        constructor
        · rintro ⟨-, dir', hdir', -⟩
          refine ⟨nofun, ?_, trivial, trivial⟩
          refine Nat.lt_of_le_of_ne hmax fun heq => ?_
          obtain ⟨es', htiles⟩ := hdir'.exists_tiles hmem
          rw [update_self, heq] at htiles
          exact not_tiles_largest es' htiles
        · rintro ⟨-, hfits, -, -⟩
          exact ⟨trivial, h.addEntry hlt' hne hnot hname hblksz hfits hpos hlti _⟩
      · simp only [hputb, Bool.false_eq_true, if_false, Bool.not_true, and_false, iff_false, Updated]
        rintro ⟨-, dir', hdir', -⟩
        obtain ⟨es', htiles⟩ := hdir'.exists_tiles hmem
        rw [hdisk, update_self] at htiles
        exact not_tiles_of_len (direntlen_zeros (by omega)) (by omega) es' htiles
  · rw [Bool.not_eq_true] at hio
    rw [hio]
    exact ⟨fun hok => absurd hok hfail, fun hcond => absurd hcond.2.2.1 Bool.false_ne_true⟩

/-- `ext4fs_update_parent_dentry` on a directory of fewer than twelve blocks. A new block is taken to be written at its place. -/
theorem updated_iff {L : Nat} {init : List ExtDirent} {l : ExtDirent}
    (h : IsDir blksz s.dirBlocks s.disk dir) (hdir : dir = front ++ [(L, init ++ [l])]) (hlt : dir.length < INDIRECT_BLOCKS)
    (hblksz : 1024 ≤ blksz) (hmax : blksz ≤ 2 ^ 16) (hname : filename.bytes.length < 256)
    (hino : ∀ i, newInodeno = some i → 0 < i ∧ i < 2 ^ 32 - 1)
    (hblk : ∀ b, newBlkno = some b → b ≠ 0 ∧ b ∉ dir.map Prod.fst) (newBlknos : List (Option Nat))
    (hplace : (∀ b, newBlkno = some b → b * blksz < 2 ^ 32) ∨
      ((io.devread L && io.logJournal L) = true → Meets io blksz filename newBlkno newInodeno dir L init l)) :
    Updated blksz filename newInodeno dir (updateParentDentry io blksz sectPerblk filename newInodeno (newBlkno :: newBlknos) 0 s) ↔
        ((io.devread L && io.logJournal L) = true → Meets io blksz filename newBlkno newInodeno dir L init l) := by
  have hlen : dir.length = (front.map Prod.fst).length + 1 := by rw [hdir, length_append, length_map]; rfl
  have hblocks : (s.dirBlocks.takeWhile fun blknr => blknr ≠ 0) = front.map Prod.fst ++ [L] := by
    rw [h.blocks, hdir, map_append]
    rfl
  have htiles : Tiles blksz (s.disk L) (init ++ [l]) := h.tiles (L, init ++ [l]) (hdir ▸ mem_append_right _ (mem_singleton_self _))
  have hfew : (front.map Prod.fst).length < INDIRECT_BLOCKS - 1 := by
    simp only [INDIRECT_BLOCKS] at hlt ⊢
    omega
  rw [updateParentDentry_eq hblocks hfew]
  by_cases hio : (io.devread L && io.logJournal L) = true
  · simp only [hio, Bool.not_true, Bool.false_eq_true, if_false, forall_const] at hplace ⊢
    by_cases hroom : ∃ e ∈ init ++ [l], Room filename e
    · obtain ⟨pos, void, buffer', len, hfind, hread, hmake⟩ := findVoid_make htiles hroom hname
      rw [hfind]
      simp only [makeDentry, hread]
      cases newInodeno with
      | none => exact ⟨fun _ => ⟨fun _ => Or.inl rfl, fun hnot => absurd hroom hnot, fun hnot => absurd hroom hnot⟩, fun _ => h⟩
      | some inodeno =>
        obtain ⟨hpos, hlti⟩ := hino inodeno rfl
        obtain ⟨buffer'', es', hwrite, htiles', hmade⟩ := hmake inodeno hpos hlti
        simp only [hwrite]
        by_cases hput : io.putMetadata L = true
        · rw [if_pos hput]
          refine ⟨fun _ => ⟨fun _ => Or.inr hput, fun hnot => absurd hroom hnot, fun hnot => absurd hroom hnot⟩, fun _ => ⟨rfl, ?_⟩⟩
          subst hdir
          exact ⟨_, h.update htiles', Made.liveDir hmade⟩
        · rw [if_neg hput]
          refine ⟨?_, fun hmeets => (hmeets.put hroom).elim (fun hn => absurd hn (Option.some_ne_none _)) fun hp => absurd hp hput⟩
          rintro ⟨-, dir', hdir', hmade'⟩
          obtain rfl := h.unique hdir'
          exact absurd hmade' not_made_self
    · have hnone : ∀ e ∈ init ++ [l], ¬ Room filename e := fun e he hr => hroom ⟨e, he, hr⟩
      by_cases hl : Unpadded l
      · obtain ⟨pos, buffer', len, hfind, hread, hwrite⟩ :=
          findVoid_unpadded htiles (fun e he => hnone e (mem_append_left _ he)) hl hname
        rw [hfind]
        simp only [makeDentry, hread]
        cases newInodeno with
        | none => exact ⟨fun _ => ⟨fun _ => Or.inl rfl, fun _ _ => rfl, fun _ hp => absurd hl hp⟩, fun _ => h⟩
        | some inodeno =>
          simp only [hwrite]
          exact ⟨False.elim, fun hmeets => absurd (hmeets.padded hroom hl) (Option.some_ne_none _)⟩
      · rw [findVoid_full htiles hnone hl]
        simp only [← hlen]
        by_cases h11 : dir.length = INDIRECT_BLOCKS - 1
        · rw [if_pos h11]
          exact ⟨fun _ => ⟨fun hr => absurd hr hroom, fun _ hp => absurd hp hl, fun _ _ => Or.inl h11⟩, fun _ => h⟩
        · rw [if_neg h11]
          have hmeets_iff : Meets io blksz filename newBlkno newInodeno dir L init l ↔ NewBlock io blksz L newBlkno newInodeno :=
            ⟨fun hmeets => (hmeets.full hroom hl).resolve_left h11,
              fun hnew => ⟨fun hr => absurd hr hroom, fun _ hp => absurd hp hl, fun _ _ => Or.inr hnew⟩⟩
          rw [hmeets_iff] at hplace ⊢
          cases newBlkno with
          | none =>
            refine ⟨fun hok => absurd hok (h.not_set hlt (by decide)), fun hnew => ?_⟩
            obtain ⟨b, hb, -⟩ := hnew.block
            cases hb
          | some b =>
            obtain ⟨hne, hnot⟩ := hblk b rfl
            have hb : b * blksz < 2 ^ 32 := by
              rcases hplace with hp | hnew
              · exact hp b rfl
              · obtain ⟨b', hb', hlt', -⟩ := hnew.block
                rw [Option.some.inj hb']
                exact hlt'
            by_cases hput : io.putMetadata L = true
            · simp only [hput, if_true]
              rw [updated_newBlock h (by simp only [INDIRECT_BLOCKS] at hlt h11 ⊢; omega) hblksz hmax hname hino hne hnot hb]
              constructor
              · rintro ⟨hi, hfits, hiob, hputb⟩
                exact ⟨hi, hfits, hput, b, rfl, hb, hiob, hputb⟩
              · rintro ⟨hi, hfits, -, b', hb', -, hiob, hputb⟩
                obtain rfl := Option.some.inj hb'
                exact ⟨hi, hfits, hiob, hputb⟩
            · simp only [hput, Bool.false_eq_true, if_false]
              exact ⟨fun hok => absurd hok (h.not_set hlt hne), fun hnew => absurd hnew.put hput⟩
  · rw [Bool.not_eq_true] at hio
    simp only [hio, Bool.not_false, if_true, Bool.false_eq_true, false_implies, iff_true]
    exact h

theorem IsDir.of_update_zero (h : IsDir blksz dirBlocks (Function.update disk 0 buffer) dir) :
    IsDir blksz dirBlocks disk dir := by
  refine ⟨h.pointers, h.few, h.nonzero, h.nodup, fun p hp => ?_⟩
  have htiles := h.tiles p hp
  rwa [update_of_ne (h.nonzero p hp)] at htiles

theorem updated_of_twelve (h : IsDir blksz s.dirBlocks s.disk dir) (h12 : dir.length = INDIRECT_BLOCKS)
    (hio : (io.devread 0 && io.logJournal 0) = false) (newBlknos : List (Option Nat)) :
    Updated blksz filename newInodeno dir (updateParentDentry io blksz sectPerblk filename newInodeno newBlknos 0 s) := by
  rw [updateParentDentry]
  simp only [h.blocks, length_map, h12, if_true, hio, Bool.not_false]
  exact h

/-- Otherwise the entry goes into block 0. -/
theorem not_updated_of_twelve (h : IsDir blksz s.dirBlocks s.disk dir) (h12 : dir.length = INDIRECT_BLOCKS)
    (hio : (io.devread 0 && io.logJournal 0) = true) (newBlknos : List (Option Nat)) :
    ¬ Updated blksz filename (some inodeno) dir (updateParentDentry io blksz sectPerblk filename (some inodeno) newBlknos 0 s) := by
  have hself {s' : ParentDir} (hblocks : s'.dirBlocks = s.dirBlocks) (hdisk : ∀ dir', IsDir blksz s'.dirBlocks s'.disk dir' →
      IsDir blksz s.dirBlocks s.disk dir') : ¬ Updated blksz filename (some inodeno) dir (some (some inodeno, s')) := by
    rintro ⟨-, dir', hdir', hmade⟩
    obtain rfl := h.unique (hdisk dir' hdir')
    exact not_made_self hmade
  rw [updateParentDentry]
  simp only [h.blocks, length_map, h12, if_true, hio, Bool.not_true, Bool.false_eq_true, if_false]
  split
  · exact id
  · exact id
  · simp only [makeDentry]
    split
    · exact id
    · split
      · exact id
      · split
        · exact hself rfl fun dir' hdir' => hdir'.of_update_zero
        · exact hself rfl fun dir' hdir' => hdir'

/-- The new entry is made as it should be. A directory of twelve blocks takes no new entry, and fails only if block 0 cannot be read. -/
def TakesEntry (io : Ext4Io) (blksz : Nat) (filename : CString) (newBlkno newInodeno : Option Nat) (dir : List (Nat × List ExtDirent)) (L : Nat)
    (init : List ExtDirent) (l : ExtDirent) : Prop :=
  if dir.length = INDIRECT_BLOCKS then (io.devread 0 && io.logJournal 0) = false
  else (io.devread L && io.logJournal L) = true → Meets io blksz filename newBlkno newInodeno dir L init l

/-! ## A small directory -/

/-- All reads and writes succeed. -/
def goodIo : Ext4Io := ⟨fun _ => true, fun _ => true, fun _ => true⟩

theorem length_letter (c : UInt8) : [c].length < 256 := by
  show 1 < 256
  decide

theorem fits_letter (c : UInt8) (hslack : slack < 2 ^ 15) :
    EXT2_DIRENT_SIZE + [c].length + (List.replicate slack (0 : UInt8)).length < 2 ^ 16 := by
  rw [length_replicate]
  simp only [EXT2_DIRENT_SIZE, length_singleton]
  omega

/-- An entry with a name of one letter. -/
def letter (inode : Nat) (c : UInt8) (slack : Nat) (hinode : inode < 2 ^ 32 - 1) (hslack : slack < 2 ^ 15) : ExtDirent :=
  ⟨inode, FILETYPE_REG, [c], List.replicate slack 0, hinode, length_letter c, fits_letter c hslack⟩

theorem len_letter {c : UInt8} {hinode : inode < 2 ^ 32 - 1} {hslack : slack < 2 ^ 15} :
    (letter inode c slack hinode hslack).len = EXT2_DIRENT_SIZE + 1 + slack := by
  simp only [ExtDirent.len, letter, length_replicate, length_singleton]

def letterA : ExtDirent := letter 11 0x61 3 (by decide) (by decide)

def letterB : ExtDirent := letter 12 0x62 1003 (by decide) (by decide)

def nameA : CString := ⟨[0x61], by decide⟩

def nameB : CString := ⟨[0x62], by decide⟩

def nameC : CString := ⟨[0x63], by decide⟩

/-- A directory of one block, with the names a and b. -/
def smallDir : ParentDir := ⟨7 :: List.replicate 11 0, 1024, 2, fun _ => area [letterA, letterB]⟩

theorem letterB_removable : Removable nameB [letterA, letterB] := by
  intro mid e post hsplit hmid he
  cases mid with
  | nil =>
    obtain rfl : letterA = e := head_eq_of_cons_eq hsplit
    exact absurd he (by decide)
  | cons x mid =>
    cases mid with
    | nil =>
      simp only [cons_append, nil_append, List.cons.injEq] at hsplit
      obtain ⟨rfl, rfl, -⟩ := hsplit
      refine ⟨by decide, [], letterA, rfl, ?_⟩
      rw [letterA, letterB, len_letter, len_letter]
      decide
    | cons y mid =>
      simp only [cons_append, List.cons.injEq] at hsplit
      cases mid <;> cases hsplit.2.2

theorem smallDir_removable : DirRemovable nameB [(7, [letterA, letterB])] := by
  intro pre p post hdir _
  cases pre with
  | nil =>
    obtain rfl := head_eq_of_cons_eq hdir
    exact letterB_removable
  | cons q pre => cases pre <;> cases (List.cons.inj hdir).2

theorem smallDir_isDir : IsDir 1024 smallDir.dirBlocks smallDir.disk [(7, [letterA, letterB])] := by
  refine ⟨rfl, by decide, fun p hp => ?_, pairwise_singleton _ _, fun p hp => ?_⟩
  · obtain rfl := mem_singleton.1 hp
    decide
  · obtain rfl := mem_singleton.1 hp
    refine ⟨?_, rfl⟩
    show (area [letterA, letterB]).length = 1024
    rw [area_cons, area_cons, length_append, length_append, ExtDirent.length_bytes, ExtDirent.length_bytes, letterA, letterB,
      len_letter, len_letter]
    rfl

end Ext4Dir

open Ext4Dirents Ext4Dir in
/-- With a directory whose blocks are tiled, the name is found and taken out as it should be just if its first entry can be taken out. A
search stays in its buffers just if no first entry of a block is found. A new entry is made as it should be, or the directory left alone, if
it takes one, and only then unless the new block is not written at its place, or a directory has twelve blocks and there is no inode. -/
theorem ext4Dir_iff (io : Ext4Io) (blksz sectPerblk : Nat) (filename : CString) (s : ParentDir) (dir : List (Nat × List ExtDirent))
    (hblksz : 1024 ≤ blksz) (hmax : blksz ≤ 2 ^ 16) (hname : filename.bytes.length < 256) (h : IsDir blksz s.dirBlocks s.disk dir) :
    ((∀ b, (io.devread b && io.logJournal b) = true) → (∀ b, io.putMetadata b = true) →
      (∀ p ∈ dir, Checked blksz filename s.disk p.1 p.2 (checkFilename io blksz filename s.disk p.1) ↔ Removable filename p.2) ∧
        (DirChecked blksz filename s.dirBlocks s.disk dir (filenameCheck io blksz filename s.dirBlocks s.disk) ↔ DirRemovable filename dir) ∧
        ((searchDir io blksz filename s.disk s.dirBlocks).isSome = true ↔ NotAhead filename dir)) ∧
    ∀ (newBlkno newInodeno : Option Nat) (newBlknos : List (Option Nat)) (front : List (Nat × List ExtDirent)) (L : Nat)
      (init : List ExtDirent) (l : ExtDirent), dir = front ++ [(L, init ++ [l])] →
      (∀ i, newInodeno = some i → 0 < i ∧ i < 2 ^ 32 - 1) → (∀ b, newBlkno = some b → b ≠ 0 ∧ b ∉ dir.map Prod.fst) →
      (TakesEntry io blksz filename newBlkno newInodeno dir L init l → Updated blksz filename newInodeno dir
        (updateParentDentry io blksz sectPerblk filename newInodeno (newBlkno :: newBlknos) 0 s)) ∧
      ((∀ b, newBlkno = some b → b * blksz < 2 ^ 32) → (dir.length = INDIRECT_BLOCKS → newInodeno ≠ none) → Updated blksz filename newInodeno dir
          (updateParentDentry io blksz sectPerblk filename newInodeno (newBlkno :: newBlknos) 0 s) →
        TakesEntry io blksz filename newBlkno newInodeno dir L init l) := by
  have hpos : 0 < blksz := Nat.lt_of_lt_of_le (by decide) hblksz
  refine ⟨fun hio hput => ⟨fun p hp => ?_, ?_, ?_⟩, fun newBlkno newInodeno newBlknos front L init l hdir hino hblk => ?_⟩
  · exact checkFilename_iff (hio p.1) (hput p.1) hpos hmax (h.tiles p hp)
  · exact filenameCheck_iff hio hput hpos hmax h
  · exact searchDir_isSome_iff (fun b => (Bool.and_eq_true_iff.1 (hio b)).1) hpos h
  · unfold TakesEntry
    by_cases h12 : dir.length = INDIRECT_BLOCKS
    · rw [if_pos h12]
      refine ⟨fun hio => updated_of_twelve h h12 hio _, fun _ hsome hok => ?_⟩
      cases newInodeno with
      | none => exact absurd rfl (hsome h12)
      | some inodeno =>
        rw [← Bool.not_eq_true]
        exact fun hio => not_updated_of_twelve h h12 hio _ hok
    · rw [if_neg h12]
      have hlt : dir.length < INDIRECT_BLOCKS := Nat.lt_of_le_of_ne h.few h12
      exact ⟨fun hmeets => (updated_iff h hdir hlt hblksz hmax hname hino hblk newBlknos (Or.inr hmeets)).2 hmeets,
        fun hplace _ => (updated_iff h hdir hlt hblksz hmax hname hino hblk newBlknos (Or.inl hplace)).1⟩

open Ext4Dirents Ext4Dir in
/-- In a directory with the names a and b, b is found and taken out, and c is made. -/
theorem ext4Dir_small : DirChecked 1024 nameB smallDir.dirBlocks smallDir.disk [(7, [letterA, letterB])]
      (filenameCheck goodIo 1024 nameB smallDir.dirBlocks smallDir.disk) ∧
    Updated 1024 nameC (some 13) [(7, [letterA, letterB])] (updateParentDentry goodIo 1024 2 nameC (some 13) [none] 0 smallDir) := by
  constructor
  · rw [((ext4Dir_iff goodIo 1024 2 nameB smallDir _ (by decide) (by decide) (by decide) smallDir_isDir).1 (fun _ => rfl) fun _ => rfl).2.1]
    exact smallDir_removable
  · refine ((ext4Dir_iff goodIo 1024 2 nameC smallDir _ (by decide) (by decide) (by decide)
      smallDir_isDir).2 none (some 13) [] [] 7 [letterA] letterB rfl ?_ nofun).1 fun _ => ?_
    · rintro i hi
      obtain rfl := Option.some.inj hi
      decide
    · have hroom : ∃ e ∈ [letterA] ++ [letterB], Room nameC e := by
        refine ⟨letterB, mem_append_right _ (mem_singleton_self _), ?_⟩
        rw [Room, letterB, len_letter]
        decide
      exact ⟨fun _ => Or.inr rfl, fun hnot => absurd hroom hnot, fun hnot => absurd hroom hnot⟩

open Ext4Dirents Ext4Dir in
/-- The first entry of a block is found: the entry before it is looked for at a null pointer. -/
theorem filenameCheck_first : IsDir 1024 smallDir.dirBlocks smallDir.disk [(7, [letterA, letterB])] ∧
    (0x61 :: []) = letterA.name ∧ letterA.inode ≠ 0 ∧
    ¬ DirChecked 1024 nameA smallDir.dirBlocks smallDir.disk [(7, [letterA, letterB])]
      (filenameCheck goodIo 1024 nameA smallDir.dirBlocks smallDir.disk) := by
  refine ⟨smallDir_isDir, rfl, by decide, ?_⟩
  rw [filenameCheck_iff (fun _ => rfl) (fun _ => rfl) (by decide) (by decide) smallDir_isDir]
  intro hremovable
  obtain ⟨-, pre, q, hnil, -⟩ := hremovable [] _ [] rfl (fun p hp => absurd hp not_mem_nil) [] letterA [letterB] rfl
    (fun x hx => absurd hx not_mem_nil) rfl
  cases pre <;> cases hnil

end UBoot
