import UBoot.Lemmas.Ext4Bits

/-!
# How the blocks of an ext4 file system are given out

The blocks are counted from the first data block.
-/

namespace UBoot

open List

namespace Ext4Blocks

open Lib Ext4Bits

variable {fs fs' : ExtFilesystem} {used : Nat → Bool} {g : ExtGroup} {i k n t blkno : Nat} {backup : Nat → Bool}
variable {r : Option Nat} {x : Int × ExtFilesystem} {groups : Nat}

/-- The block that has the first bit of the first bitmap. -/
def firstDataBlock (fs : ExtFilesystem) : Nat := if fs.blksz ≠ 1024 then 0 else 1

/-- The groups hold the blocks in use, and the superblock counts those that are free. After the first pass they are behind
`curr_blkno`. -/
structure Blocks (fs : ExtFilesystem) (used : Nat → Bool) : Prop where
  blksz : 0 < fs.blksz
  perGroup : fs.blocksPerGroup = 8 * fs.blksz
  groups : ∀ i g, fs.bgd[i]? = some g → GroupHolds fs.blksz fs.blocksPerGroup used i g.blockUninit g.blkBmap g.freeBlocks
  count : fs.freeBlocks = freeFrom used 0 (fs.bgd.length * fs.blocksPerGroup)
  behind : fs.firstPassBbmap ≠ 0 → ∀ n, n < fs.bgd.length * fs.blocksPerGroup → used n = false → fs.currBlkno < n + firstDataBlock fs

/-- A group with blocks in use has its bitmap. -/
def Fresh (fs : ExtFilesystem) (used : Nat → Bool) (i : Nat) : Prop :=
  ∀ g, fs.bgd[i]? = some g → g.blockUninit = true → ∀ k, k < fs.blocksPerGroup → used (i * fs.blocksPerGroup + k) = false

theorem Blocks.pos (h : Blocks fs used) : 0 < fs.blocksPerGroup := by
  rw [h.perGroup]
  exact Nat.mul_pos (by decide) h.blksz

/-! ## The bit of a block -/

theorem bgIdx_eq (fs : ExtFilesystem) (n : Nat) : fs.bgIdx (n + firstDataBlock fs) = ((n / fs.blocksPerGroup : Nat) : Int) := by
  unfold ExtFilesystem.bgIdx firstDataBlock
  by_cases h : fs.blksz ≠ 1024
  · rw [if_pos h, if_pos h, Nat.add_zero]
  · rw [if_neg h, if_neg h]
    split
    · next hmod =>
      rw [Nat.succ_div_of_dvd (Nat.dvd_of_mod_eq_zero hmod)]
      omega
    · next hmod => rw [Nat.succ_div_of_not_dvd fun hdvd => hmod (Nat.mod_eq_zero_of_dvd hdvd)]

theorem blockPlace_eq (h : Blocks fs used) (i k : Nat) : fs.blockPlace (i * fs.blocksPerGroup + k + firstDataBlock fs) i = placeOf k := by
  have hmul : i * fs.blocksPerGroup = 8 * (i * fs.blksz) := by rw [h.perGroup, Nat.mul_left_comm]
  unfold ExtFilesystem.blockPlace firstDataBlock
  rw [hmul, ← Int.natCast_mul]
  generalize i * fs.blksz = m
  by_cases hb : fs.blksz ≠ 1024
  · simp only [if_pos hb]
    exact placeFrom0_eq (by omega) (by omega)
  · simp only [if_neg hb]
    exact placeFrom1_eq (by omega) (by omega)

/-! ## A block is taken -/

theorem Blocks.init (h : Blocks fs used) (hg : fs.bgd[i]? = some g) (hfresh : Fresh fs used i) : (fs.initBlockBmap g).blockUninit = false ∧
      GroupHolds fs.blksz fs.blocksPerGroup used i false (fs.initBlockBmap g).blkBmap (fs.initBlockBmap g).freeBlocks := by
  unfold ExtFilesystem.initBlockBmap
  split
  · next hu => exact ⟨rfl, (h.groups i g hg).cleared (hfresh g hg hu)⟩
  · next hu =>
    have hinit := Bool.eq_false_iff.2 hu
    exact ⟨hinit, hinit ▸ h.groups i g hg⟩

theorem Blocks.take {bmap : List UInt8} (h : Blocks fs used) (hg : fs.bgd[i]? = some g) (hfresh : Fresh fs used i)
    (hfirst : FirstFree (fs.bgd.length * fs.blocksPerGroup) used (i * fs.blocksPerGroup + k)) (hk : k < fs.blocksPerGroup)
    (hadds : Adds (fs.initBlockBmap g).blkBmap k bmap) (pass : Nat) (prev : Option Nat) :
    Blocks { fs.takeBlock i (fs.initBlockBmap g) bmap (i * fs.blocksPerGroup + k + firstDataBlock fs) with
      firstPassBbmap := pass, prevBgBitmapIndex := prev } (Function.update used (i * fs.blocksPerGroup + k) true) := by
  obtain ⟨hu, hinit⟩ := h.init hg hfresh
  refine ⟨h.blksz, h.perGroup, fun j g' hj => ?_, ?_, fun _ n _ hn => ?_⟩
  · rcases getElem?_setGroup fs hj with ⟨rfl, rfl⟩ | ⟨hij, hj⟩
    · exact hu ▸ hinit.adds hk hfirst.free hadds
    · exact (h.groups j g' hj).other hij hk
  · have hcount := freeFrom_update hfirst.free (Nat.zero_le _) (Nat.lt_of_lt_of_eq hfirst.lt (Nat.zero_add _).symm)
    have hold := h.count
    simp only [ExtFilesystem.takeBlock, ExtFilesystem.setGroup, length_set]
    omega
  · rw [Function.update_apply] at hn
    split at hn
    · cases hn
    · next hne =>
      have hle : ¬ n < i * fs.blocksPerGroup + k := fun hlt => by
        rw [hfirst.first n hlt] at hn
        cases hn
      show i * fs.blocksPerGroup + k + firstDataBlock fs < n + firstDataBlock fs
      omega

/-! ## The first pass -/

/-- The number of a block that is counted from the first data block, or -1. -/
def blknoOf (first : Nat) : Option Nat → Int
  | none => -1
  | some n => ((n + first : Nat) : Int)

theorem firstBlkNo_full {is : List Nat} (h : ∀ i ∈ is, ∃ g, fs.bgd[i]? = some g ∧ g.freeBlocks = 0) (rest : List Nat) :
    ExtFilesystem.firstBlkNo backup (is ++ rest) fs = ExtFilesystem.firstBlkNo backup rest fs := by
  induction is with
  | nil => rfl
  | cons i is ih =>
    obtain ⟨g, hg, hfull⟩ := h i (mem_cons_self ..)
    rw [cons_append, ExtFilesystem.firstBlkNo, hg]
    simp only [hfull, if_true]
    exact ih fun j hj => h j (mem_cons_of_mem i hj)

theorem Blocks.full {m : Nat} (h : Blocks fs used) (hm : m ≤ fs.bgd.length) (hused : ∀ n, n < t → used n = true)
    (ht : m * fs.blocksPerGroup ≤ t) : ∀ j ∈ List.range m, ∃ g, fs.bgd[j]? = some g ∧ g.freeBlocks = 0 := by
  intro j hj
  have hj := mem_range.1 hj
  have hmul := Nat.mul_le_mul_right fs.blocksPerGroup (show j + 1 ≤ m from hj)
  rw [Nat.succ_mul] at hmul
  have hg : fs.bgd[j]? = some fs.bgd[j] := getElem?_eq_getElem (by omega)
  exact ⟨fs.bgd[j], hg, (h.groups j _ hg).full hused (by omega)⟩

/-- What a call leaves: the number it gives is used now, and the sizes are the same. -/
structure Left (fs : ExtFilesystem) (used : Nat → Bool) (r : Option Nat) (fs' : ExtFilesystem) : Prop where
  gives : Gives (fs.bgd.length * fs.blocksPerGroup) used r (after used r)
  blocks : Blocks fs' (after used r)
  length : fs'.bgd.length = fs.bgd.length
  blksz : fs'.blksz = fs.blksz

theorem firstPass_taken (hb : ∀ b, backup b = true) (h : Blocks fs used) (ht : FirstFree (fs.bgd.length * fs.blocksPerGroup) used t)
    (hfresh : Fresh fs used (t / fs.blocksPerGroup)) (hshort : t / fs.blocksPerGroup < 2 ^ 15) :
    ∃ fs', ExtFilesystem.firstBlkNo backup (List.range (min fs.bgd.length (2 ^ 15))) fs =
      some (blknoOf (firstDataBlock fs) (some t), fs') ∧ Left fs used (some t) fs' := by
  obtain ⟨i, k, hi, hk, rfl⟩ := split_number h.pos ht.lt
  have hdiv : (i * fs.blocksPerGroup + k) / fs.blocksPerGroup = i := by
    rw [Nat.mul_comm, Nat.mul_add_div h.pos, Nat.div_eq_of_lt hk, Nat.add_zero]
  rw [hdiv] at hfresh hshort
  have hg : fs.bgd[i]? = some fs.bgd[i] := getElem?_eq_getElem hi
  have hcount := (h.groups i _ hg).free_ne_zero hk ht.free
  obtain ⟨hu, hinit⟩ := h.init hg hfresh
  have hper := h.perGroup
  obtain ⟨bmap, hnew, hadds⟩ := @getNewNo_spec (fs.initBlockBmap fs.bgd[i]).blkBmap k (fun count => count = fs.blksz * 8) fs.blksz
    (firstDataBlock fs) h.blksz (by rw [hinit.length]; omega) (by rw [hinit.bits k hk rfl, ht.free]; exact nofun)
    (fun j hj => (hinit.bits j (by omega) rfl).2 (ht.first _ (by omega)))
    (fun j _ hj => decide_eq_false (by unfold firstDataBlock; split <;> omega))
  have hnew' : fs.getNewBlkNoIn (fs.initBlockBmap fs.bgd[i]).blkBmap = some (some (firstDataBlock fs + k, bmap)) := hnew
  have hno : firstDataBlock fs + k + i * fs.blksz * 8 = i * fs.blocksPerGroup + k + firstDataBlock fs := by
    rw [hper, Nat.mul_assoc, Nat.mul_comm fs.blksz]
    omega
  rw [range_split (show i < min fs.bgd.length (2 ^ 15) by omega), firstBlkNo_full (h.full (Nat.le_of_lt hi) ht.first (Nat.le_add_right ..)),
    ExtFilesystem.firstBlkNo, hg]
  simp only [hcount, if_false, hnew', hb, if_true, hno]
  exact ⟨_, rfl, .number ht.lt ht.free, h.take hg hfresh ht hk hadds (fs.firstPassBbmap + 1) fs.prevBgBitmapIndex, length_set .., rfl⟩

theorem firstPass_none (h : Blocks fs used) (hused : ∀ n, n < fs.bgd.length * fs.blocksPerGroup → used n = true) :
    ExtFilesystem.firstBlkNo backup (List.range (min fs.bgd.length (2 ^ 15))) fs = some (-1, fs) := by
  have hpre := h.full (Nat.min_le_left fs.bgd.length (2 ^ 15)) hused (Nat.mul_le_mul_right _ (Nat.min_le_left ..))
  rw [← append_nil (List.range _), firstBlkNo_full hpre]
  rfl

/-! ## The passes that follow -/

theorem Blocks.advance (h : Blocks fs used) (hused : ∀ m, m < n → m < fs.bgd.length * fs.blocksPerGroup → used m = true)
    (hn : blkno + 1 = n + firstDataBlock fs) : Blocks { fs with currBlkno := blkno } used := by
  refine ⟨h.blksz, h.perGroup, h.groups, h.count, fun _ m hm hfree => ?_⟩
  show blkno < m + firstDataBlock fs
  rw [← Nat.not_le]
  intro hle
  rw [hused m (by omega) hm] at hfree
  cases hfree

theorem nextBlkNo_full (hn : fs.currBlkno + 1 = n + firstDataBlock fs) (hg : fs.bgd[n / fs.blocksPerGroup]? = some g)
    (hfull : g.freeBlocks = 0) (fuel : Nat) : ExtFilesystem.nextBlkNo backup (fuel + 1) fs =
      ExtFilesystem.nextBlkNo backup fuel { fs with currBlkno := n + firstDataBlock fs + fs.blocksPerGroup - 1 } := by
  obtain ⟨hlt, -⟩ := List.getElem?_eq_some_iff.1 hg
  rw [ExtFilesystem.nextBlkNo]
  simp only [hn, bgIdx_eq, Int.toNat_natCast, if_neg (Nat.not_le.2 hlt), hg, hfull, if_true]

theorem nextBlkNo_end (hn : fs.currBlkno + 1 = n + firstDataBlock fs) (hend : fs.bgd.length ≤ n / fs.blocksPerGroup) (fuel : Nat) :
    ExtFilesystem.nextBlkNo backup (fuel + 1) fs = some (-1, { fs with currBlkno := n + firstDataBlock fs }) := by
  rw [ExtFilesystem.nextBlkNo]
  simp only [hn, bgIdx_eq, Int.toNat_natCast, if_pos hend]

theorem nextBlkNo_step (hb : ∀ b, backup b = true) (h : Blocks fs used) (hn : fs.currBlkno + 1 = n + firstDataBlock fs)
    (hg : fs.bgd[n / fs.blocksPerGroup]? = some g) (hcount : g.freeBlocks ≠ 0) (hfresh : Fresh fs used (n / fs.blocksPerGroup))
    (fuel : Nat) :
    (used n = true → ExtFilesystem.nextBlkNo backup (fuel + 1) fs =
      ExtFilesystem.nextBlkNo backup fuel { fs with currBlkno := n + firstDataBlock fs }) ∧
      (FirstFree (fs.bgd.length * fs.blocksPerGroup) used n → ∃ fs',
        ExtFilesystem.nextBlkNo backup (fuel + 1) fs = some (blknoOf (firstDataBlock fs) (some n), fs') ∧ Left fs used (some n) fs') := by
  have hk := Nat.mod_lt n h.pos
  have hsplit := Nat.div_add_mod' n fs.blocksPerGroup
  have hplace := blockPlace_eq h (n / fs.blocksPerGroup) (n % fs.blocksPerGroup)
  rw [hsplit] at hplace
  obtain ⟨hlt, -⟩ := List.getElem?_eq_some_iff.1 hg
  have hidx := bgIdx_eq fs n
  generalize n / fs.blocksPerGroup = i at *
  generalize n % fs.blocksPerGroup = k at *
  obtain ⟨hu, hinit⟩ := h.init hg hfresh
  have hper := h.perGroup
  have hlen : k < 8 * (fs.initBlockBmap g).blkBmap.length := by
    rw [hinit.length]
    omega
  refine ⟨fun hused => ?_, fun hfirst => ?_⟩
  · rw [← hsplit] at hused
    have hmarked := (hinit.bits k hk rfl).2 hused
    have hsame : fs.initBlockBmap g = g := by
      refine if_neg fun hun => ?_
      rw [hfresh g hg hun k hk] at hused
      cases hused
    rw [ExtFilesystem.nextBlkNo]
    simp only [hn, hidx, Int.toNat_natCast, if_neg (Nat.not_le.2 hlt), hg, hcount, if_false, hplace, setBit_of_marked hlen hmarked]
    rw [hsame, setGroup_self hg]
  · rw [← hsplit] at hfirst
    obtain ⟨bmap, hset, hadds⟩ := setBit_of_clear hlen (by rw [hinit.bits k hk rfl, hfirst.free]; exact nofun)
    have htake (prev : Option Nat) := h.take hg hfresh hfirst hk hadds fs.firstPassBbmap prev
    rw [hsplit] at htake hfirst
    rw [ExtFilesystem.nextBlkNo]
    simp only [hn, hidx, Int.toNat_natCast, if_neg (Nat.not_le.2 hlt), hg, hcount, if_false, hplace, hset, hb, if_true]
    split
    · exact ⟨_, rfl, .number hfirst.lt hfirst.free, htake fs.prevBgBitmapIndex, length_set .., rfl⟩
    · exact ⟨_, rfl, .number hfirst.lt hfirst.free, htake (some i), length_set .., rfl⟩

theorem mod_le_mod {p a b : Nat} (hdiv : a / p = b / p) (hle : a ≤ b) : a % p ≤ b % p := by
  have ha := Nat.div_add_mod' a p
  have hb := Nat.div_add_mod' b p
  rw [hdiv] at ha
  omega

theorem nextBlkNo_finds (hb : ∀ b, backup b = true) (h : Blocks fs used) (hn : fs.currBlkno + 1 = n + firstDataBlock fs)
    (ht : FirstFree (fs.bgd.length * fs.blocksPerGroup) used t) (hfresh : Fresh fs used (t / fs.blocksPerGroup)) (hle : n ≤ t)
    (hmod : n % fs.blocksPerGroup ≤ t % fs.blocksPerGroup) : ∃ fuel fs',
      ExtFilesystem.nextBlkNo backup fuel fs = some (blknoOf (firstDataBlock fs) (some t), fs') ∧ Left fs used (some t) fs' := by
  induction hm : t - n using Nat.strong_induction_on generalizing n fs with
  | _ m ih =>
    have hpos := h.pos
    have hin : t / fs.blocksPerGroup < fs.bgd.length := (Nat.div_lt_iff_lt_mul hpos).2 ht.lt
    have hdiv := @Nat.div_le_div_right _ _ fs.blocksPerGroup hle
    have hg : fs.bgd[n / fs.blocksPerGroup]? = some _ := getElem?_eq_getElem (Nat.lt_of_le_of_lt hdiv hin)
    rcases Nat.eq_or_lt_of_le hdiv with heq | hlt
    · -- The group of the free block is not full.
      have hcount := (h.groups _ _ hg).free_ne_zero (k := t % fs.blocksPerGroup) (Nat.mod_lt t hpos)
        (by rw [heq, Nat.div_add_mod']; exact ht.free)
      rw [← heq] at hfresh
      obtain ⟨hpass, htake⟩ := nextBlkNo_step hb h hn hg hcount hfresh 0
      rcases Nat.eq_or_lt_of_le hle with rfl | hlt
      · obtain ⟨fs', hnext, hleft⟩ := htake ht
        exact ⟨1, fs', hnext, hleft⟩
      · have hnext : (n + 1) / fs.blocksPerGroup = t / fs.blocksPerGroup :=
          Nat.le_antisymm (Nat.div_le_div_right hlt) (heq ▸ Nat.div_le_div_right (Nat.le_succ n))
        obtain ⟨fuel, fs', hrest, hleft⟩ := @ih (t - (n + 1)) (by omega) { fs with currBlkno := n + firstDataBlock fs } (n + 1)
          (h.advance (n := n + 1) (fun j hj _ => ht.first j (by omega)) (Nat.add_right_comm ..)) (Nat.add_right_comm ..) ht
          (by rw [heq] at hfresh; exact hfresh) hlt (mod_le_mod hnext hlt) rfl
        exact ⟨fuel + 1, fs', ((nextBlkNo_step hb h hn hg hcount hfresh fuel).1 (ht.first n hlt)).trans hrest,
          hleft.gives, hleft.blocks, hleft.length, hleft.blksz⟩
    · -- The groups before it are full.
      have hbound := (Nat.le_div_iff_mul_le hpos).1 hlt
      rw [Nat.succ_mul] at hbound
      have hfull := (h.groups _ _ hg).full ht.first hbound
      have hjump : n + fs.blocksPerGroup ≤ t := by
        have hsplit := Nat.div_add_mod' n fs.blocksPerGroup
        have hsplit' := Nat.div_add_mod' t fs.blocksPerGroup
        have hmul := Nat.mul_le_mul_right fs.blocksPerGroup hlt
        rw [Nat.succ_mul] at hmul
        omega
      have hcurr : n + firstDataBlock fs + fs.blocksPerGroup - 1 + 1 = n + fs.blocksPerGroup + firstDataBlock fs := by omega
      obtain ⟨fuel, fs', hrest, hleft⟩ := @ih (t - (n + fs.blocksPerGroup)) (by omega)
        { fs with currBlkno := n + firstDataBlock fs + fs.blocksPerGroup - 1 } (n + fs.blocksPerGroup)
        (h.advance (fun j hj _ => ht.first j (by omega)) hcurr) hcurr ht hfresh hjump (by rwa [Nat.add_mod_right]) rfl
      exact ⟨fuel + 1, fs', (nextBlkNo_full hn hg hfull fuel).trans hrest, hleft.gives, hleft.blocks, hleft.length, hleft.blksz⟩

theorem nextBlkNo_ends (h : Blocks fs used) (hn : fs.currBlkno + 1 = n + firstDataBlock fs)
    (hused : ∀ m, m < fs.bgd.length * fs.blocksPerGroup → used m = true) :
    ∃ fuel fs', ExtFilesystem.nextBlkNo backup fuel fs = some (-1, fs') ∧ Left fs used none fs' := by
  induction hm : fs.bgd.length - n / fs.blocksPerGroup generalizing n fs with
  | zero =>
    exact ⟨1, _, nextBlkNo_end hn (by omega) 0, .none hused, h.advance (n := n + 1) (fun j _ hj => hused j hj) (Nat.add_right_comm ..),
      rfl, rfl⟩
  | succ m ih =>
    have hlt : n / fs.blocksPerGroup < fs.bgd.length := by omega
    have hg : fs.bgd[n / fs.blocksPerGroup]? = some _ := getElem?_eq_getElem hlt
    have hmul := Nat.mul_le_mul_right fs.blocksPerGroup hlt
    rw [Nat.succ_mul] at hmul
    have hfull := (h.groups _ _ hg).full hused hmul
    have hpos := h.pos
    have hcurr : n + firstDataBlock fs + fs.blocksPerGroup - 1 + 1 = n + fs.blocksPerGroup + firstDataBlock fs := by omega
    obtain ⟨fuel, fs', hrest, hleft⟩ := @ih { fs with currBlkno := n + firstDataBlock fs + fs.blocksPerGroup - 1 }
      (n + fs.blocksPerGroup) (h.advance (fun j _ hj => hused j hj) hcurr) hcurr hused
      (by rw [Nat.add_div_right _ hpos]; simp only; omega)
    exact ⟨fuel + 1, fs', (nextBlkNo_full hn hg hfull fuel).trans hrest, hleft.gives, hleft.blocks, hleft.length, hleft.blksz⟩

/-! ## Calls one after the other -/

/-- A call of `ext4fs_get_new_blk_no`. -/
def BlockCall (backup : Nat → Bool) (fs : ExtFilesystem) (r : Option Nat) (fs' : ExtFilesystem) : Prop :=
  ∃ fuel, fs.getNewBlkNo backup fuel = some (blknoOf (firstDataBlock fs) r, fs')

/-- A call comes to the first free block: its group has its bitmap, and is not entered behind it. In the first pass its index fits a
`short`. -/
def Comes (s : ExtFilesystem × (Nat → Bool)) : Prop :=
  ∀ t, FirstFree (s.1.bgd.length * s.1.blocksPerGroup) s.2 t → Fresh s.1 s.2 (t / s.1.blocksPerGroup) ∧
    if s.1.firstPassBbmap = 0 then t / s.1.blocksPerGroup < 2 ^ 15
    else (s.1.currBlkno + 1 - firstDataBlock s.1) % s.1.blocksPerGroup ≤ t % s.1.blocksPerGroup

theorem blockCall_of_comes (hb : ∀ b, backup b = true) (h : Blocks fs used) (hcomes : Comes (fs, used)) :
    ∃ r fs', BlockCall backup fs r fs' ∧ Left fs used r fs' := by
  by_cases hall : ∃ n, n < fs.bgd.length * fs.blocksPerGroup ∧ used n = false
  · obtain ⟨t, ht⟩ := exists_firstFree hall
    obtain ⟨hfresh, hplace⟩ := hcomes t ht
    split at hplace
    · next h0 =>
      obtain ⟨fs', hcall, hleft⟩ := firstPass_taken hb h ht hfresh hplace
      exact ⟨some t, fs', ⟨0, (if_pos h0).trans hcall⟩, hleft⟩
    · next h0 =>
      have hbehind := h.behind h0 t ht.lt ht.free
      have hfirst : firstDataBlock fs ≤ 1 := by
        unfold firstDataBlock
        split <;> omega
      have hn : fs.currBlkno + 1 = fs.currBlkno + 1 - firstDataBlock fs + firstDataBlock fs := by omega
      obtain ⟨fuel, fs', hnext, hleft⟩ := nextBlkNo_finds hb h hn ht hfresh (by omega) hplace
      exact ⟨some t, fs', ⟨fuel, (if_neg h0).trans hnext⟩, hleft⟩
  · have hused : ∀ n, n < fs.bgd.length * fs.blocksPerGroup → used n = true := fun n hn => by
      rw [← Bool.not_eq_false]
      exact fun hf => hall ⟨n, hn, hf⟩
    by_cases h0 : fs.firstPassBbmap = 0
    · exact ⟨none, fs, ⟨0, (if_pos h0).trans (firstPass_none h hused)⟩, .none hused, h, rfl, rfl⟩
    · have hfirst : firstDataBlock fs ≤ 1 := by
        unfold firstDataBlock
        split <;> omega
      have hn : fs.currBlkno + 1 = fs.currBlkno + 1 - firstDataBlock fs + firstDataBlock fs := by omega
      obtain ⟨fuel, fs', hnext, hleft⟩ := @nextBlkNo_ends _ _ _ backup h hn hused
      exact ⟨none, fs', ⟨fuel, (if_neg h0).trans hnext⟩, hleft⟩

theorem blknoOf_inj {first : Nat} {r' : Option Nat} (h : blknoOf first r = blknoOf first r') : r = r' := by
  cases r with
  | none =>
    cases r' with
    | none => rfl
    | some n' =>
      simp only [blknoOf] at h
      omega
  | some n =>
    cases r' with
    | none =>
      simp only [blknoOf] at h
      omega
    | some n' =>
      simp only [blknoOf] at h
      exact congrArg some (by omega)

theorem nextBlkNo_mono {fuel : Nat} (h : ExtFilesystem.nextBlkNo backup fuel fs = some x) (m : Nat) :
    ExtFilesystem.nextBlkNo backup (fuel + m) fs = some x := by
  induction fuel generalizing fs with
  | zero => cases h
  | succ fuel ih =>
    rw [Nat.succ_add]
    rw [ExtFilesystem.nextBlkNo] at h ⊢
    revert h
    simp only
    split
    · exact id
    · split
      · exact id
      · split
        · exact ih
        · split
          · exact id
          · exact ih
          · exact id

theorem BlockCall.unique {r' : Option Nat} {fs₁ fs₂ : ExtFilesystem} (h : BlockCall backup fs r fs₁) (h' : BlockCall backup fs r' fs₂) :
    r = r' ∧ fs₁ = fs₂ := by
  obtain ⟨fuel, h⟩ := h
  obtain ⟨fuel', h'⟩ := h'
  have heq : some (blknoOf (firstDataBlock fs) r, fs₁) = some (blknoOf (firstDataBlock fs) r', fs₂) := by
    unfold ExtFilesystem.getNewBlkNo at h h'
    split at h
    · next h0 =>
      rw [if_pos h0] at h'
      exact h.symm.trans h'
    · next h0 =>
      rw [if_neg h0] at h'
      have h1 := nextBlkNo_mono h fuel'
      have h2 := nextBlkNo_mono h' fuel
      rw [Nat.add_comm] at h2
      exact h1.symm.trans h2
  simp only [Option.some.injEq, Prod.mk.injEq] at heq
  exact ⟨blknoOf_inj heq.1, heq.2⟩

/-- The file system keeps its size. -/
structure BlockInv (groups blksz : Nat) (fs : ExtFilesystem) (used : Nat → Bool) : Prop where
  blocks : Blocks fs used
  groups : fs.bgd.length = groups
  size : fs.blksz = blksz

theorem BlockInv.total {blksz : Nat} (h : BlockInv groups blksz fs used) :
    fs.bgd.length * fs.blocksPerGroup = groups * (8 * blksz) := by rw [h.blocks.perGroup, h.groups, h.size]

theorem BlockInv.call {blksz : Nat} (hb : ∀ b, backup b = true) (h : BlockInv groups blksz fs used)
    (hcomes : Comes (fs, used)) (hcall : BlockCall backup fs r fs') :
    Gives (groups * (8 * blksz)) used r (after used r) ∧ BlockInv groups blksz fs' (after used r) := by
  obtain ⟨r', fs'', hcall', hleft⟩ := blockCall_of_comes hb h.blocks hcomes
  obtain ⟨rfl, rfl⟩ := hcall.unique hcall'
  exact ⟨h.total ▸ hleft.gives, hleft.blocks, hleft.length.trans h.groups, hleft.blksz.trans h.size⟩

/-! ## Examples of file systems -/

/-- A group of blocks of 1024 bytes. -/
def blockGroup (byte : UInt8) (free : Nat) (uninit : Bool) : ExtGroup := ⟨3, 4, 5, free, 0, 0, uninit, false, List.replicate 1024 byte, []⟩

/-- One group with its first `m` blocks in use, after `curr_blkno` came to the last one of them. -/
def oneGroup (byte : UInt8) (m pass : Nat) (prev : Option Nat) : ExtFilesystem :=
  ⟨1024, 128, 8192, 8, [⟨3, 4, 5, 8192 - m, 0, 0, false, false, byte :: List.replicate 1023 0, []⟩], 8192 - m, 0, m, pass, prev, 0, 0, none⟩

/-- A full group, and one that was not initialised, with three blocks in use. -/
def secondUninit : ExtFilesystem :=
  ⟨1024, 128, 8192, 8, [blockGroup 255 0 false, blockGroup 0 8189 true], 8189, 0, 0, 0, none, 0, 0, none⟩

theorem oneGroup_blocks : Blocks (oneGroup 7 3 0 none) (below 3) := by
  refine ⟨Nat.succ_pos _, rfl, fun i g hg => ?_, (freeFrom_below (n := 3) rfl).symm, fun h => absurd rfl h⟩
  cases i with
  | zero =>
    obtain rfl := Option.some.inj hg
    have hlength : ((7 : UInt8) :: List.replicate 1023 0).length = 1024 := by rw [length_cons, length_replicate]
    refine ⟨hlength, fun k hk _ => ?_, (freeFrom_below (n := 3) rfl).symm⟩
    rw [Nat.zero_mul, Nat.zero_add]
    have hk : k < 8192 := hk
    rcases Nat.lt_or_ge k 8 with hlt | hge
    · have hbits : ∀ k < 8, (7 : UInt8) &&& bitOf k ≠ 0 ↔ below 3 k = true := by decide
      rw [← hbits k hlt]
      exact marked_iff (by rw [Nat.div_eq_of_lt hlt]; rfl)
    · obtain ⟨j, hj⟩ := Nat.exists_eq_succ_of_ne_zero (Nat.div_pos hge (by decide)).ne'
      have hget : ((7 : UInt8) :: List.replicate 1023 0)[k / 8]? = some 0 := by
        rw [hj, getElem?_cons_succ, getElem?_replicate_of_lt (by omega)]
      rw [marked_iff hget]
      refine iff_of_false (by simp) fun hu => ?_
      have := of_decide_eq_true hu
      omega
  | succ i => cases hg

/-- Every call on this group comes to its first free block. -/
theorem comes_oneGroup {byte : UInt8} {m pass : Nat} {prev : Option Nat} (hm : m < 8192) : Comes (oneGroup byte m pass prev, below m) := by
  intro t ht
  have hge : m ≤ t := Nat.le_of_not_lt fun hlt => Bool.noConfusion ((decide_eq_true hlt).symm.trans ht.free)
  have hlt : t < 1 * 8192 := ht.lt
  rw [Nat.one_mul] at hlt
  have hdiv : t / 8192 = 0 := Nat.div_eq_of_lt hlt
  refine ⟨fun g hg hu => ?_, ?_⟩
  · have hg : (oneGroup byte m pass prev).bgd[t / 8192]? = some g := hg
    rw [hdiv] at hg
    obtain rfl := Option.some.inj hg
    cases hu
  · split
    · show t / 8192 < 2 ^ 15
      rw [hdiv]
      decide
    · show (m + 1 - 1) % 8192 ≤ t % 8192
      rw [Nat.add_sub_cancel, Nat.mod_eq_of_lt hm, Nat.mod_eq_of_lt hlt]
      exact hge

theorem secondUninit_blocks : Blocks secondUninit (below 8195) := by
  refine ⟨Nat.succ_pos _, rfl, fun i g hg => ?_, (freeFrom_below (n := 8195) rfl).symm, fun h => absurd rfl h⟩
  cases i with
  | zero =>
    obtain rfl : blockGroup 255 0 false = g := Option.some.inj hg
    refine ⟨length_replicate .., fun k hk _ => ?_, ?_⟩
    · have hk : k < 8192 := hk
      have hget : (List.replicate 1024 (255 : UInt8))[k / 8]? = some 255 := getElem?_replicate_of_lt (by omega)
      have hbit : (255 : UInt8) &&& bitOf k ≠ 0 := by
        have := (eq_255_iff 255).1 rfl (k % 8) (Nat.mod_lt k (by decide))
        rwa [bitOf, Nat.mod_mod] at this
      exact ⟨fun _ => decide_eq_true (show 0 * 8192 + k < 8195 by omega), fun _ => (marked_iff hget).2 hbit⟩
    · exact (freeFrom_eq_zero.2 fun n _ hn => decide_eq_true (Nat.lt_trans hn (by decide))).symm
  | succ i =>
    cases i with
    | zero =>
      obtain rfl : blockGroup 0 8189 true = g := Option.some.inj hg
      exact ⟨length_replicate .., fun _ _ h => Bool.noConfusion h, (freeFrom_below (n := 3) rfl).symm⟩
    | succ i => cases hg

end Ext4Blocks

open Lib Ext4Blocks in
/-- Calls that come to the first free block give out different blocks that were free, and -1 when none is left. The bitmaps then hold
just the blocks that were used before and those given out, and all counts are those of the free blocks. The next call that comes to the
first free block returns. -/
theorem ext4fsGetNewBlkNo_run {backup : Nat → Bool} (hb : ∀ b, backup b = true) (fs fs' : ExtFilesystem) (used used' : Nat → Bool)
    (h : Blocks fs used) (rs : List (Option Nat))
    (hrun : Exec (Guarded (fun s _ => Comes s) (WithUsed (BlockCall backup))) (fs, used) rs (fs', used')) :
    (rs.filterMap id).Nodup ∧ (∀ n, some n ∈ rs → n < fs.bgd.length * fs.blocksPerGroup ∧ used n = false) ∧
      (∀ n, used' n = true ↔ used n = true ∨ some n ∈ rs) ∧
      (none ∈ rs → ∀ n, n < fs.bgd.length * fs.blocksPerGroup → used' n = true) ∧ Blocks fs' used' ∧
      (Comes (fs', used') → ∃ r fs'', BlockCall backup fs' r fs'' ∧ Left fs' used' r fs'') := by
  obtain ⟨hgives, hinv⟩ := hrun.withUsed (BlockInv fs.bgd.length fs.blksz) (fun s used r s' h hcomes hcall => h.call hb hcomes hcall)
    ⟨h, rfl, rfl⟩
  obtain ⟨hnodup, hused, hfree, hnone⟩ := hgives.gives
  rw [h.perGroup]
  exact ⟨hnodup, hfree, hused, hnone, hinv.blocks, blockCall_of_comes hb hinv.blocks⟩

open Lib Ext4Blocks in
/-- Three blocks behind those in use, by the first pass and by two calls behind it. -/
theorem ext4fsGetNewBlkNo_first : Exec (Guarded (fun s _ => Comes s) (WithUsed (BlockCall fun _ => true)))
      (oneGroup 7 3 0 none, below 3) [some 3, some 4, some 5] (oneGroup 63 6 1 (some 0), below 6) ∧
    Blocks (oneGroup 63 6 1 (some 0)) (below 6) := by
  have hrun : Exec (Guarded (fun s _ => Comes s) (WithUsed (BlockCall fun _ => true)))
      (oneGroup 7 3 0 none, below 3) [some 3, some 4, some 5] (oneGroup 63 6 1 (some 0), below 6) := by
    have hfirst : WithUsed (BlockCall fun _ => true) (oneGroup 7 3 0 none, below 3) (some 3) (oneGroup 15 4 1 none, below 4) :=
      ⟨⟨0, rfl⟩, (after_below 3).symm⟩
    have hsecond : WithUsed (BlockCall fun _ => true) (oneGroup 15 4 1 none, below 4) (some 4) (oneGroup 31 5 1 (some 0), below 5) :=
      ⟨⟨1, rfl⟩, (after_below 4).symm⟩
    refine Exec.cons ⟨comes_oneGroup (by decide), hfirst⟩ (Exec.cons ⟨comes_oneGroup (by decide), hsecond⟩ ?_)
    exact Exec.single ⟨comes_oneGroup (by decide), ⟨1, rfl⟩, (after_below 5).symm⟩
  exact ⟨hrun, (ext4fsGetNewBlkNo_run (fun _ => rfl) _ _ _ _ oneGroup_blocks _ hrun).2.2.2.2.1⟩

open Lib Ext4Blocks in
/-- The first block of a group that was not initialised is given out, though it is used. -/
theorem ext4fsGetNewBlkNo_uninit : Blocks secondUninit (below 8195) ∧ below 8195 8192 = true ∧
    ∃ fs', BlockCall (fun _ => true) secondUninit (some 8192) fs' :=
  ⟨secondUninit_blocks, rfl, _, 0, rfl⟩

end UBoot
