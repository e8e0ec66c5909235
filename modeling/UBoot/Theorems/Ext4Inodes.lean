import UBoot.Lemmas.Ext4Bits

/-!
# Where the inodes of an ext4 file system are, and how they are given out

The group of an inode is computed from its number less one where it is read, and from its number everywhere else.
-/

namespace UBoot

open List

namespace Ext4Inodes

open Lib Ext4Bits

variable {fs fs' : ExtFilesystem} {used used' : Nat → Bool} {g : ExtGroup} {blksz per i j k n : Nat} {backup : Nat → Bool}

/-- The sizes of a file system. -/
structure Geometry (fs : ExtFilesystem) : Prop where
  blksz : 0 < fs.blksz
  inodesz : fs.inodesz ∣ fs.blksz
  pos : 0 < fs.inodesPerGroup
  dvd : 8 ∣ fs.inodesPerGroup
  fits : fs.inodesPerGroup ≤ 8 * fs.blksz

/-- All code agrees on an inode: it is written and deleted where it is read, and its bit is that of the inode in its group. -/
structure Agrees (fs : ExtFilesystem) (ino : Nat) : Prop where
  write : fs.writePlace ino = fs.readPlace ino
  delete : fs.deletePlace ino = fs.readPlace ino
  bit : fs.bitPlace ino = ((ino - 1) / fs.inodesPerGroup, placeOf ((ino - 1) % fs.inodesPerGroup))
  inside : 0 ≤ (fs.bitPlace ino).2.byte ∧ (fs.bitPlace ino).2.byte < fs.blksz

theorem div_pred {p m : Nat} (hp : 0 < p) (h : ¬ p ∣ m) : (m - 1) / p = m / p ∧ (m - 1) % p = m % p - 1 := by
  have hmod : 0 < m % p := Nat.pos_of_ne_zero fun h0 => h (Nat.dvd_of_mod_eq_zero h0)
  have hlt := Nat.mod_lt m hp
  have hsplit := Nat.div_add_mod m p
  have hpred : m - 1 = p * (m / p) + (m % p - 1) := by omega
  have hsmall : m % p - 1 < p := by omega
  rw [hpred]
  exact ⟨by rw [Nat.mul_add_div hp, Nat.div_eq_of_lt hsmall, Nat.add_zero], by rw [Nat.mul_add_mod, Nat.mod_eq_of_lt hsmall]⟩

theorem bitPlace_eq (hg : Geometry fs) (h : ¬ fs.inodesPerGroup ∣ n) :
    fs.bitPlace n = ((n - 1) / fs.inodesPerGroup, placeOf ((n - 1) % fs.inodesPerGroup)) := by
  obtain ⟨hdiv, hmod⟩ := div_pred hg.pos h
  have hpos : 0 < n % fs.inodesPerGroup := Nat.pos_of_ne_zero fun h0 => h (Nat.dvd_of_mod_eq_zero h0)
  have hsub : n - n / fs.inodesPerGroup * fs.inodesPerGroup = n % fs.inodesPerGroup - 1 + 1 := by
    have := Nat.div_add_mod' n fs.inodesPerGroup
    omega
  rw [ExtFilesystem.bitPlace, ExtFilesystem.inodePlace, hdiv, hmod]
  simp only [hsub]
  rw [placeFrom1_eq rfl rfl]

theorem bitPlace_of_dvd (h : fs.inodesPerGroup ∣ n) : (fs.bitPlace n).2.byte = -1 := by
  rw [ExtFilesystem.bitPlace, ExtFilesystem.inodePlace, Nat.div_mul_cancel h, Nat.sub_self]
  rfl

theorem agrees_iff (hg : Geometry fs) (ino : Nat) : Agrees fs ino ↔ ¬ fs.inodesPerGroup ∣ ino := by
  constructor
  · intro h hdvd
    have := h.inside.1
    rw [bitPlace_of_dvd hdvd] at this
    omega
  · intro h
    have hbit := bitPlace_eq hg h
    have hlt := Nat.mod_lt (ino - 1) hg.pos
    have hfits := hg.fits
    have hplace : fs.writePlace ino = fs.readPlace ino := by
      rw [ExtFilesystem.writePlace, ExtFilesystem.readPlace, (div_pred hg.pos h).1]
    refine ⟨hplace, hplace, hbit, ?_⟩
    rw [hbit]
    simp only [placeOf]
    omega

/-! ## The inodes of a group -/

/-- The bitmap of a group holds the inodes in use, or none is in use and it was not initialised. Inodes are counted from 0. -/
structure InodeGroup (blksz per : Nat) (used : Nat → Bool) (i : Nat) (g : ExtGroup) : Prop where
  holds : GroupHolds blksz per used i g.inodeUninit g.inodeBmap g.freeInodes
  uninit : g.inodeUninit = true → ∀ k, k < per → used (i * per + k) = false

/-- The groups hold the inodes in use. After the first pass all free inodes are behind `curr_inode_no`. -/
structure Inodes (fs : ExtFilesystem) (used : Nat → Bool) : Prop where
  geometry : Geometry fs
  groups : ∀ i g, fs.bgd[i]? = some g → InodeGroup fs.blksz fs.inodesPerGroup used i g
  behind : fs.firstPassIbmap ≠ 0 → ∀ n, n < fs.bgd.length * fs.inodesPerGroup → used n = false → fs.currInodeNo ≤ n

theorem InodeGroup.init (h : InodeGroup fs.blksz per used i g) : (fs.initInodeBmap g).inodeUninit = false ∧
    GroupHolds fs.blksz per used i false (fs.initInodeBmap g).inodeBmap (fs.initInodeBmap g).freeInodes := by
  unfold ExtFilesystem.initInodeBmap
  split
  · next hu => exact ⟨rfl, h.holds.cleared (h.uninit hu)⟩
  · next hu =>
    have hinit := Bool.eq_false_iff.2 hu
    exact ⟨hinit, hinit ▸ h.holds⟩

theorem Inodes.take {bmap : List UInt8} (h : Inodes fs used) (unused : Nat) (hg : fs.bgd[i]? = some g)
    (hfirst : FirstFree (fs.bgd.length * fs.inodesPerGroup) used (i * fs.inodesPerGroup + k)) (hk : k < fs.inodesPerGroup)
    (hadds : Adds (fs.initInodeBmap { g with itableUnused := unused }).inodeBmap k bmap) (pass : Nat) (prev : Option Nat) :
    Inodes { fs.takeInode i (fs.initInodeBmap { g with itableUnused := unused }) bmap (i * fs.inodesPerGroup + k + 1) with
      firstPassIbmap := pass, prevInodeBitmapIndex := prev } (Function.update used (i * fs.inodesPerGroup + k) true) := by
  have hgroup : InodeGroup fs.blksz fs.inodesPerGroup used i { g with itableUnused := unused } :=
    ⟨(h.groups i g hg).holds, (h.groups i g hg).uninit⟩
  obtain ⟨hu, hinit⟩ := hgroup.init
  refine ⟨⟨h.geometry.blksz, h.geometry.inodesz, h.geometry.pos, h.geometry.dvd, h.geometry.fits⟩, fun j g' hj => ?_, fun _ n _ hn => ?_⟩
  · rcases getElem?_setGroup fs hj with ⟨rfl, rfl⟩ | ⟨hij, hj⟩
    · exact ⟨hu ▸ hinit.adds hk hfirst.free hadds, fun hu' => absurd (hu.symm.trans hu') Bool.false_ne_true⟩
    · exact ⟨(h.groups j g' hj).holds.other hij hk, fun hu' k' hk' => (update_other hij hk hk').trans ((h.groups j g' hj).uninit hu' k' hk')⟩
  · rw [Function.update_apply] at hn
    split at hn
    · cases hn
    · next hne =>
      have hle : ¬ n < i * fs.inodesPerGroup + k := fun hlt => by
        rw [hfirst.first n hlt] at hn
        cases hn
      simp only [ExtFilesystem.takeInode]
      omega

/-! ## The first pass -/

/-- The number of an inode that is counted from 0, or -1. -/
def inoOf : Option Nat → Int
  | none => -1
  | some n => ((n + 1 : Nat) : Int)

theorem firstInodeNo_full {is : List Nat} (h : ∀ i ∈ is, ∃ g, fs.bgd[i]? = some g ∧ g.freeInodes = 0) (rest : List Nat) :
    ExtFilesystem.firstInodeNo backup (is ++ rest) fs = ExtFilesystem.firstInodeNo backup rest fs := by
  induction is with
  | nil => rfl
  | cons i is ih =>
    obtain ⟨g, hg, hfull⟩ := h i (mem_cons_self ..)
    rw [cons_append, ExtFilesystem.firstInodeNo, hg]
    simp only [hfull, if_true]
    exact ih fun j hj => h j (mem_cons_of_mem i hj)

theorem Inodes.full {t : Nat} (h : Inodes fs used) (hj : j < fs.bgd.length) (hused : ∀ n, n < t → used n = true)
    (ht : j * fs.inodesPerGroup + fs.inodesPerGroup ≤ t) : ∃ g, fs.bgd[j]? = some g ∧ g.freeInodes = 0 := by
  exact ⟨fs.bgd[j], getElem?_eq_getElem hj, (h.groups j _ (getElem?_eq_getElem hj)).holds.full hused ht⟩

theorem firstPass_spec (hb : ∀ b, backup b = true) (h : Inodes fs used)
    (hshort : ∀ t, FirstFree (fs.bgd.length * fs.inodesPerGroup) used t → t / fs.inodesPerGroup < 2 ^ 15) :
    ∃ r fs' used', ExtFilesystem.firstInodeNo backup (List.range (min fs.bgd.length (2 ^ 15))) fs = some (inoOf r, fs') ∧
      Gives (fs.bgd.length * fs.inodesPerGroup) used r used' ∧ Inodes fs' used' ∧
      fs'.bgd.length = fs.bgd.length ∧ fs'.inodesPerGroup = fs.inodesPerGroup := by
  by_cases hall : ∃ n, n < fs.bgd.length * fs.inodesPerGroup ∧ used n = false
  · obtain ⟨t, ht⟩ := exists_firstFree hall
    obtain ⟨i, k, hi, hk, rfl⟩ := split_number h.geometry.pos ht.lt
    have hdiv : (i * fs.inodesPerGroup + k) / fs.inodesPerGroup = i := by
      rw [Nat.mul_comm, Nat.mul_add_div h.geometry.pos, Nat.div_eq_of_lt hk, Nat.add_zero]
    have hi15 := hshort _ ht
    rw [hdiv] at hi15
    have hpre : ∀ j ∈ List.range i, ∃ g, fs.bgd[j]? = some g ∧ g.freeInodes = 0 := by
      intro j hj
      have hj := mem_range.1 hj
      refine h.full (by omega) ht.first ?_
      have := Nat.mul_le_mul_right fs.inodesPerGroup (show j + 1 ≤ i from hj)
      rw [Nat.succ_mul] at this
      omega
    have hg : fs.bgd[i]? = some fs.bgd[i] := getElem?_eq_getElem hi
    have hcount := (h.groups i _ hg).holds.free_ne_zero hk ht.free
    have hgroup : InodeGroup fs.blksz fs.inodesPerGroup used i { fs.bgd[i] with itableUnused := fs.bgd[i].freeInodes } :=
      ⟨(h.groups i _ hg).holds, (h.groups i _ hg).uninit⟩
    obtain ⟨hu, hinit⟩ := hgroup.init
    have hfits := h.geometry.fits
    obtain ⟨bmap, hnew, hadds⟩ := @getNewNo_spec (fs.initInodeBmap { fs.bgd[i] with itableUnused := fs.bgd[i].freeInodes }).inodeBmap k
      (fun count => fs.inodesPerGroup < count) fs.blksz 1 h.geometry.blksz (by rw [hinit.length]; omega)
      (by rw [hinit.bits k hk rfl, ht.free]; exact nofun) (fun j hj => (hinit.bits j (by omega) rfl).2 (ht.first _ (by omega)))
      (fun j _ hj => decide_eq_false (by have := h.geometry.dvd; omega))
    have hno : 1 + k + i * fs.inodesPerGroup = i * fs.inodesPerGroup + k + 1 := by omega
    rw [range_split (show i < min fs.bgd.length (2 ^ 15) by omega), firstInodeNo_full hpre, ExtFilesystem.firstInodeNo, hg]
    simp only [hcount, if_false, ExtFilesystem.getNewInodeNoIn, hnew, hb, if_true, hno]
    exact ⟨some (i * fs.inodesPerGroup + k), _, _, rfl, .number ht.lt ht.free,
      h.take fs.bgd[i].freeInodes hg ht hk hadds (fs.firstPassIbmap + 1) fs.prevInodeBitmapIndex, length_set .., rfl⟩
  · have hused : ∀ n, n < fs.bgd.length * fs.inodesPerGroup → used n = true := fun n hn => by
      rw [← Bool.not_eq_false]
      exact fun hf => hall ⟨n, hn, hf⟩
    refine ⟨none, fs, used, ?_, .none hused, h, rfl, rfl⟩
    have hpre : ∀ j ∈ List.range (min fs.bgd.length (2 ^ 15)), ∃ g, fs.bgd[j]? = some g ∧ g.freeInodes = 0 := by
      intro j hj
      have hj := mem_range.1 hj
      refine h.full (by omega) hused ?_
      have := Nat.mul_le_mul_right fs.inodesPerGroup (show j + 1 ≤ fs.bgd.length by omega)
      rwa [Nat.succ_mul] at this
    rw [← append_nil (List.range _), firstInodeNo_full hpre]
    rfl

/-! ## The passes that follow -/

/-- A pass that follows finds an inode before it comes to the last one of a group. -/
def FindsInGroup (fs : ExtFilesystem) (used : Nat → Bool) : Prop :=
  ∃ t, FirstFree (fs.bgd.length * fs.inodesPerGroup) used t ∧ (t + 1) / fs.inodesPerGroup = fs.currInodeNo / fs.inodesPerGroup

theorem Inodes.advance (h : Inodes fs used) (hused : used fs.currInodeNo = true) :
    Inodes { fs with currInodeNo := fs.currInodeNo + 1 } used := by
  refine ⟨⟨h.geometry.blksz, h.geometry.inodesz, h.geometry.pos, h.geometry.dvd, h.geometry.fits⟩, h.groups, fun hpass n hn hfree => ?_⟩
  have hle := h.behind hpass n hn hfree
  rcases Nat.eq_or_lt_of_le hle with rfl | hlt
  · rw [hused] at hfree
    cases hfree
  · exact hlt

/-- A step of the search, at an inode that is not the last of its group: it is passed over if it is used, and taken if not. -/
theorem nextInodeNo_step (hb : ∀ b, backup b = true) (h : Inodes fs used) (hdvd : ¬ fs.inodesPerGroup ∣ fs.currInodeNo + 1)
    (hi : fs.currInodeNo / fs.inodesPerGroup < fs.bgd.length) (fuel : Nat) :
    (used fs.currInodeNo = true → ExtFilesystem.nextInodeNo backup (fuel + 1) fs =
      ExtFilesystem.nextInodeNo backup fuel { fs with currInodeNo := fs.currInodeNo + 1 }) ∧
      (FirstFree (fs.bgd.length * fs.inodesPerGroup) used fs.currInodeNo → ∃ fs',
        ExtFilesystem.nextInodeNo backup (fuel + 1) fs = some (((fs.currInodeNo + 1 : Nat) : Int), fs') ∧
          Inodes fs' (Function.update used fs.currInodeNo true) ∧
          fs'.bgd.length = fs.bgd.length ∧ fs'.inodesPerGroup = fs.inodesPerGroup) := by
  obtain ⟨hdiv, hmod⟩ := div_pred h.geometry.pos hdvd
  rw [Nat.add_sub_cancel] at hdiv hmod
  have hk := Nat.mod_lt fs.currInodeNo h.geometry.pos
  have hsplit := Nat.div_add_mod' fs.currInodeNo fs.inodesPerGroup
  have hplace : fs.inodePlace (fs.currInodeNo + 1) (fs.currInodeNo / fs.inodesPerGroup) = placeOf (fs.currInodeNo % fs.inodesPerGroup) := by
    have := congrArg Prod.snd (bitPlace_eq h.geometry hdvd)
    rwa [ExtFilesystem.bitPlace, ← hdiv, Nat.add_sub_cancel] at this
  generalize fs.currInodeNo / fs.inodesPerGroup = i at *
  generalize fs.currInodeNo % fs.inodesPerGroup = k at *
  have hg : fs.bgd[i]? = some fs.bgd[i] := getElem?_eq_getElem hi
  have hgroup := h.groups i _ hg
  obtain ⟨hu, hinit⟩ := hgroup.init
  have hfits := h.geometry.fits
  have hlen : k < 8 * (fs.initInodeBmap fs.bgd[i]).inodeBmap.length := by
    rw [hinit.length]
    omega
  refine ⟨fun hused => ?_, fun hfirst => ?_⟩
  · rw [← hsplit] at hused
    have hmarked := (hinit.bits k hk rfl).2 hused
    have hsame : fs.initInodeBmap fs.bgd[i] = fs.bgd[i] := by
      refine if_neg fun hun => ?_
      rw [hgroup.uninit hun k hk] at hused
      cases hused
    rw [ExtFilesystem.nextInodeNo]
    simp only [← hdiv, hg, hplace, setBit_of_marked hlen hmarked]
    rw [hsame, setGroup_self hg]
  · rw [← hsplit] at hfirst
    obtain ⟨bmap, hset, hadds⟩ := setBit_of_clear hlen (by rw [hinit.bits k hk rfl, hfirst.free]; exact nofun)
    have htake (prev : Option Nat) := h.take fs.bgd[i].itableUnused hg hfirst hk hadds fs.firstPassIbmap prev
    rw [hsplit] at htake
    rw [ExtFilesystem.nextInodeNo]
    simp only [← hdiv, hg, hplace, hset, hb, if_true]
    split
    · exact ⟨_, rfl, htake fs.prevInodeBitmapIndex, length_set .., rfl⟩
    · exact ⟨_, rfl, htake (some i), length_set .., rfl⟩

/-- The search comes to the last inode of a group, and to a byte in front of a bitmap, just if there is no free one before it. -/
theorem nextInodeNo_none (hpass : fs.firstPassIbmap ≠ 0) (hb : ∀ b, backup b = true) (h : Inodes fs used) (hnot : ¬ FindsInGroup fs used)
    (fuel : Nat) : ExtFilesystem.nextInodeNo backup fuel fs = none := by
  induction fuel generalizing fs with
  | zero => rfl
  | succ fuel ih =>
    by_cases hdvd : fs.inodesPerGroup ∣ fs.currInodeNo + 1
    · rw [ExtFilesystem.nextInodeNo]
      cases hg : fs.bgd[(fs.currInodeNo + 1) / fs.inodesPerGroup]? with
      | none => rfl
      | some g =>
        have hset (buffer : List UInt8) :
            setBit buffer (fs.inodePlace (fs.currInodeNo + 1) ((fs.currInodeNo + 1) / fs.inodesPerGroup)) = none := by
          have hbyte := bitPlace_of_dvd hdvd
          rw [ExtFilesystem.bitPlace] at hbyte
          rw [setBit, hbyte]
          rfl
        simp only [hset]
    · have hdiv : fs.currInodeNo / fs.inodesPerGroup = (fs.currInodeNo + 1) / fs.inodesPerGroup := (div_pred h.geometry.pos hdvd).1
      rcases Nat.lt_or_ge (fs.currInodeNo / fs.inodesPerGroup) fs.bgd.length with hi | hi
      · have hused : used fs.currInodeNo = true := by
          rw [← Bool.not_eq_false]
          refine fun hfree => hnot ⟨fs.currInodeNo, ⟨(Nat.div_lt_iff_lt_mul h.geometry.pos).1 hi, hfree, fun n hn => ?_⟩, hdiv.symm⟩
          rw [← Bool.not_eq_false]
          intro hfree'
          have hle := h.behind hpass n (Nat.lt_trans hn ((Nat.div_lt_iff_lt_mul h.geometry.pos).1 hi)) hfree'
          omega
        rw [(nextInodeNo_step hb h hdvd hi fuel).1 hused]
        refine ih hpass (h.advance hused) ?_
        rintro ⟨t, ht, heq⟩
        exact hnot ⟨t, ht, heq.trans hdiv.symm⟩
      · rw [ExtFilesystem.nextInodeNo]
        simp only [← hdiv, getElem?_eq_none hi]

theorem not_dvd_of_div_eq {p c t : Nat} (hle : c ≤ t) (heq : (t + 1) / p = c / p) : ¬ p ∣ c + 1 := by
  intro hdvd
  have hdiv := Nat.succ_div_of_dvd hdvd
  have hmono : (c + 1) / p ≤ (t + 1) / p := Nat.div_le_div_right (Nat.succ_le_succ hle)
  omega

theorem nextInodeNo_finds (hb : ∀ b, backup b = true) {t : Nat} :
    ∀ {fs}, fs.firstPassIbmap ≠ 0 → Inodes fs used → FirstFree (fs.bgd.length * fs.inodesPerGroup) used t →
      (t + 1) / fs.inodesPerGroup = fs.currInodeNo / fs.inodesPerGroup →
        ∃ fuel fs', ExtFilesystem.nextInodeNo backup fuel fs = some (inoOf (some t), fs') ∧ Inodes fs' (Function.update used t true) ∧
          fs'.bgd.length = fs.bgd.length ∧ fs'.inodesPerGroup = fs.inodesPerGroup := by
  intro fs hpass h ht hgroup
  have hle := h.behind hpass t ht.lt ht.free
  obtain ⟨m, hm⟩ := Nat.exists_eq_add_of_le hle
  induction m generalizing fs with
  | zero =>
    obtain rfl : t = fs.currInodeNo := hm
    obtain ⟨fs', hnext, hinv⟩ := (nextInodeNo_step hb h (not_dvd_of_div_eq hle hgroup) ((Nat.div_lt_iff_lt_mul h.geometry.pos).2 ht.lt) 0).2 ht
    exact ⟨1, fs', hnext, hinv⟩
  | succ m ih =>
    have hlt : fs.currInodeNo < t := by omega
    have hdvd := not_dvd_of_div_eq hle hgroup
    have hused := ht.first _ hlt
    have hi := (Nat.div_lt_iff_lt_mul h.geometry.pos).2 (Nat.lt_trans hlt ht.lt)
    have hdiv : fs.currInodeNo / fs.inodesPerGroup = (fs.currInodeNo + 1) / fs.inodesPerGroup := (div_pred h.geometry.pos hdvd).1
    obtain ⟨fuel, fs', hnext, hinv⟩ := @ih { fs with currInodeNo := fs.currInodeNo + 1 } hpass (h.advance hused) ht (hgroup.trans hdiv) hlt
      (by simp only; omega)
    exact ⟨fuel + 1, fs', ((nextInodeNo_step hb h hdvd hi fuel).1 hused).trans hnext, hinv⟩

/-! ## Calls one after the other -/

/-- A call of `ext4fs_get_new_inode_no`. -/
def InodeCall (backup : Nat → Bool) (fs : ExtFilesystem) (r : Option Nat) (fs' : ExtFilesystem) : Prop :=
  ∃ fuel, fs.getNewInodeNo backup fuel = some (inoOf r, fs')

/-- A call comes to the first free inode: it is in a group with an index that fits a `short`, or it is found in the same group. -/
def Comes (s : ExtFilesystem × (Nat → Bool)) : Prop :=
  if s.1.firstPassIbmap = 0 then ∀ t, FirstFree (s.1.bgd.length * s.1.inodesPerGroup) s.2 t → t / s.1.inodesPerGroup < 2 ^ 15
  else FindsInGroup s.1 s.2

theorem inoOf_inj {r r' : Option Nat} (h : inoOf r = inoOf r') : r = r' := by
  cases r with
  | none =>
    cases r' with
    | none => rfl
    | some n' =>
      simp only [inoOf] at h
      omega
  | some n =>
    cases r' with
    | none =>
      simp only [inoOf] at h
      omega
    | some n' =>
      simp only [inoOf] at h
      exact congrArg some (by omega)

theorem nextInodeNo_mono {fuel : Nat} {x : Int × ExtFilesystem} (h : ExtFilesystem.nextInodeNo backup fuel fs = some x) (m : Nat) :
    ExtFilesystem.nextInodeNo backup (fuel + m) fs = some x := by
  induction fuel generalizing fs with
  | zero => cases h
  | succ fuel ih =>
    rw [Nat.succ_add]
    rw [ExtFilesystem.nextInodeNo] at h ⊢
    revert h
    split
    · exact id
    · next g hg =>
      simp only
      split
      · exact id
      · exact ih
      · exact id

theorem InodeCall.unique {r r' : Option Nat} {fs₁ fs₂ : ExtFilesystem} (h : InodeCall backup fs r fs₁) (h' : InodeCall backup fs r' fs₂) :
    r = r' ∧ fs₁ = fs₂ := by
  obtain ⟨fuel, h⟩ := h
  obtain ⟨fuel', h'⟩ := h'
  have heq : some (inoOf r, fs₁) = some (inoOf r', fs₂) := by
    unfold ExtFilesystem.getNewInodeNo at h h'
    split at h
    · next h0 =>
      rw [if_pos h0] at h'
      exact h.symm.trans h'
    · next h0 =>
      rw [if_neg h0] at h'
      have h1 := nextInodeNo_mono h fuel'
      have h2 := nextInodeNo_mono h' fuel
      rw [Nat.add_comm] at h2
      exact h1.symm.trans h2
  simp only [Option.some.injEq, Prod.mk.injEq] at heq
  exact ⟨inoOf_inj heq.1, heq.2⟩

/-- The file system keeps its size. -/
structure InodeInv (total per : Nat) (fs : ExtFilesystem) (used : Nat → Bool) : Prop where
  inodes : Inodes fs used
  groups : fs.bgd.length * per = total
  perGroup : fs.inodesPerGroup = per

theorem inodeCall_of_comes (hb : ∀ b, backup b = true) (h : Inodes fs used) (hcomes : Comes (fs, used)) :
    ∃ r fs', InodeCall backup fs r fs' ∧ Gives (fs.bgd.length * fs.inodesPerGroup) used r (after used r) ∧ Inodes fs' (after used r) ∧
      fs'.bgd.length = fs.bgd.length ∧ fs'.inodesPerGroup = fs.inodesPerGroup := by
  unfold Comes at hcomes
  split at hcomes
  · next h0 =>
    obtain ⟨r, fs', used', hcall, hgives, hinv⟩ := firstPass_spec hb h hcomes
    have hafter : used' = after used r := by cases hgives <;> rfl
    rw [hafter] at hgives hinv
    exact ⟨r, fs', ⟨0, (if_pos h0).trans hcall⟩, hgives, hinv⟩
  · next h0 =>
    obtain ⟨t, ht, hgroup⟩ := hcomes
    obtain ⟨fuel, fs', hnext, hinv⟩ := nextInodeNo_finds hb h0 h ht hgroup
    exact ⟨some t, fs', ⟨fuel, (if_neg h0).trans hnext⟩, .number ht.lt ht.free, hinv⟩

/-- A call gives out a number, or says rightly that there is none, just if it comes to the first free inode. -/
theorem inodeCall_iff (hb : ∀ b, backup b = true) (h : Inodes fs used) :
    (∃ r fs', InodeCall backup fs r fs' ∧ Gives (fs.bgd.length * fs.inodesPerGroup) used r (after used r)) ↔ Comes (fs, used) := by
  constructor
  · rintro ⟨r, fs', ⟨fuel, hcall⟩, hgives⟩
    unfold ExtFilesystem.getNewInodeNo at hcall
    unfold Comes
    split
    · next h0 =>
      intro t (ht : FirstFree (fs.bgd.length * fs.inodesPerGroup) used t)
      rw [← Nat.not_le]
      intro (hlarge : 2 ^ 15 ≤ t / fs.inodesPerGroup)
      have hlen : t / fs.inodesPerGroup < fs.bgd.length := (Nat.div_lt_iff_lt_mul h.geometry.pos).2 ht.lt
      have hpre : ∀ j ∈ List.range (min fs.bgd.length (2 ^ 15)), ∃ g, fs.bgd[j]? = some g ∧ g.freeInodes = 0 := by
        intro j hj
        have hj := mem_range.1 hj
        refine h.full (by omega) ht.first ?_
        have hmul := (Nat.le_div_iff_mul_le h.geometry.pos).1 (show j + 1 ≤ t / fs.inodesPerGroup by omega)
        rwa [Nat.succ_mul] at hmul
      have hend := @firstInodeNo_full fs backup _ hpre []
      rw [append_nil] at hend
      rw [if_pos h0, hend, ExtFilesystem.firstInodeNo, Option.some.injEq, Prod.mk.injEq] at hcall
      obtain rfl : r = none := inoOf_inj hcall.1.symm
      cases hgives with
      | none hused =>
        have := hused t ht.lt
        rw [ht.free] at this
        cases this
    · next h0 =>
      by_contra hnot
      rw [if_neg h0, nextInodeNo_none h0 hb h hnot] at hcall
      cases hcall
  · intro hcomes
    obtain ⟨r, fs', hcall, hgives, -⟩ := inodeCall_of_comes hb h hcomes
    exact ⟨r, fs', hcall, hgives⟩

theorem InodeInv.call {total per : Nat} {r : Option Nat} (hb : ∀ b, backup b = true) (h : InodeInv total per fs used)
    (hcomes : Comes (fs, used)) (hcall : InodeCall backup fs r fs') :
    Gives total used r (after used r) ∧ InodeInv total per fs' (after used r) := by
  obtain ⟨r', fs'', hcall', hgives, hinv, hlen, hper⟩ := inodeCall_of_comes hb h.inodes hcomes
  obtain ⟨rfl, rfl⟩ := hcall.unique hcall'
  rw [h.perGroup, h.groups] at hgives
  exact ⟨hgives, hinv, by rw [hlen, h.groups], hper.trans h.perGroup⟩

end Ext4Inodes

namespace Ext4Inodes

open Lib

def eightInodes (table : Nat) (byte : UInt8) (free : Nat) : ExtGroup :=
  ⟨4, 5, table, 0, free, free, false, false, [], byte :: List.replicate 1023 0⟩

/-- Two groups of eight inodes, each with a table of its own. -/
def twoGroups (byte : UInt8) (free pass curr : Nat) (prev : Option Nat) : ExtFilesystem :=
  ⟨1024, 128, 8192, 8, [eightInodes 6 byte free, eightInodes 7 0 8], 0, free + 8, 0, 0, none, curr, pass, prev⟩

theorem twoGroups_geometry (byte : UInt8) (free pass curr : Nat) (prev : Option Nat) : Geometry (twoGroups byte free pass curr prev) :=
  ⟨by show 0 < 1024; decide, by show 128 ∣ 1024; decide, by show 0 < 8; decide, by show 8 ∣ 8; decide, by show 8 ≤ 8 * 1024; decide⟩

theorem eightInodes_inodes {table : Nat} {byte : UInt8} {free m : Nat} (hbits : ∀ k < 8, byte &&& bitOf k ≠ 0 ↔ below m (i * 8 + k) = true)
    (hcount : free = freeFrom (below m) (i * 8) 8) : InodeGroup 1024 8 (below m) i (eightInodes table byte free) := by
  refine ⟨⟨congrArg (· + 1) (length_replicate ..), fun k hk _ => ?_, hcount⟩, nofun⟩
  rw [← hbits k hk]
  exact marked_iff (by rw [Nat.div_eq_of_lt hk]; rfl)

theorem twoGroups_inodes {byte : UInt8} {free pass curr m : Nat} {prev : Option Nat} (hm : m < 8) (hpass : pass ≠ 0 → curr = m)
    (hbits : ∀ k < 8, byte &&& bitOf k ≠ 0 ↔ below m k = true) (hcount : free = freeFrom (below m) 0 8) :
    Inodes (twoGroups byte free pass curr prev) (below m) := by
  have hnot (n : Nat) (hn : 8 ≤ n) : below m n = false := decide_eq_false (by omega)
  refine ⟨twoGroups_geometry .., fun i g hg => ?_, fun h n _ hn => ?_⟩
  · match i, hg with
    | 0, hg =>
      obtain rfl : eightInodes 6 byte free = g := Option.some.inj hg
      exact eightInodes_inodes (fun k hk => by rw [hbits k hk, Nat.zero_mul, Nat.zero_add]) (by rw [Nat.zero_mul]; exact hcount)
    | 1, hg =>
      obtain rfl : eightInodes 7 0 8 = g := Option.some.inj hg
      refine eightInodes_inodes (fun k hk => ?_) ?_
      · rw [hnot _ (by omega)]
        simp
      · exact (@freeFrom_of_threshold 8 0 (below m) (fun n _ hn => by omega) 8 fun n hn _ => hnot n (by omega)).symm
    | i + 2, hg => cases hg
  · have := of_decide_eq_false hn
    rw [show (twoGroups byte free pass curr prev).currInodeNo = m from hpass h]
    omega

end Ext4Inodes

open Lib Ext4Inodes in
/-- All code agrees on where an inode lives just if it is not the last of its group. Calls that come to the first free inode give out
different inodes that were free, and -1 when none is left. No other call does. -/
theorem ext4Inodes_iff {backup : Nat → Bool} (hb : ∀ b, backup b = true) (fs : ExtFilesystem) (used : Nat → Bool) (h : Inodes fs used) :
    (∀ ino, 1 ≤ ino → ino ≤ fs.bgd.length * fs.inodesPerGroup → (Agrees fs ino ↔ ¬ fs.inodesPerGroup ∣ ino)) ∧
      ∀ rs fs' used', Exec (Guarded (fun s _ => Comes s) (WithUsed (InodeCall backup))) (fs, used) rs (fs', used') →
        (rs.filterMap id).Nodup ∧ (∀ n, some n ∈ rs → n < fs.bgd.length * fs.inodesPerGroup ∧ used n = false) ∧
          (∀ n, used' n = true ↔ used n = true ∨ some n ∈ rs) ∧
          (none ∈ rs → ∀ n, n < fs.bgd.length * fs.inodesPerGroup → used' n = true) ∧ Inodes fs' used' ∧
          ((∃ r fs'', InodeCall backup fs' r fs'' ∧ Gives (fs.bgd.length * fs.inodesPerGroup) used' r (after used' r)) ↔
            Comes (fs', used')) := by
  refine ⟨fun ino _ _ => agrees_iff h.geometry ino, fun rs fs' used' hrun => ?_⟩
  obtain ⟨hgives, hinv⟩ := hrun.withUsed (InodeInv (fs.bgd.length * fs.inodesPerGroup) fs.inodesPerGroup)
    (fun s used r s' h hcomes hcall => h.call hb hcomes hcall) ⟨h, rfl, rfl⟩
  obtain ⟨hnodup, hused, hfree, hnone⟩ := hgives.gives
  have hiff := inodeCall_iff hb hinv.inodes
  rw [hinv.perGroup, hinv.groups] at hiff
  exact ⟨hnodup, hfree, hused, hnone, hinv.inodes, hiff⟩

open Lib Ext4Inodes in
/-- The inodes behind three that are used, by the first pass and by a call behind it, and the next call returns. -/
theorem ext4Inodes_first : Agrees (twoGroups 7 5 0 0 none) 1 ∧
    Exec (Guarded (fun s _ => Comes s) (WithUsed (InodeCall fun _ => true))) (twoGroups 7 5 0 0 none, below 3) [some 3, some 4]
      (twoGroups 31 3 1 5 (some 0), below 5) ∧
    Inodes (twoGroups 31 3 1 5 (some 0)) (below 5) ∧
      ∃ r fs', InodeCall (fun _ => true) (twoGroups 31 3 1 5 (some 0)) r fs' ∧ Gives 16 (below 5) r (after (below 5) r) := by
  have hinodes : Inodes (twoGroups 7 5 0 0 none) (below 3) := twoGroups_inodes (by decide) (fun h => absurd rfl h) (by decide) (by decide)
  obtain ⟨hagree, hruns⟩ := @ext4Inodes_iff (fun _ => true) (fun _ => rfl) _ _ hinodes
  have hfirst : Comes (twoGroups 7 5 0 0 none, below 3) := fun t ht =>
    Nat.lt_of_le_of_lt (Nat.div_le_self ..) (Nat.lt_trans ht.lt (by decide))
  have hrun : Exec (Guarded (fun s _ => Comes s) (WithUsed (InodeCall fun _ => true))) (twoGroups 7 5 0 0 none, below 3) [some 3, some 4]
      (twoGroups 31 3 1 5 (some 0), below 5) := by
    have hcall : WithUsed (InodeCall fun _ => true) (twoGroups 7 5 0 0 none, below 3) (some 3) (twoGroups 15 4 1 4 none, below 4) :=
      ⟨⟨0, rfl⟩, (after_below 3).symm⟩
    refine Exec.cons ⟨hfirst, hcall⟩ ?_
    exact Exec.single ⟨⟨4, firstFree_below (by decide), rfl⟩, ⟨1, rfl⟩, (after_below 4).symm⟩
  obtain ⟨-, -, -, -, hlast, hnext⟩ := hruns _ _ _ hrun
  exact ⟨(hagree 1 (by decide) (by decide)).2 (by decide), hrun, hlast, hnext.2 ⟨5, firstFree_below (by decide), rfl⟩⟩

open Lib Ext4Inodes in
/-- The last inode of the first group: its place is another one where it is written, and after the seven before it no call returns,
though it is free. -/
theorem ext4Inodes_eighth : Geometry (twoGroups 0x7f 1 1 7 none) ∧
    (twoGroups 0x7f 1 1 7 none).writePlace 8 ≠ (twoGroups 0x7f 1 1 7 none).readPlace 8 ∧ ¬ Agrees (twoGroups 0x7f 1 1 7 none) 8 ∧
    Inodes (twoGroups 0x7f 1 1 7 none) (below 7) ∧ below 7 7 = false ∧
    ∀ fuel, (twoGroups 0x7f 1 1 7 none).getNewInodeNo (fun _ => true) fuel = none := by
  have hgeometry := twoGroups_geometry 0x7f 1 1 7 none
  refine ⟨hgeometry, by decide, fun h => (agrees_iff hgeometry 8).1 h (by decide), ?_, rfl, fun fuel => ?_⟩
  · exact twoGroups_inodes (by decide) (fun _ => rfl) (by decide) (by decide)
  · cases fuel <;> rfl

end UBoot
