import UBoot.Lemmas.FatAux
import UBoot.FatDir

/-!
# Where a look-up stays in its buffers

What keeps `get_fatent` and `get_vfatname` in their buffers, said of the medium and of the memory, and that it is just what does.
-/

namespace UBoot

/-- The piece of the FAT that an entry is in begins in the FAT. -/
def FsData.InReach (fs : FsData) (entry : Nat) : Prop := entry / fs.bufEntries * FATBUFBLOCKS ≤ fs.fatlength

/-- Where `get_vfatname` has the end of the cluster. -/
def FsData.slotLimit (fs : FsData) (curclust : Nat) : Nat := fs.sectSize * if curclust = 0 then PREFETCH_BLOCKS else fs.clustSize

/-- Slots from one on have the numbers from `n` down. -/
def Numbered (mem : Nat → UInt8) (slot n count : Nat) : Prop := ∀ i < count, slotNumber mem (slot + i) = n - i

/-- The slots from one on have the right numbers up to the end of the cluster, and `get_vfatname` goes to the next one. -/
def FsData.Crosses (fs : FsData) (curclust : Nat) (block : Nat → UInt8) (dent : Nat) : Prop :=
  curclust ≠ 0 ∧ slotNumber block dent ≤ VFAT_MAXSEQ ∧ ∃ k ≤ slotNumber block dent, Numbered block dent (slotNumber block dent) k ∧
    (∀ i < k, DIRENT_SIZE * (dent + i) < fs.slotLimit curclust) ∧ fs.slotLimit curclust ≤ DIRENT_SIZE * (dent + k)

/-- The characters of a field. -/
def fieldChars (mem : Nat → UInt8) (a n : Nat) : List UInt8 := (List.range n).map fun j => mem (a + 2 * j)

/-- The characters of a slot. -/
def slotChars (mem : Nat → UInt8) (slot : Nat) : List UInt8 :=
  let a := DIRENT_SIZE * slot
  fieldChars mem (a + NAME0_4) 5 ++ fieldChars mem (a + NAME5_10) 6 ++ fieldChars mem (a + NAME11_12) 2

/-- What a slot has of a name. -/
def slotText (mem : Nat → UInt8) (slot : Nat) : List UInt8 := (slotChars mem slot).takeWhile (· ≠ 0)

/-- A name goes back to this slot and not further: there is a NUL in the slot, or it has the mark of the last one. -/
def EndsAt (mem : Nat → UInt8) (slot : Nat) : Prop := 0 ∈ slotChars mem slot ∨ mem (DIRENT_SIZE * slot) &&& LAST_LONG_ENTRY_MASK ≠ 0

/-- The slots in front of one have an end of the name, and what there is of it up to there fits behind `len` characters. -/
def WalksBack (mem : Nat → UInt8) (slot len : Nat) : Prop :=
  ∃ k < slot, EndsAt mem (slot - 1 - k) ∧ (∀ j < k, ¬EndsAt mem (slot - 1 - j)) ∧
    len + 13 * k + (slotText mem (slot - 1 - k)).length < VFAT_MAXLEN_BYTES

/-- How much of a name some slots have. -/
def slotsLength (mem : Nat → UInt8) (n : Nat) : Nat := ((List.range n).map fun i => (slotText mem i).length).sum

/-- What keeps `get_vfatname` in the buffers: the FAT entry of the cluster is one of the FAT where the name goes on in the next cluster; a slot
with the number 0 has slots in front of it in which the name ends; and in clusters without a sector, a slot that is read again where the next
cluster should be. -/
structure NameInside (disk : Nat → UInt8) (fs : FsData) (curclust dent : Nat) (st : DirBufs) : Prop where
  crosses : fs.Crosses curclust st.block dent → fs.InReach curclust
  numbered : slotNumber st.block dent = 0 → DIRENT_SIZE * dent < fs.slotLimit curclust → WalksBack st.block dent 0
  flat : curclust ≠ 0 → fs.clustSize = 0 → slotNumber st.block dent ≤ VFAT_MAXSEQ →
    checkClust (getFatent disk fs st.fb curclust).1 fs.fatsize = false →
    Numbered st.contents 0 (slotNumber st.block dent) (slotNumber st.block dent) →
    WalksBack st.block dent (slotsLength st.contents (slotNumber st.block dent))

/-- The FAT buffer holds no piece, or one that begins in the FAT. -/
def FsData.Loaded (fs : FsData) (fb : FatBuf) : Prop := fb.num = 2 ^ 32 - 1 ∨ fb.num * FATBUFBLOCKS ≤ fs.fatlength

namespace FatInside

variable {disk : Nat → UInt8} {fs : FsData}
variable {entry slot : Nat} {fb : FatBuf} {name : List UInt8} {mem : Nat → UInt8}

/-! ## The FAT buffer -/

theorem bufEntries_ge (hsize : fs.sectSize = 512) : 768 ≤ fs.bufEntries := by
  unfold FsData.bufEntries FsData.fatBufSize
  rw [hsize]
  cases fs.fatsize <;> decide

/-- What is loaded for an entry fits just if its piece begins in the FAT. -/
theorem getsize_le_iff (hsize : fs.sectSize = 512) (hlen : fs.fatlength < 2 ^ 32) (hentry : entry < 2 ^ 32) :
    fs.getsize (entry / fs.bufEntries) ≤ FATBUFBLOCKS ↔ fs.InReach entry := by
  have hnum : entry / fs.bufEntries < 2 ^ 23 := by
    have hle : entry / fs.bufEntries ≤ entry / 768 := Nat.div_le_div_left (bufEntries_ge hsize) (by decide)
    omega
  unfold FsData.getsize FsData.InReach FATBUFBLOCKS
  generalize entry / fs.bufEntries = num at hnum
  split
  next hlt =>
    by_cases hle : num * 6 ≤ fs.fatlength
    · rw [sub32_of_le hle hlen]
      omega
    · refine ⟨fun h => ?_, fun h => absurd h hle⟩
      unfold sub32 at h
      omega
  next => omega

theorem bufEntryEnd_le (hsize : fs.sectSize = 512) (entry : Nat) :
    fs.bufEntryEnd (entry - entry / fs.bufEntries * fs.bufEntries) ≤ fs.fatBufSize := by
  have hmod : entry - entry / fs.bufEntries * fs.bufEntries = entry % fs.bufEntries := by
    rw [Nat.mod_eq_sub, Nat.mul_comm]
  have hbuf : fs.fatBufSize = 3072 := by
    rw [FsData.fatBufSize, hsize]
    rfl
  rw [hmod, hbuf]
  unfold FsData.bufEntries FsData.bufEntryEnd
  rw [hbuf]
  cases fs.fatsize with
  | fat32 => exact show 4 * (entry % 768) + 4 ≤ 3072 by omega
  | fat16 => exact show 2 * (entry % 1536) + 2 ≤ 3072 by omega
  | fat12 =>
    have hpair : ∀ e < 2048, 2 * (e * 3 / 4 + if e % 4 = 1 ∨ e % 4 = 2 then 1 else 0) + 2 ≤ 3072 := by
      intro e he
      split <;> omega
    exact hpair _ (Nat.mod_lt entry (by decide))

/-- `get_fatent` stays in the FAT buffer just if the piece of the entry begins in the FAT. -/
theorem getFatentIn_eq (disk : Nat → UInt8) (hsize : fs.sectSize = 512) (hlen : fs.fatlength < 2 ^ 32) (hfb : fs.Loaded fb)
    (hentry : entry < 2 ^ 32) :
    (fs.InReach entry → getFatentIn disk fs fb entry = some (getFatent disk fs fb entry)) ∧
      (¬fs.InReach entry → getFatentIn disk fs fb entry = none) := by
  have hfits := getsize_le_iff hsize hlen hentry
  unfold getFatentIn
  simp only [if_neg (Nat.not_lt.2 (bufEntryEnd_le hsize entry))]
  constructor
  · intro h
    rw [if_neg fun hne => absurd (hfits.2 h) (Nat.not_le.2 hne.2)]
  · intro h
    refine if_pos ⟨?_, Nat.not_le.1 fun hle => h (hfits.1 hle)⟩
    intro hnum
    rw [FsData.InReach, hnum] at h
    rcases hfb with hnew | hin
    · have hle : entry / fs.bufEntries ≤ entry / 768 := Nat.div_le_div_left (bufEntries_ge hsize) (by decide)
      omega
    · exact h hin

theorem getFatentIn_isSome_iff (disk : Nat → UInt8) (hsize : fs.sectSize = 512) (hlen : fs.fatlength < 2 ^ 32) (hfb : fs.Loaded fb)
    (hentry : entry < 2 ^ 32) : (getFatentIn disk fs fb entry).isSome ↔ fs.InReach entry := by
  obtain ⟨hin, hout⟩ := getFatentIn_eq disk hsize hlen hfb hentry
  by_cases hreach : fs.InReach entry
  · rw [hin hreach]
    exact iff_of_true rfl hreach
  · rw [hout hreach]
    exact iff_of_false Bool.false_ne_true hreach

theorem fat2cpu16_lt (buf : Nat → UInt8) (i : Nat) : fat2cpu16 buf i < 2 ^ 16 := by
  have h1 := (buf (2 * i)).toNat_lt
  have h2 := (buf (2 * i + 1)).toNat_lt
  unfold fat2cpu16
  omega

theorem bufEntry_lt (fs : FsData) (buf : Nat → UInt8) (offset : Nat) : fs.bufEntry buf offset < 2 ^ 32 := by
  have hhigh (x m k : Nat) (hm : m < 2 ^ 16) : (x &&& m) >>> k < 2 ^ 32 := by
    rw [Nat.shiftRight_eq_div_pow]
    exact Nat.lt_of_le_of_lt (Nat.div_le_self _ _) (Nat.lt_of_le_of_lt Nat.and_le_right (Nat.lt_trans hm (by decide)))
  have hlow (x m k : Nat) (hm : m < 2 ^ 8) (hk : k ≤ 8) : (x &&& m) <<< k < 2 ^ 32 := by
    rw [Nat.shiftLeft_eq]
    have hle := Nat.mul_le_mul (Nat.and_le_right (n := x) (m := m)) (Nat.pow_le_pow_right Nat.two_pos hk)
    exact Nat.lt_of_le_of_lt hle (by omega)
  unfold FsData.bufEntry
  split
  · have h0 := (buf (4 * offset)).toNat_lt
    have h1 := (buf (4 * offset + 1)).toNat_lt
    have h2 := (buf (4 * offset + 2)).toNat_lt
    have h3 := (buf (4 * offset + 3)).toNat_lt
    unfold fat2cpu32
    omega
  · exact Nat.lt_trans (fat2cpu16_lt buf offset) (by decide)
  · simp only
    split
    · exact Nat.lt_of_le_of_lt Nat.and_le_right (by decide)
    · exact Nat.or_lt_two_pow (hlow _ _ _ (by decide) (by decide)) (hhigh _ _ _ (by decide))
    · exact Nat.or_lt_two_pow (hlow _ _ _ (by decide) (by decide)) (hhigh _ _ _ (by decide))
    · exact hhigh _ _ _ (by decide)

theorem start_lt (fs : FsData) (dent : DirEntry) : fs.start dent < 2 ^ 32 := by
  have h0 := dent.start.toNat_lt
  have h1 := dent.starthi.toNat_lt
  unfold FsData.start
  split <;> omega

theorem sub32_lt (a b : Nat) : sub32 a b < 2 ^ 32 := Nat.mod_lt _ (by decide)

theorem getFatentIn_spec {fb' : FatBuf} {clust : Nat} (hsize : fs.sectSize = 512) (hlen : fs.fatlength < 2 ^ 32)
    (hfb : fs.Loaded fb) (hentry : entry < 2 ^ 32) (h : getFatentIn disk fs fb entry = some (clust, fb')) :
    clust < 2 ^ 32 ∧ fs.Loaded fb' ∧ getFatent disk fs fb entry = (clust, fb') := by
  obtain ⟨hin, hout⟩ := getFatentIn_eq disk hsize hlen hfb hentry
  by_cases hreach : fs.InReach entry
  · have hget := Option.some.inj ((hin hreach).symm.trans h)
    unfold getFatent at hget
    obtain ⟨rfl, rfl⟩ := Prod.mk.inj hget
    refine ⟨bufEntry_lt _ _ _, ?_, rfl⟩
    split
    · exact Or.inr hreach
    · exact hfb
  · rw [hout hreach] at h
    cases h

/-! ## The characters of a slot -/

theorem fieldChars_succ (mem : Nat → UInt8) (a n : Nat) : fieldChars mem a (n + 1) = mem a :: fieldChars mem (a + 2) n := by
  have hshift (j : Nat) : a + 2 * (j + 1) = a + 2 + 2 * j := by omega
  simp [fieldChars, List.range_succ_eq_map, hshift]

theorem fieldChars_length (mem : Nat → UInt8) (a n : Nat) : (fieldChars mem a n).length = n := by
  rw [fieldChars, List.length_map, List.length_range]

/-- A loop over a field takes the characters in front of a NUL, and has no result just if `l_name` ends first. -/
theorem takeField_eq (mem : Nat → UInt8) (n a : Nat) (hname : name.length ≤ VFAT_MAXLEN_BYTES) :
    takeField mem n a name =
      if name.length + min n (((fieldChars mem a n).takeWhile (· ≠ 0)).length + 1) ≤ VFAT_MAXLEN_BYTES then
        some (name ++ (fieldChars mem a n).takeWhile (· ≠ 0), decide (((fieldChars mem a n).takeWhile (· ≠ 0)).length < n))
      else none := by
  induction n generalizing a name with
  | zero =>
    rw [if_pos (by omega)]
    simp [takeField, fieldChars]
  | succ n ih =>
    rw [takeField, fieldChars_succ]
    by_cases hroom : VFAT_MAXLEN_BYTES ≤ name.length
    · rw [if_pos hroom, if_neg (by omega)]
    · rw [if_neg hroom]
      by_cases hzero : mem a = 0
      · rw [if_pos hzero, List.takeWhile_cons_of_neg (by simp [hzero]), if_pos (by rw [List.length_nil]; omega)]
        simp
      · have hlen : (name ++ [mem a]).length = name.length + 1 := by rw [List.length_append, List.length_singleton]
        rw [if_neg hzero, List.takeWhile_cons_of_pos (by simp [hzero]), ih (a + 2) (by omega), hlen, List.length_cons, List.append_assoc,
          List.singleton_append]
        simp only [Nat.add_lt_add_iff_right]
        refine if_congr ?_ rfl rfl
        omega

theorem slotChars_length (mem : Nat → UInt8) (slot : Nat) : (slotChars mem slot).length = 13 := by
  simp [slotChars, fieldChars_length]

theorem slotText_length_le (mem : Nat → UInt8) (slot : Nat) : (slotText mem slot).length ≤ 13 :=
  slotChars_length mem slot ▸ (List.takeWhile_prefix _).length_le

theorem zero_mem_slotChars (mem : Nat → UInt8) (slot : Nat) : 0 ∈ slotChars mem slot ↔ (slotText mem slot).length < 13 := by
  have hlen := slotChars_length mem slot
  constructor
  · intro hzero
    refine Nat.lt_of_le_of_ne (slotText_length_le mem slot) fun h13 => ?_
    have hself := (List.takeWhile_prefix (fun c => decide (c ≠ 0)) (l := slotChars mem slot)).eq_of_length (h13.trans hlen.symm)
    have hne := List.takeWhile_eq_self_iff.1 hself 0 hzero
    exact absurd hne (by decide)
  · intro hlt
    by_contra hzero
    have hself := List.takeWhile_eq_self_iff.2 fun c hc => decide_eq_true (p := c ≠ 0) fun h0 => hzero (h0 ▸ hc)
    rw [slotText, hself, hlen] at hlt
    omega

theorem takeWhile_fields (xs ys : List UInt8) : (xs ++ ys).takeWhile (· ≠ 0) =
    if (xs.takeWhile (· ≠ 0)).length < xs.length then xs.takeWhile (· ≠ 0) else xs.takeWhile (· ≠ 0) ++ ys.takeWhile (· ≠ 0) := by
  have hprefix := List.takeWhile_prefix (fun c => decide (c ≠ 0)) (l := xs)
  rw [List.takeWhile_append]
  by_cases hall : (xs.takeWhile (· ≠ 0)).length = xs.length
  · rw [if_pos hall, if_neg (by omega), hprefix.eq_of_length hall]
  · rw [if_neg hall, if_pos (Nat.lt_of_le_of_ne hprefix.length_le hall)]

/-- `slot2str` takes the text of a slot, and has no result just if `l_name` ends first. -/
theorem slot2str_eq (mem : Nat → UInt8) (slot : Nat) (hname : name.length ≤ VFAT_MAXLEN_BYTES) :
    slot2str mem (DIRENT_SIZE * slot) name =
      if name.length + min 13 ((slotText mem slot).length + 1) ≤ VFAT_MAXLEN_BYTES then
        some (name ++ slotText mem slot, decide ((slotText mem slot).length < 13))
      else none := by
  have h1 := fieldChars_length mem (DIRENT_SIZE * slot + NAME0_4) 5
  have h2 := fieldChars_length mem (DIRENT_SIZE * slot + NAME5_10) 6
  have h3 := fieldChars_length mem (DIRENT_SIZE * slot + NAME11_12) 2
  have hle1 := (List.takeWhile_prefix (fun c => decide (c ≠ 0)) (l := fieldChars mem (DIRENT_SIZE * slot + NAME0_4) 5)).length_le
  have hle2 := (List.takeWhile_prefix (fun c => decide (c ≠ 0)) (l := fieldChars mem (DIRENT_SIZE * slot + NAME5_10) 6)).length_le
  have hle3 := (List.takeWhile_prefix (fun c => decide (c ≠ 0)) (l := fieldChars mem (DIRENT_SIZE * slot + NAME11_12) 2)).length_le
  unfold slot2str slotText slotChars
  simp only [List.append_assoc, takeWhile_fields, takeField_eq mem 5 _ hname]
  rw [h1] at hle1 ⊢
  rw [h2] at hle2 ⊢
  rw [h3] at hle3
  generalize ht1 : (fieldChars mem (DIRENT_SIZE * slot + NAME0_4) 5).takeWhile (fun c => decide (c ≠ 0)) = t1 at *
  generalize ht2 : (fieldChars mem (DIRENT_SIZE * slot + NAME5_10) 6).takeWhile (fun c => decide (c ≠ 0)) = t2 at *
  generalize ht3 : (fieldChars mem (DIRENT_SIZE * slot + NAME11_12) 2).takeWhile (fun c => decide (c ≠ 0)) = t3 at *
  by_cases hlt1 : t1.length < 5
  · rw [if_pos hlt1]
    by_cases hroom : name.length + min 5 (t1.length + 1) ≤ VFAT_MAXLEN_BYTES
    · rw [if_pos hroom, if_pos (by omega), decide_eq_true hlt1, decide_eq_true (show t1.length < 13 by omega)]
    · rw [if_neg hroom, if_neg (by omega)]
  · have hlen1 : (name ++ t1).length = name.length + 5 := by
      rw [List.length_append]
      omega
    rw [if_neg hlt1]
    by_cases hroom1 : name.length + min 5 (t1.length + 1) ≤ VFAT_MAXLEN_BYTES
    · rw [if_pos hroom1, decide_eq_false hlt1]
      simp only [takeField_eq mem 6 _ (show (name ++ t1).length ≤ VFAT_MAXLEN_BYTES by omega), ht2, hlen1]
      by_cases hlt2 : t2.length < 6
      · rw [if_pos hlt2]
        by_cases hroom2 : name.length + 5 + min 6 (t2.length + 1) ≤ VFAT_MAXLEN_BYTES
        · rw [if_pos hroom2, if_pos (by rw [List.length_append]; omega), decide_eq_true hlt2,
            decide_eq_true (show (t1 ++ t2).length < 13 by rw [List.length_append]; omega), List.append_assoc]
        · rw [if_neg hroom2, if_neg (by rw [List.length_append]; omega)]
      · have hlen2 : (name ++ t1 ++ t2).length = name.length + 11 := by
          rw [List.length_append]
          omega
        rw [if_neg hlt2]
        by_cases hroom2 : name.length + 5 + min 6 (t2.length + 1) ≤ VFAT_MAXLEN_BYTES
        · rw [if_pos hroom2, decide_eq_false hlt2]
          simp only [takeField_eq mem 2 _ (show (name ++ t1 ++ t2).length ≤ VFAT_MAXLEN_BYTES by omega), ht3, hlen2]
          rw [List.append_assoc, List.append_assoc, List.length_append, List.length_append]
          refine if_congr (by omega) ?_ rfl
          rw [decide_eq_decide.2 (show t3.length < 2 ↔ t1.length + (t2.length + t3.length) < 13 by omega)]
        · rw [if_neg hroom2, if_neg (by rw [List.length_append, List.length_append]; omega)]
    · rw [if_neg hroom1, if_neg (by rw [List.length_append]; omega)]

/-! ## Names -/

theorem slot2str_of_endsAt (hname : name.length ≤ VFAT_MAXLEN_BYTES) :
    slot2str mem (DIRENT_SIZE * slot) name =
      if name.length + min 13 ((slotText mem slot).length + 1) ≤ VFAT_MAXLEN_BYTES then
        some (name ++ slotText mem slot, decide (0 ∈ slotChars mem slot))
      else none := by
  rw [slot2str_eq mem slot hname, decide_eq_decide.2 (zero_mem_slotChars mem slot)]

/-- The way back over slots ends, with room for the name, just if it has an end there. -/
theorem nameBack_iff (mem : Nat → UInt8) (slot : Nat) (hname : name.length ≤ VFAT_MAXLEN_BYTES) :
    (∃ name', nameBack mem slot name = some name' ∧ name'.length < VFAT_MAXLEN_BYTES) ↔ WalksBack mem slot name.length := by
  induction slot generalizing name with
  | zero =>
    constructor
    · rintro ⟨name', h, -⟩
      cases h
    · rintro ⟨k, hk, -⟩
      exact absurd hk (Nat.not_lt_zero k)
  | succ slot ih =>
    have htext := slotText_length_le mem slot
    rw [nameBack]
    by_cases hends : EndsAt mem slot
    · have hwalk : WalksBack mem (slot + 1) name.length ↔ name.length + (slotText mem slot).length < VFAT_MAXLEN_BYTES := by
        constructor
        · rintro ⟨k, hk, -, hno, hroom⟩
          cases k with
          | zero => exact hroom
          | succ k => exact absurd hends (hno 0 (Nat.succ_pos k))
        · exact fun hroom => ⟨0, Nat.succ_pos slot, hends, fun j hj => absurd hj (Nat.not_lt_zero j), hroom⟩
      rw [hwalk, slot2str_of_endsAt hname]
      by_cases hroom : name.length + min 13 ((slotText mem slot).length + 1) ≤ VFAT_MAXLEN_BYTES
      · rw [if_pos hroom]
        simp only [decide_eq_true_eq]
        rw [if_pos (show 0 ∈ slotChars mem slot ∨ mem (DIRENT_SIZE * slot) &&& LAST_LONG_ENTRY_MASK ≠ 0 from hends)]
        constructor
        · rintro ⟨name', h, hlt⟩
          obtain rfl := Option.some.inj h
          rwa [List.length_append] at hlt
        · exact fun hlt => ⟨_, rfl, by rwa [List.length_append]⟩
      · rw [if_neg hroom]
        constructor
        · rintro ⟨name', h, -⟩
          cases h
        · intro hlt
          omega
    · have hfull : (slotText mem slot).length = 13 := by
        have hno : ¬(slotText mem slot).length < 13 := fun hlt => hends (Or.inl ((zero_mem_slotChars mem slot).2 hlt))
        omega
      have hwalk : WalksBack mem (slot + 1) name.length ↔ WalksBack mem slot (name.length + 13) := by
        constructor
        · rintro ⟨k, hk, hend, hno, hroom⟩
          cases k with
          | zero => exact absurd hend hends
          | succ k =>
            have hshift (j : Nat) : slot + 1 - 1 - (j + 1) = slot - 1 - j := by omega
            rw [hshift] at hend hroom
            exact ⟨k, by omega, hend, fun j hj => hshift j ▸ hno (j + 1) (by omega), by omega⟩
        · rintro ⟨k, hk, hend, hno, hroom⟩
          have hshift (j : Nat) : slot + 1 - 1 - (j + 1) = slot - 1 - j := by omega
          refine ⟨k + 1, by omega, (hshift k).symm ▸ hend, ?_, by rw [hshift]; omega⟩
          intro j hj
          cases j with
          | zero => exact hends
          | succ j => exact (hshift j).symm ▸ hno j (by omega)
      rw [hwalk, slot2str_of_endsAt hname]
      by_cases hroom : name.length + min 13 ((slotText mem slot).length + 1) ≤ VFAT_MAXLEN_BYTES
      · have hlen : (name ++ slotText mem slot).length = name.length + 13 := by rw [List.length_append, hfull]
        rw [if_pos hroom]
        simp only [decide_eq_true_eq]
        rw [if_neg (show ¬(0 ∈ slotChars mem slot ∨ mem (DIRENT_SIZE * slot) &&& LAST_LONG_ENTRY_MASK ≠ 0) from hends), ih (by omega), hlen]
      · rw [if_neg hroom]
        constructor
        · rintro ⟨name', h, -⟩
          cases h
        · rintro ⟨k, -, -, -, hlt⟩
          omega

theorem walksBack_of_mark {dent : Nat} (hlast : mem (DIRENT_SIZE * dent) &&& LAST_LONG_ENTRY_MASK ≠ 0) {len : Nat}
    (hlt : dent < slot) (h : len + 13 * (slot - dent) < VFAT_MAXLEN_BYTES) : WalksBack mem slot len := by
  classical
  have hex : ∃ k, EndsAt mem (slot - 1 - k) := ⟨slot - 1 - dent, by rw [show slot - 1 - (slot - 1 - dent) = dent by omega]; exact Or.inr hlast⟩
  have hmin : Nat.find hex ≤ slot - 1 - dent :=
    Nat.find_min' hex (by rw [show slot - 1 - (slot - 1 - dent) = dent by omega]; exact Or.inr hlast)
  have htext := slotText_length_le mem (slot - 1 - Nat.find hex)
  exact ⟨Nat.find hex, by omega, Nat.find_spec hex, fun j hj => Nat.find_min hex hj, by omega⟩

theorem slotsLength_succ (mem : Nat → UInt8) (n : Nat) : slotsLength mem (n + 1) = slotsLength mem n + (slotText mem n).length := by
  simp [slotsLength, List.range_succ]

theorem slotsBack_eq (mem : Nat → UInt8) (n : Nat) (name : List UInt8) (h : name.length + 13 * n ≤ VFAT_MAXLEN_BYTES) :
    ∃ name', slotsBack mem n name = some name' ∧ name'.length = name.length + slotsLength mem n := by
  induction n generalizing name with
  | zero => exact ⟨name, rfl, rfl⟩
  | succ n ih =>
    have htext := slotText_length_le mem n
    have hsum := slotsLength_succ mem n
    obtain ⟨name', hback, hlen⟩ := ih (name ++ slotText mem n) (by rw [List.length_append]; omega)
    refine ⟨name', ?_, ?_⟩
    · rw [slotsBack, slot2str_eq mem n (by omega), if_pos (by omega)]
      exact hback
    · rw [hlen, List.length_append]
      omega

theorem numbered_succ {n k : Nat} :
    Numbered mem slot (n + 1) (k + 1) ↔ slotNumber mem slot = n + 1 ∧ Numbered mem (slot + 1) n k := by
  have hshift (i : Nat) : slot + (i + 1) = slot + 1 + i := by omega
  constructor
  · intro h
    refine ⟨h 0 (Nat.succ_pos k), fun i hi => ?_⟩
    rw [← hshift, h (i + 1) (Nat.succ_lt_succ hi), Nat.add_sub_add_right]
  · rintro ⟨h0, h⟩ i hi
    cases i with
    | zero => exact h0
    | succ i => rw [hshift, h i (Nat.lt_of_succ_lt_succ hi), Nat.add_sub_add_right]

/-- Where the loop over the numbers of slots comes to. -/
theorem countSlots_eq_some {inside : Nat → Bool} {n left slot' : Nat} :
    countSlots mem inside n slot = some (left, slot') ↔ ∃ k ≤ n, slot' = slot + k ∧ left = n - k ∧ Numbered mem slot n k ∧
      (∀ i < k, inside (slot + i) = true) ∧ (k < n → inside (slot + k) = false) := by
  induction n generalizing slot with
  | zero =>
    constructor
    · intro h
      cases h
      exact ⟨0, Nat.le_refl 0, rfl, rfl, fun i hi => absurd hi (Nat.not_lt_zero i), fun i hi => absurd hi (Nat.not_lt_zero i),
        fun h => absurd h (Nat.lt_irrefl 0)⟩
    · rintro ⟨k, hk, rfl, rfl, -⟩
      obtain rfl := Nat.le_zero.1 hk
      rfl
  | succ n ih =>
    have hshift (i : Nat) : slot + (i + 1) = slot + 1 + i := by omega
    rw [countSlots]
    by_cases hin : inside slot = true
    · rw [if_pos hin]
      by_cases hnum : slotNumber mem slot = n + 1
      · rw [if_pos hnum, ih]
        constructor
        · rintro ⟨k, hk, hslot, hleft, hnumbered, hins, hout⟩
          refine ⟨k + 1, by omega, by omega, by omega, numbered_succ.2 ⟨hnum, hnumbered⟩, ?_, fun h => hshift k ▸ hout (by omega)⟩
          intro i hi
          cases i with
          | zero => exact hin
          | succ i => exact hshift i ▸ hins i (by omega)
        · rintro ⟨k, hk, hslot, hleft, hnumbered, hins, hout⟩
          cases k with
          | zero => exact absurd (hin.symm.trans (hout (Nat.succ_pos n))) (by decide)
          | succ k =>
            exact ⟨k, by omega, by omega, by omega, (numbered_succ.1 hnumbered).2, fun i hi => hshift i ▸ hins (i + 1) (by omega),
              fun h => hshift k ▸ hout (by omega)⟩
      · rw [if_neg hnum]
        constructor
        · intro h
          cases h
        · rintro ⟨k, -, -, -, hnumbered, -, hout⟩
          cases k with
          | zero => exact absurd (hin.symm.trans (hout (Nat.succ_pos n))) (by decide)
          | succ k => exact absurd (numbered_succ.1 hnumbered).1 hnum
    · rw [if_neg hin]
      constructor
      · intro h
        cases h
        exact ⟨0, Nat.zero_le _, rfl, rfl, fun i hi => absurd hi (Nat.not_lt_zero i), fun i hi => absurd hi (Nat.not_lt_zero i),
          fun _ => Bool.eq_false_iff.2 hin⟩
      · rintro ⟨k, -, rfl, rfl, -, hins, -⟩
        cases k with
        | zero => rfl
        | succ k => exact absurd (hins 0 (Nat.succ_pos k)) hin

/-- The end of `get_vfatname` stays in the buffers just if the way back ends. -/
theorem endVfatname_isSome_iff {st : DirBufs} {retdent : Nat} {realdent : List UInt8} (hname : name.length ≤ VFAT_MAXLEN_BYTES) :
    (endVfatname st retdent slot realdent name).isSome ↔ WalksBack st.block slot name.length := by
  rw [← nameBack_iff st.block slot hname, endVfatname]
  cases hback : nameBack st.block slot name with
  | none => simp
  | some name' =>
    simp only [Option.some.injEq, exists_eq_left']
    split
    next hlong => simp [Nat.not_lt.2 hlong]
    next hshort => simp [Nat.lt_of_not_le hshort]

theorem slotLimit_flat {curclust : Nat} (hcur : curclust ≠ 0) (hflat : fs.clustSize = 0) : fs.slotLimit curclust = 0 := by
  rw [FsData.slotLimit, if_neg hcur, hflat, Nat.mul_zero]

/-- In clusters without a sector no slot is in front of the end of the cluster. -/
theorem eq_zero_of_flat {curclust dent k : Nat} (hcur : curclust ≠ 0) (hflat : fs.clustSize = 0)
    (hins : ∀ i < k, DIRENT_SIZE * (dent + i) < fs.slotLimit curclust) : k = 0 := by
  refine Nat.eq_zero_of_not_pos fun hpos => ?_
  rw [slotLimit_flat hcur hflat] at hins
  exact absurd (hins 0 hpos) (Nat.not_lt_zero _)

theorem getCluster_flat (hsize : fs.sectSize = 512) (hflat : fs.clustSize = 0) (clustnum : Nat) (mem : Nat → UInt8) :
    getCluster disk fs clustnum 0 fs.bytesPerClust mem = mem := by
  rw [FsData.bytesPerClust, hflat, Nat.zero_mul, FatAux.getCluster_eq (by rw [hsize]; decide)]
  exact Lib.store_nil mem 0

section Name

variable {curclust dent : Nat} {st : DirBufs}

/-- Where the name goes on in the cluster. -/
theorem endVfatname_here_iff (hlast : st.block (DIRENT_SIZE * dent) &&& LAST_LONG_ENTRY_MASK ≠ 0)
    (hmax : slotNumber st.block dent ≤ VFAT_MAXSEQ) (hhere : DIRENT_SIZE * (dent + slotNumber st.block dent) < fs.slotLimit curclust)
    (realdent : List UInt8) :
    (endVfatname st dent (dent + slotNumber st.block dent) realdent []).isSome ↔ NameInside disk fs curclust dent st := by
  have hflat (hcur : curclust ≠ 0) : fs.clustSize ≠ 0 := by
    intro hflat
    rw [slotLimit_flat hcur hflat] at hhere
    exact absurd hhere (Nat.not_lt_zero _)
  have hcrosses : ¬fs.Crosses curclust st.block dent := by
    rintro ⟨-, -, k, hk, -, -, hlimit⟩
    unfold DIRENT_SIZE at *
    omega
  rw [endVfatname_isSome_iff (Nat.zero_le _), List.length_nil]
  by_cases hzero : slotNumber st.block dent = 0
  · rw [hzero, Nat.add_zero] at hhere ⊢
    exact ⟨fun hwalk => ⟨fun h => absurd h hcrosses, fun _ _ => hwalk, fun hcur h => absurd h (hflat hcur)⟩, fun h => h.numbered hzero hhere⟩
  · have hwalk : WalksBack st.block (dent + slotNumber st.block dent) 0 :=
      walksBack_of_mark hlast (by omega) (by unfold VFAT_MAXSEQ VFAT_MAXLEN_BYTES at *; omega)
    exact iff_of_true hwalk ⟨fun h => absurd h hcrosses, fun h => absurd h hzero, fun hcur h => absurd h (hflat hcur)⟩

theorem slotsLength_le (mem : Nat → UInt8) (n : Nat) : slotsLength mem n ≤ 13 * n := by
  induction n with
  | zero => exact Nat.le_refl _
  | succ n ih =>
    have htext := slotText_length_le mem n
    rw [slotsLength_succ]
    omega

/-- Where it goes on in the next cluster. -/
theorem walksBack_next_iff (hlast : st.block (DIRENT_SIZE * dent) &&& LAST_LONG_ENTRY_MASK ≠ 0)
    (hmax : slotNumber st.block dent ≤ VFAT_MAXSEQ) (hin : fs.clustSize ≠ 0 → DIRENT_SIZE * dent < fs.slotLimit curclust)
    (hcur : curclust ≠ 0) (hreach : fs.InReach curclust) (hcheck : checkClust (getFatent disk fs st.fb curclust).1 fs.fatsize = false)
    {k : Nat} (hk : k ≤ slotNumber st.block dent) (hins : ∀ i < k, DIRENT_SIZE * (dent + i) < fs.slotLimit curclust)
    (hlimit : fs.slotLimit curclust ≤ DIRENT_SIZE * (dent + k)) {contents : Nat → UInt8} (hcontents : fs.clustSize = 0 → contents = st.contents)
    (hnumbered : Numbered contents 0 (slotNumber st.block dent - k) (slotNumber st.block dent - k)) :
    WalksBack st.block (dent + k) (slotsLength contents (slotNumber st.block dent - k)) ↔ NameInside disk fs curclust dent st := by
  by_cases hflat : fs.clustSize = 0
  · have hzero := slotLimit_flat hcur hflat
    have hk0 := eq_zero_of_flat hcur hflat hins
    rw [hk0, Nat.sub_zero, hcontents hflat] at hnumbered
    rw [hk0, Nat.sub_zero, Nat.add_zero, hcontents hflat]
    constructor
    · exact fun hwalk => ⟨fun _ => hreach, fun _ hlt => absurd (hzero ▸ hlt) (Nat.not_lt_zero _), fun _ _ _ _ _ => hwalk⟩
    · exact fun h => h.flat hcur hflat hmax hcheck hnumbered
  · have hlt := hin hflat
    have hpos : 0 < k := by
      refine Nat.pos_of_ne_zero fun hk0 => ?_
      rw [hk0, Nat.add_zero] at hlimit
      omega
    have hwalk : WalksBack st.block (dent + k) (slotsLength contents (slotNumber st.block dent - k)) := by
      have htext := slotsLength_le contents (slotNumber st.block dent - k)
      refine walksBack_of_mark hlast (by omega) ?_
      unfold VFAT_MAXSEQ VFAT_MAXLEN_BYTES at *
      omega
    exact iff_of_true hwalk ⟨fun _ => hreach, fun hzero => absurd hzero (by omega), fun _ h => absurd h hflat⟩

end Name

theorem getVfatname_isSome_iff (disk : Nat → UInt8) {curclust dent : Nat} {st : DirBufs} (hsize : fs.sectSize = 512) (hlen : fs.fatlength < 2 ^ 32)
    (hfb : fs.Loaded st.fb) (hcur : curclust < 2 ^ 32) (hfit : curclust ≠ 0 → fs.bytesPerClust ≤ MAX_CLUSTSIZE)
    (hlast : st.block (DIRENT_SIZE * dent) &&& LAST_LONG_ENTRY_MASK ≠ 0)
    (hin : curclust ≠ 0 → fs.clustSize ≠ 0 → DIRENT_SIZE * dent < fs.slotLimit curclust) :
    (getVfatname disk fs curclust dent st).isSome ↔ NameInside disk fs curclust dent st := by
  have hcountSlots (k : Nat) (hk : k ≤ slotNumber st.block dent) (hnumbered : Numbered st.block dent (slotNumber st.block dent) k)
      (hins : ∀ i < k, DIRENT_SIZE * (dent + i) < fs.slotLimit curclust) (hlimit : fs.slotLimit curclust ≤ DIRENT_SIZE * (dent + k)) :
      countSlots st.block (fun slot => DIRENT_SIZE * slot < fs.slotLimit curclust) (slotNumber st.block dent) dent =
        some (slotNumber st.block dent - k, dent + k) :=
    countSlots_eq_some.2 ⟨k, hk, rfl, rfl, hnumbered, fun i hi => decide_eq_true (hins i hi), fun _ => decide_eq_false (Nat.not_lt.2 hlimit)⟩
  unfold getVfatname
  change (if VFAT_MAXSEQ < slotNumber st.block dent then _ else _ : Option (Option (List UInt8) × DirBufs)).isSome ↔ _
  split
  next hmax =>
    refine iff_of_true rfl ⟨?_, ?_, ?_⟩
    · exact fun h => absurd h.2.1 (Nat.not_le.2 hmax)
    · exact fun hzero => absurd hmax (by omega)
    · exact fun _ _ h => absurd h (Nat.not_le.2 hmax)
  next hmax =>
    have hmax := Nat.le_of_not_lt hmax
    split
    next hcount =>
      change countSlots st.block (fun slot => DIRENT_SIZE * slot < fs.slotLimit curclust) (slotNumber st.block dent) dent = none at hcount
      refine iff_of_true rfl ⟨?_, ?_, ?_⟩
      · rintro ⟨-, -, k, hk, hnumbered, hins, hlimit⟩
        cases hcount.symm.trans (hcountSlots k hk hnumbered hins hlimit)
      · intro hzero
        rw [hzero] at hcount
        cases hcount
      · intro hne hflat
        have hlimit : fs.slotLimit curclust ≤ DIRENT_SIZE * (dent + 0) := by
          rw [slotLimit_flat hne hflat]
          exact Nat.zero_le _
        cases hcount.symm.trans (hcountSlots 0 (Nat.zero_le _) (fun i hi => absurd hi (Nat.not_lt_zero i))
          (fun i hi => absurd hi (Nat.not_lt_zero i)) hlimit)
    next left slot hcount =>
      change countSlots st.block (fun slot => DIRENT_SIZE * slot < fs.slotLimit curclust) (slotNumber st.block dent) dent = some (left, slot)
        at hcount
      obtain ⟨k, hk, rfl, rfl, hnumbered, hins, hout⟩ := countSlots_eq_some.1 hcount
      have hins : ∀ i < k, DIRENT_SIZE * (dent + i) < fs.slotLimit curclust := fun i hi => of_decide_eq_true (hins i hi)
      change (if fs.slotLimit curclust ≤ DIRENT_SIZE * (dent + k) then _ else _ : Option (Option (List UInt8) × DirBufs)).isSome ↔ _
      split
      next hlimit =>
        split
        next hzero =>
          refine iff_of_true rfl ⟨fun h => absurd hzero h.1, fun h hlt => ?_, fun hne => absurd hzero hne⟩
          rw [h] at hk
          obtain rfl := Nat.le_zero.1 hk
          exact absurd hlt (Nat.not_lt.2 hlimit)
        next hne =>
          have hno : slotNumber st.block dent = 0 → DIRENT_SIZE * dent < fs.slotLimit curclust → WalksBack st.block dent 0 := by
            intro h hlt
            rw [h] at hk
            obtain rfl := Nat.le_zero.1 hk
            exact absurd hlt (Nat.not_lt.2 hlimit)
          obtain ⟨hget, hwrong⟩ := getFatentIn_eq disk hsize hlen hfb hcur
          by_cases hreach : fs.InReach curclust
          · rw [hget hreach]
            simp only
            split
            next hcheck => exact iff_of_true rfl ⟨fun _ => hreach, hno, fun _ _ _ h => absurd hcheck (Bool.eq_false_iff.1 h)⟩
            next hcheck =>
              have hcheck := Bool.eq_false_iff.2 hcheck
              rw [if_neg (Nat.not_lt.2 (hfit hne))]
              generalize hcontents : getCluster disk fs (getFatent disk fs st.fb curclust).1 0 fs.bytesPerClust st.contents = contents
              have hflat (h : fs.clustSize = 0) : contents = st.contents := hcontents.symm.trans (getCluster_flat hsize h _ _)
              split
              next hcount2 =>
                refine iff_of_true rfl ⟨fun _ => hreach, hno, fun _ h _ _ hnumbered2 => ?_⟩
                rw [eq_zero_of_flat hne h hins, Nat.sub_zero, hflat h] at hcount2
                cases hcount2.symm.trans (countSlots_eq_some.2 ⟨_, Nat.le_refl _, rfl, rfl, hnumbered2, fun _ _ => rfl,
                  fun hlt => absurd hlt (Nat.lt_irrefl _)⟩)
              next c slot2 hcount2 =>
                obtain ⟨k2, hk2, rfl, -, hnumbered2, -, hout2⟩ := countSlots_eq_some.1 hcount2
                have hall : k2 = slotNumber st.block dent - k :=
                  Nat.le_antisymm hk2 (Nat.le_of_not_lt fun hlt => Bool.noConfusion (hout2 hlt))
                rw [hall] at hnumbered2 ⊢
                obtain ⟨name, hname, hnl⟩ := slotsBack_eq contents (0 + (slotNumber st.block dent - k)) []
                  (by unfold VFAT_MAXSEQ VFAT_MAXLEN_BYTES at *; rw [List.length_nil]; omega)
                have htext := slotsLength_le contents (slotNumber st.block dent - k)
                rw [List.length_nil, Nat.zero_add, Nat.zero_add] at hnl
                simp only [hname]
                rw [endVfatname_isSome_iff (by unfold VFAT_MAXSEQ VFAT_MAXLEN_BYTES at *; omega), hnl]
                exact walksBack_next_iff hlast hmax (hin hne) hne hreach hcheck hk hins hlimit hflat hnumbered2
          · rw [hwrong hreach]
            refine iff_of_false Bool.false_ne_true fun h => hreach (h.crosses ⟨hne, hmax, k, hk, hnumbered, hins, hlimit⟩)
      next hhere =>
        obtain rfl : k = slotNumber st.block dent :=
          Nat.le_antisymm hk (Nat.le_of_not_lt fun hlt => hhere (Nat.le_of_not_lt (of_decide_eq_false (hout hlt))))
        exact endVfatname_here_iff hlast hmax (Nat.lt_of_not_le hhere) _

end FatInside

end UBoot
