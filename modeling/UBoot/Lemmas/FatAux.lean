import UBoot.Fat

/-!
# The FAT buffer and the clusters

A lookup through the buffer gives the entry of the FAT, whatever the buffer was loaded with before, and `get_cluster` copies the bytes of
consecutive sectors.
-/

namespace UBoot

namespace FatAux

/-! ## Entries -/

theorem and_shiftRight (w k n : Nat) : (w &&& (2 ^ k - 1) * 2 ^ n) >>> n = w / 2 ^ n % 2 ^ k := by
  rw [Nat.shiftRight_and_distrib, Nat.shiftRight_eq_div_pow, Nat.shiftRight_eq_div_pow, Nat.mul_div_cancel _ (Nat.two_pow_pos n),
    Nat.and_two_pow_sub_one_eq_mod]

theorem shiftLeft_or {a b n : Nat} (h : b < 2 ^ n) : a <<< n ||| b = a * 2 ^ n + b := by
  rw [← Nat.shiftLeft_add_eq_or_of_lt h, Nat.shiftLeft_eq]

variable (fs : FsData)

/-- A FAT12 buffer, whose four entries lie in three 16-bit numbers. -/
theorem bufEntry_fat12 (h12 : fs.fatsize = .fat12) (buf : Nat → UInt8) (k r : Nat) (hr : r < 4) : fs.bufEntry buf (4 * k + r) =
      (if r % 2 = 0 then ((buf (6 * k + r * 3 / 2)).toNat + 256 * (buf (6 * k + r * 3 / 2 + 1)).toNat) % 4096
        else ((buf (6 * k + r * 3 / 2)).toNat + 256 * (buf (6 * k + r * 3 / 2 + 1)).toNat) / 16) := by
  have hb (i : Nat) := (buf i).toNat_lt
  have hoff : (4 * k + r) * 3 / 4 = 3 * k + r * 3 / 4 := by omega
  have hmod : (4 * k + r) % 4 = r := by omega
  rw [FsData.bufEntry, h12]
  simp only [hoff, hmod]
  have h0 := hb (6 * k)
  have h1 := hb (6 * k + 1)
  have h2 := hb (6 * k + 2)
  have h3 := hb (6 * k + 3)
  have h4 := hb (6 * k + 4)
  have h5 := hb (6 * k + 5)
  have e0 : fat2cpu16 buf (3 * k) = (buf (6 * k)).toNat + 256 * (buf (6 * k + 1)).toNat := by
    rw [fat2cpu16, ← Nat.mul_assoc]
  have e1 : fat2cpu16 buf (3 * k + 1) = (buf (6 * k + 2)).toNat + 256 * (buf (6 * k + 3)).toNat := by
    rw [fat2cpu16, Nat.mul_add, ← Nat.mul_assoc]
  have e2 : fat2cpu16 buf (3 * k + 2) = (buf (6 * k + 4)).toNat + 256 * (buf (6 * k + 5)).toNat := by
    rw [fat2cpu16, Nat.mul_add, ← Nat.mul_assoc]
  -- the numbers that the entries of one remainder come from, as bytes
  match r, hr with
  | 0, _ =>
    have hlow := Nat.and_two_pow_sub_one_eq_mod (fat2cpu16 buf (3 * k)) 12
    simpa [e0] using hlow
  | 1, _ =>
    have hlow := Nat.and_two_pow_sub_one_eq_mod (fat2cpu16 buf (3 * k + 1)) 8
    have hhigh := and_shiftRight (fat2cpu16 buf (3 * k)) 4 12
    simp only [Nat.reducePow, Nat.reduceSub, Nat.reduceMul, e0, e1] at hlow hhigh
    simp only [Nat.reduceMul, Nat.reduceDiv, Nat.reduceMod, Nat.add_zero, e0, e1, hlow, hhigh, Nat.add_assoc (6 * k), Nat.reduceAdd]
    rw [shiftLeft_or (by omega), if_neg (by decide)]
    omega
  | 2, _ =>
    have hlow := Nat.and_two_pow_sub_one_eq_mod (fat2cpu16 buf (3 * k + 2)) 4
    have hhigh := and_shiftRight (fat2cpu16 buf (3 * k + 1)) 8 8
    simp only [Nat.reducePow, Nat.reduceSub, Nat.reduceMul, e1, e2] at hlow hhigh
    simp only [Nat.reduceMul, Nat.reduceDiv, Nat.reduceMod, Nat.add_assoc (3 * k), e1, e2, hlow, hhigh, Nat.add_assoc (6 * k), Nat.reduceAdd]
    rw [shiftLeft_or (by omega), if_pos trivial]
    omega
  | 3, _ =>
    have hhigh := and_shiftRight (fat2cpu16 buf (3 * k + 2)) 12 4
    simp only [Nat.reducePow, Nat.reduceSub, Nat.reduceMul, e2] at hhigh
    simp only [Nat.reduceMul, Nat.reduceDiv, Nat.reduceMod, e2, hhigh, Nat.add_assoc (6 * k), Nat.reduceAdd]
    rw [if_neg (by decide)]
    omega

/-! ## The buffer -/

variable {fs} {disk : Nat → UInt8}

/-- The buffer holds what the FAT has at its place. -/
def BufOk (disk : Nat → UInt8) (fs : FsData) (fb : FatBuf) : Prop :=
  ∀ i < fs.fatBufSize, fb.num * fs.fatBufSize + i < fs.fatlength * fs.sectSize →
    fb.buf i = disk (fs.fatSect * fs.sectSize + (fb.num * fs.fatBufSize + i))

theorem bufOk_new (hlen : fs.fatlength < 2 ^ 32) (buf : Nat → UInt8) : BufOk disk fs ⟨2 ^ 32 - 1, buf⟩ := by
  intro i _ hlt
  have hle : fs.fatlength * fs.sectSize ≤ (2 ^ 32 - 1) * fs.fatBufSize := by
    rw [FsData.fatBufSize]
    refine Nat.mul_le_mul (by omega) ?_
    exact Nat.le_mul_of_pos_right _ (by decide)
  simp only at hlt
  omega

/-- A load fills the buffer with what the FAT has at its place. -/
theorem bufOk_load (fb : FatBuf) {bufnum : Nat} (hlen : fs.fatlength < 2 ^ 32) : BufOk disk fs (loadFatBuf disk fs fb bufnum) := by
  intro i hi hlt
  have hsize : fs.fatBufSize = FATBUFBLOCKS * fs.sectSize := Nat.mul_comm ..
  have hnum : (loadFatBuf disk fs fb bufnum).num = bufnum := rfl
  rw [hnum, hsize, ← Nat.mul_assoc] at hlt ⊢
  rw [hsize] at hi
  have hblock : bufnum * FATBUFBLOCKS < fs.fatlength := by
    have : bufnum * FATBUFBLOCKS * fs.sectSize < fs.fatlength * fs.sectSize := by omega
    exact Nat.lt_of_mul_lt_mul_right this
  -- all of the bytes in front of the end of the FAT were read
  have hget : i < (if fs.fatlength < bufnum * FATBUFBLOCKS + FATBUFBLOCKS then sub32 fs.fatlength (bufnum * FATBUFBLOCKS)
      else FATBUFBLOCKS) * fs.sectSize := by
    split
    · rw [sub32_of_le (by omega) hlen, Nat.sub_mul]
      omega
    · exact hi
  simp only [loadFatBuf, Lib.store, diskRead, Nat.zero_le, if_true, Nat.sub_zero, List.getElem?_map,
    List.getElem?_range hget, Option.map_some, Option.getD_some, Nat.add_mul]
  congr 1
  omega

variable {v : FatVolume} {fb : FatBuf} {entry : Nat}

theorem sectSize_even (v : FatVolume) : ∃ h, 0 < h ∧ v.sectSize = 2 * h := by
  obtain ⟨a, ha, -, hs⟩ := v.sectSize_pow
  obtain ⟨k, rfl⟩ : ∃ k, a = k + 1 := ⟨a - 1, by omega⟩
  exact ⟨2 ^ k, Nat.two_pow_pos k, by rw [hs, Nat.pow_succ, Nat.mul_comm]⟩

/-- The bytes of an entry of `w` bytes in the buffer. -/
theorem bufByte_eq (hok : BufOk disk v.toFsData fb) (hnum : entry / v.bufEntries = fb.num) {w : Nat}
    (hsize : v.fatBufSize = w * v.bufEntries) (hin : w * entry + w ≤ v.fatlength * v.sectSize) {j : Nat} (hj : j < w) :
    fb.buf (w * (entry - fb.num * v.bufEntries) + j) = disk (v.fatSect * v.sectSize + (w * entry + j)) := by
  have hpos : 0 < v.bufEntries := by
    obtain ⟨h, hpos, hs⟩ := sectSize_even v
    refine Nat.pos_of_mul_pos_left (a := w) ?_
    rw [← hsize, FsData.fatBufSize, hs, FATBUFBLOCKS]
    omega
  have hE := Nat.div_add_mod' entry v.bufEntries
  rw [hnum] at hE
  have hoff := Nat.mod_lt entry hpos
  generalize hr : entry % v.bufEntries = r at hE hoff
  have hplace : fb.num * v.fatBufSize + (w * r + j) = w * entry + j := by
    rw [hsize, Nat.mul_left_comm, ← hE, Nat.mul_add, Nat.add_assoc]
  have hin' : w * r + j < v.fatBufSize := by
    rw [hsize]
    calc w * r + j < w * r + w := Nat.add_lt_add_left hj _
      _ = w * (r + 1) := (Nat.mul_succ _ _).symm
      _ ≤ w * v.bufEntries := Nat.mul_le_mul_left _ hoff
  rw [show entry - fb.num * v.bufEntries = r by omega, hok _ hin' (by omega), hplace]

theorem bufEntry_eq (hok : BufOk disk v.toFsData fb) (hin : v.InFat entry) (hnum : entry / v.bufEntries = fb.num) :
    v.bufEntry fb.buf (entry - fb.num * v.bufEntries) = v.fatEntry disk entry := by
  obtain ⟨h, hpos, hs⟩ := sectSize_even v
  have hsize : v.fatBufSize = 12 * h := by
    rw [FsData.fatBufSize, hs, FATBUFBLOCKS]
    omega
  have hE := Nat.div_add_mod' entry v.bufEntries
  rw [hnum] at hE
  cases hfs : v.fatsize with
  | fat32 =>
    have hbe : v.bufEntries = 3 * h := by
      rw [FsData.bufEntries, hfs, hsize]
      simp only
      omega
    rw [FsData.InFat, hfs] at hin
    simp only at hin
    have hbyte : ∀ j < 4, fb.buf (4 * (entry - fb.num * v.bufEntries) + j) = disk (v.fatSect * v.sectSize + (4 * entry + j)) :=
      fun _ => bufByte_eq hok hnum (by omega) (by omega)
    rw [FsData.bufEntry, FsData.fatEntry, hfs]
    simp only [fat2cpu32]
    have h0 := hbyte 0 (by decide)
    simp only [Nat.add_zero] at h0
    rw [hbyte 1 (by decide), hbyte 2 (by decide), hbyte 3 (by decide), h0]
  | fat16 =>
    have hbe : v.bufEntries = 6 * h := by
      rw [FsData.bufEntries, hfs, hsize]
      simp only
      omega
    rw [FsData.InFat, hfs] at hin
    simp only at hin
    have hbyte : ∀ j < 2, fb.buf (2 * (entry - fb.num * v.bufEntries) + j) = disk (v.fatSect * v.sectSize + (2 * entry + j)) :=
      fun _ => bufByte_eq hok hnum (by omega) (by omega)
    rw [FsData.bufEntry, FsData.fatEntry, hfs]
    simp only [fat2cpu16]
    have h0 := hbyte 0 (by decide)
    simp only [Nat.add_zero] at h0
    rw [hbyte 1 (by decide), h0]
  | fat12 =>
    have hbe : v.bufEntries = 8 * h := by
      rw [FsData.bufEntries, hfs, hsize]
      simp only
      omega
    have hoff := Nat.mod_lt entry (show 0 < v.bufEntries by omega)
    have hplace : fb.num * v.fatBufSize = 12 * (fb.num * h) := by rw [hsize, Nat.mul_left_comm]
    have hQ : fb.num * v.bufEntries = 8 * (fb.num * h) := by rw [hbe, Nat.mul_left_comm]
    rw [FsData.InFat, hfs] at hin
    simp only at hin
    rw [hQ] at hE ⊢
    obtain ⟨k, r, hr, hkr⟩ : ∃ k r, r < 4 ∧ entry - 8 * (fb.num * h) = 4 * k + r :=
      ⟨(entry - 8 * (fb.num * h)) / 4, (entry - 8 * (fb.num * h)) % 4, by omega, by omega⟩
    have hbyte : ∀ j < 2, fb.buf (6 * k + r * 3 / 2 + j) = disk (v.fatSect * v.sectSize + (entry * 3 / 2 + j)) := by
      intro j hj
      rw [hok _ (by omega) (by omega), hplace]
      congr 2
      omega
    rw [hkr, bufEntry_fat12 _ hfs _ _ _ hr, hbyte 1 (by decide), FsData.fatEntry, hfs]
    have h0 := hbyte 0 (by decide)
    simp only [Nat.add_zero] at h0
    rw [h0, show r % 2 = entry % 2 by omega]

theorem getFatent_eq (hok : BufOk disk v.toFsData fb) (hin : v.InFat entry) :
    ∃ fb', getFatent disk v.toFsData fb entry = (v.fatEntry disk entry, fb') ∧ BufOk disk v.toFsData fb' := by
  rw [getFatent]
  split
  · exact ⟨_, by rw [← bufEntry_eq (bufOk_load fb v.fatlength_lt) hin rfl]; rfl, bufOk_load fb v.fatlength_lt⟩
  · next hnum =>
    have hnum : entry / v.bufEntries = fb.num := by simpa using hnum
    exact ⟨fb, by rw [← bufEntry_eq hok hin hnum, ← hnum], hok⟩

/-! ## Clusters -/

/-- The bytes of the partition from an address on. -/
def diskBytes (disk : Nat → UInt8) (a n : Nat) : List UInt8 := (List.range n).map fun i => disk (a + i)

@[simp] theorem diskBytes_length (disk : Nat → UInt8) (a n : Nat) : (diskBytes disk a n).length = n := by
  simp [diskBytes]

theorem diskBytes_append (disk : Nat → UInt8) (a n m : Nat) : diskBytes disk a n ++ diskBytes disk (a + n) m = diskBytes disk a (n + m) := by
  simp [diskBytes, List.range_add, Nat.add_assoc, Function.comp_def]

theorem diskRead_eq (disk : Nat → UInt8) (fs : FsData) (block nr : Nat) :
    diskRead disk fs block nr = diskBytes disk (block * fs.sectSize) (nr * fs.sectSize) := rfl

theorem getClusterLoop_eq (hpos : 0 < fs.sectSize) (fuel : Nat) (st : ClusterRead) (hfuel : st.size ≤ fuel) : getClusterLoop disk fs fuel st =
      ⟨st.startsect + st.size / fs.sectSize, st.buffer + st.size / fs.sectSize * fs.sectSize, st.size - st.size / fs.sectSize * fs.sectSize,
        Lib.store st.mem st.buffer (diskBytes disk (st.startsect * fs.sectSize) (st.size / fs.sectSize * fs.sectSize))⟩ := by
  have hend (st : ClusterRead) (hlt : st.size < fs.sectSize) : st =
      ⟨st.startsect + st.size / fs.sectSize, st.buffer + st.size / fs.sectSize * fs.sectSize, st.size - st.size / fs.sectSize * fs.sectSize,
        Lib.store st.mem st.buffer (diskBytes disk (st.startsect * fs.sectSize) (st.size / fs.sectSize * fs.sectSize))⟩ := by
    rw [Nat.div_eq_of_lt hlt]
    simp [diskBytes, Lib.store_nil]
  induction fuel generalizing st with
  | zero => exact hend st (by omega)
  | succ fuel ih =>
    rw [getClusterLoop]
    split
    · next hle =>
      have hdiv := Nat.div_eq_sub_div hpos hle
      rw [ih _ (by simp only; omega), diskRead_eq, Nat.one_mul, hdiv]
      generalize (st.size - fs.sectSize) / fs.sectSize = k
      have hmem := Lib.store_store st.mem st.buffer (diskBytes disk (st.startsect * fs.sectSize) fs.sectSize)
        (diskBytes disk (st.startsect * fs.sectSize + fs.sectSize) (k * fs.sectSize))
      rw [diskBytes_append, diskBytes_length] at hmem
      simp only [Nat.succ_mul, hmem, Nat.add_comm (k * fs.sectSize)]
      simp only [ClusterRead.mk.injEq, and_true]
      omega
    · next hlt => exact hend st (Nat.lt_of_not_le hlt)

theorem getCluster_eq (hpos : 0 < fs.sectSize) (clustnum buffer size : Nat) (mem : Nat → UInt8) : getCluster disk fs clustnum buffer size mem =
      Lib.store mem buffer (diskBytes disk (fs.startsect clustnum * fs.sectSize) size) := by
  rw [getCluster]
  simp only [getClusterLoop_eq hpos size ⟨fs.startsect clustnum, buffer, size, mem⟩ (Nat.le_refl _), diskRead_eq, ite_self]
  have hdiv := Nat.div_add_mod' size fs.sectSize
  have hlt := Nat.mod_lt size hpos
  generalize size / fs.sectSize = k at hdiv
  have hmem := Lib.store_store mem buffer (diskBytes disk (fs.startsect clustnum * fs.sectSize) (k * fs.sectSize))
    (diskBytes disk (fs.startsect clustnum * fs.sectSize + k * fs.sectSize) (size - k * fs.sectSize))
  rw [diskBytes_append, diskBytes_length, show k * fs.sectSize + (size - k * fs.sectSize) = size by omega] at hmem
  rw [← hmem]
  split
  · rw [Nat.one_mul, Nat.add_mul]
    congr 1
    simp only [diskBytes, ← List.map_take, List.take_range]
    rw [Nat.min_eq_left (by omega)]
  · next hz =>
    have hz : size - k * fs.sectSize = 0 := by simpa using hz
    rw [hz]
    simp [diskBytes, Lib.store_nil]

end FatAux

end UBoot
