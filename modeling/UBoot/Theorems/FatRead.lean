import UBoot.Lemmas.FatAux

/-!
# Reading a FAT file returns the file

`get_contents` reads the bytes of the chain whatever the buffers hold and however the chain is broken into runs.
-/

namespace UBoot

open List Option

/-- How many bytes a read is to return. -/
def contentsSize (size pos maxsize : Nat) : Nat :=
  if size ≤ pos then 0 else if maxsize = 0 then size - pos else min (size - pos) maxsize

/-- `get_contents` returns the number of bytes that there are, has put the bytes of the file at the buffer and has changed nothing else. -/
def ReadsFile (disk : Nat → UInt8) (fs : FsData) (fb : FatBuf) (block mem : Nat → UInt8) (dent : DirEntry) (pos buffer maxsize : Nat) : Prop :=
  ∃ fuel mem' fb', getContents disk fs fuel fb block mem dent pos buffer maxsize =
      some ((contentsSize dent.size.toNat pos maxsize : Int), mem', fb') ∧
    (∀ i < contentsSize dent.size.toNat pos maxsize, mem' (buffer + i) = fs.fileByte disk (fs.start dent) (pos + i)) ∧
    ∀ a, a < buffer ∨ buffer + contentsSize dent.size.toNat pos maxsize ≤ a → mem' a = mem a

/-- The numbers of a read stay in their types: there is nothing to read; or the size is a `long`, the cluster behind `pos` begins in
front of `2 ^ 32`, and what is read of a cluster that is entered in the middle fits in the block. -/
def ReadFits (fs : FsData) (dent : DirEntry) (pos maxsize : Nat) : Prop :=
  dent.size.toNat ≤ pos ∨ (contentsSize dent.size.toNat pos maxsize < 2 ^ 31 ∧ (pos / fs.bytesPerClust + 1) * fs.bytesPerClust < 2 ^ 32 ∧
      (pos % fs.bytesPerClust = 0 ∨ min (pos % fs.bytesPerClust + contentsSize dent.size.toNat pos maxsize) fs.bytesPerClust ≤ MAX_CLUSTSIZE))

namespace FatRead

open FatAux

variable {v : FatVolume} {disk : Nat → UInt8} {start size : Nat}
variable {pos : Nat}

/-! ## The volume -/

theorem bytesPerClust_pow (v : FatVolume) : ∃ m ≤ 22, v.bytesPerClust = 2 ^ m := by
  obtain ⟨a, -, ha, hs⟩ := v.sectSize_pow
  obtain ⟨b, hb, hc⟩ := v.clustSize_pow
  exact ⟨b + a, by omega, by rw [FsData.bytesPerClust, hs, hc, Nat.pow_add]⟩

theorem bytesPerClust_pos (v : FatVolume) : 0 < v.bytesPerClust := by
  obtain ⟨m, -, hm⟩ := bytesPerClust_pow v
  rw [hm]
  exact Nat.two_pow_pos m

theorem bytesPerClust_le (v : FatVolume) : v.bytesPerClust ≤ 2 ^ 22 := by
  obtain ⟨m, hle, hm⟩ := bytesPerClust_pow v
  rw [hm]
  exact Nat.pow_le_pow_right (by decide) hle

theorem bytesPerClust_dvd (v : FatVolume) : v.bytesPerClust ∣ 2 ^ 32 := by
  obtain ⟨m, hle, hm⟩ := bytesPerClust_pow v
  rw [hm]
  exact Nat.pow_dvd_pow 2 (by omega)

theorem sectSize_pos (v : FatVolume) : 0 < v.sectSize := by
  obtain ⟨h, hpos, hs⟩ := sectSize_even v
  omega

theorem clustSize_pos (v : FatVolume) : 0 < v.clustSize := by
  obtain ⟨b, -, hc⟩ := v.clustSize_pow
  rw [hc]
  exact Nat.two_pow_pos b

/-- The sectors of a cluster lie in the first `2 ^ 32`. -/
theorem startsect_eq {c : Nat} (hc : 2 ≤ c) (hlt : c < v.clusters + 2) : (v.startsect c : Int) = v.dataBegin + c * v.clustSize := by
  have hpos := clustSize_pos v
  have hnn := v.data_nonneg
  have hend := v.data_end
  have hlow : (2 : Int) * v.clustSize ≤ c * v.clustSize := Int.mul_le_mul_of_nonneg_right (by omega) (by omega)
  have hhigh : ((c : Int) + 1) * v.clustSize ≤ (v.clusters + 2) * v.clustSize := Int.mul_le_mul_of_nonneg_right (by omega) (by omega)
  rw [Int.add_mul, Int.one_mul] at hhigh
  rw [FsData.startsect, if_pos (by omega), Int.emod_eq_of_lt (by omega) (by omega), Int.toNat_of_nonneg (by omega)]

theorem startsect_add {c q : Nat} (hc : 2 ≤ c) (hq : c + q < v.clusters + 2) : v.startsect (c + q) = v.startsect c + q * v.clustSize := by
  have hfirst := startsect_eq hc (show c < v.clusters + 2 by omega)
  have hnext := startsect_eq (show 2 ≤ c + q by omega) hq
  rw [Int.natCast_add, Int.add_mul, ← Int.add_assoc, ← hfirst] at hnext
  exact_mod_cast hnext

/-! ## The chain -/

variable {fb : FatBuf}

theorem getFatent_chain (hok : BufOk disk v.toFsData fb) (hchain : v.ChainFor disk start size) {i : Nat}
    (hi : (i + 1) * v.bytesPerClust < size) :
    ∃ fb', getFatent disk v.toFsData fb (v.chain disk start i) = (v.chain disk start (i + 1), fb') ∧ BufOk disk v.toFsData fb' := by
  obtain ⟨-, hlt, -⟩ := hchain i (by rw [Nat.succ_mul] at hi; omega)
  exact getFatent_eq hok (v.inFat _ hlt)

/-- A run of clusters that follow each other holds the bytes of the file. -/
theorem diskBytes_run (hchain : v.ChainFor disk start size) {j k n : Nat} (hrun : ∀ i ≤ k, v.chain disk start (j + i) = v.chain disk start j + i)
    (hk : n ≤ (k + 1) * v.bytesPerClust) (hn : j * v.bytesPerClust + n ≤ size) :
    diskBytes disk (v.startsect (v.chain disk start j) * v.sectSize) n = diskBytes (v.fileByte disk start) (j * v.bytesPerClust) n := by
  have hpos := bytesPerClust_pos v
  refine map_congr_left ?_
  intro i hi
  rw [mem_range] at hi
  have hq : i / v.bytesPerClust ≤ k := by
    have := (Nat.div_lt_iff_lt_mul hpos).2 (show i < (k + 1) * v.bytesPerClust by omega)
    omega
  have hdm := Nat.div_add_mod' i v.bytesPerClust
  obtain ⟨-, hlt, -⟩ := hchain (j + i / v.bytesPerClust) (by rw [Nat.add_mul]; omega)
  obtain ⟨hge, -, -⟩ := hchain j (by omega)
  rw [hrun _ hq] at hlt
  rw [FsData.fileByte, Nat.mul_comm j, Nat.mul_add_div hpos, Nat.mul_add_mod, hrun _ hq, startsect_add hge hlt, Nat.add_mul, Nat.mul_assoc,
    ← FsData.bytesPerClust, Nat.add_assoc, hdm]

/-! ## The loops -/

/-- How the search for consecutive clusters ends: with a run that holds the rest of the file, or with one that ends before it. -/
inductive RunSpec (v : FatVolume) (disk : Nat → UInt8) (start j rem : Nat) : RunEnd → Prop where
  | remaining {k : Nat} : (∀ i ≤ k, v.chain disk start (j + i) = v.chain disk start j + i) → rem ≤ (k + 1) * v.bytesPerClust →
    RunSpec v disk start j rem .remaining
  | getit {k : Nat} : (∀ i ≤ k, v.chain disk start (j + i) = v.chain disk start j + i) → (k + 1) * v.bytesPerClust < rem →
    RunSpec v disk start j rem (.getit (v.chain disk start (j + k)) ((k + 1) * v.bytesPerClust))

theorem checkClust_false {x : Nat} {fatsize : FatSize} (h : checkClust x fatsize = false) : 2 ≤ x ∧ x < 2 ^ 32 := by
  unfold checkClust at h
  simp only [decide_eq_false_iff_not, not_or, Nat.not_le] at h
  split at h <;> omega

theorem runLoop_spec (hchain : v.ChainFor disk start size) {j rem : Nat} (hrem : j * v.bytesPerClust + rem ≤ size) (hsmall : rem < 2 ^ 31)
    (fuel k : Nat) (fb : FatBuf) (hok : BufOk disk v.toFsData fb)
    (hrun : ∀ i ≤ k, v.chain disk start (j + i) = v.chain disk start j + i) (hk : k * v.bytesPerClust < rem)
    (hfuel : rem < fuel + k * v.bytesPerClust) :
    ∃ e fb', runLoop disk v.toFsData rem fuel fb (v.chain disk start (j + k)) ((k + 1) * v.bytesPerClust) = some (e, fb') ∧
      RunSpec v disk start j rem e ∧ BufOk disk v.toFsData fb' := by
  have hpos := bytesPerClust_pos v
  have hle := bytesPerClust_le v
  induction fuel generalizing k fb with
  | zero => omega
  | succ fuel ih =>
    rw [runLoop]
    split
    · next hlt =>
      have hnext : (j + k + 1) * v.bytesPerClust < size := by
        rw [Nat.add_assoc, Nat.add_mul]
        omega
      obtain ⟨fb', hget, hok'⟩ := getFatent_chain hok hchain hnext
      obtain ⟨-, -, hcheck⟩ := hchain (j + k + 1) hnext
      have hcheck := hcheck (by omega)
      obtain ⟨hge, hlt32⟩ := checkClust_false hcheck
      simp only [hget, sub32_of_le (show 1 ≤ v.chain disk start (j + k + 1) by omega) hlt32]
      split
      · exact ⟨_, fb', rfl, RunSpec.getit hrun hlt, hok'⟩
      · next heq =>
        have hsucc : v.chain disk start (j + k + 1) = v.chain disk start j + (k + 1) := by
          have := hrun k (Nat.le_refl k)
          omega
        have hact : ((k + 1) * v.bytesPerClust + v.bytesPerClust) % 2 ^ 32 = (k + 1 + 1) * v.bytesPerClust := by
          rw [Nat.succ_mul (k + 1), Nat.mod_eq_of_lt (by omega)]
        simp only [hcheck, hact, Bool.false_eq_true, if_false]
        refine ih (k + 1) fb' hok' ?_ hlt (by rw [Nat.succ_mul]; omega)
        intro i hi
        rcases Nat.lt_or_eq_of_le hi with hi | rfl
        · exact hrun i (by omega)
        · exact hsucc
    · next hge => exact ⟨_, fb, rfl, RunSpec.remaining hrun (Nat.le_of_not_lt hge), hok⟩

/-- The loop over the runs copies the rest of the file. -/
theorem contentsLoop_eq (hchain : v.ChainFor disk start size) (fuel : Nat) (fb : FatBuf) (mem : Nat → UInt8) (j buffer rem got : Nat)
    (hok : BufOk disk v.toFsData fb) (hpos : 0 < rem) (hrem : j * v.bytesPerClust + rem ≤ size) (hfuel : rem < fuel)
    (hgot : got + rem < 2 ^ 31) :
    ∃ fb', contentsLoop disk v.toFsData fuel fb mem (v.chain disk start j) buffer rem got =
      some (((got + rem : Nat) : Int), Lib.store mem buffer (diskBytes (v.fileByte disk start) (j * v.bytesPerClust) rem), fb') := by
  induction fuel generalizing fb mem j buffer rem got with
  | zero => omega
  | succ fuel ih =>
    have hrun0 : ∀ i ≤ 0, v.chain disk start (j + i) = v.chain disk start j + i := by
      intro i hi
      rw [Nat.le_zero.1 hi]
      rfl
    obtain ⟨e, fb', hloop, hspec, hok'⟩ := runLoop_spec hchain hrem (by omega) (fuel + 1) 0 fb hok hrun0 (by omega) (by omega)
    simp only [Nat.add_zero, Nat.zero_add, Nat.one_mul] at hloop
    rw [contentsLoop, hloop]
    cases hspec with
    | remaining hrun hle =>
      refine ⟨fb', ?_⟩
      simp only [getCluster_eq (sectSize_pos v)]
      rw [Nat.mod_eq_of_lt (by omega), toLong_of_lt hgot, diskBytes_run hchain hrun hle hrem]
    | @getit k hrun hlt =>
      have hnext : (j + k + 1) * v.bytesPerClust < size := by
        rw [Nat.add_assoc, Nat.add_mul]
        omega
      obtain ⟨fb'', hget, hok''⟩ := getFatent_chain hok' hchain hnext
      obtain ⟨-, -, hcheck⟩ := hchain (j + k + 1) hnext
      have hcheck := hcheck (by omega)
      have hstep : (j + k + 1) * v.bytesPerClust = j * v.bytesPerClust + (k + 1) * v.bytesPerClust := by
        rw [Nat.add_assoc, Nat.add_mul]
      have hclust : v.bytesPerClust ≤ (k + 1) * v.bytesPerClust := Nat.le_mul_of_pos_left _ (Nat.succ_pos k)
      have hbpc := bytesPerClust_pos v
      simp only [getCluster_eq (sectSize_pos v), hget, hcheck, Bool.false_eq_true, if_false,
        Nat.mod_eq_of_lt (show got + (k + 1) * v.bytesPerClust < 2 ^ 32 by omega),
        sub32_of_le (show (k + 1) * v.bytesPerClust ≤ rem by omega) (show rem < 2 ^ 32 by omega)]
      obtain ⟨fb3, hrest⟩ := ih fb'' (Lib.store mem buffer
        (diskBytes disk (v.startsect (v.chain disk start j) * v.sectSize) ((k + 1) * v.bytesPerClust))) (j + k + 1)
        (buffer + (k + 1) * v.bytesPerClust) (rem - (k + 1) * v.bytesPerClust) (got + (k + 1) * v.bytesPerClust) hok'' (by omega) (by omega)
        (by omega) (by omega)
      refine ⟨fb3, ?_⟩
      -- the run and what the loop copies behind it
      have hmem := Lib.store_store mem buffer (diskBytes (v.fileByte disk start) (j * v.bytesPerClust) ((k + 1) * v.bytesPerClust))
        (diskBytes (v.fileByte disk start) (j * v.bytesPerClust + (k + 1) * v.bytesPerClust) (rem - (k + 1) * v.bytesPerClust))
      rw [diskBytes_append, diskBytes_length, Nat.add_sub_of_le (Nat.le_of_lt hlt)] at hmem
      rw [hrest, diskBytes_run hchain hrun (Nat.le_refl _) (by omega), hstep, hmem, Nat.add_assoc got, Nat.add_sub_of_le (Nat.le_of_lt hlt)]

/-- The loop to the cluster at `pos`, if the cluster behind it begins in front of `2 ^ 32`. -/
theorem seekLoop_eq (hchain : v.ChainFor disk start size) (hpos : pos < size)
    (hlt : (pos / v.bytesPerClust + 1) * v.bytesPerClust < 2 ^ 32) (fuel i : Nat) (fb : FatBuf) (hok : BufOk disk v.toFsData fb)
    (hi : i ≤ pos / v.bytesPerClust) (hfuel : pos / v.bytesPerClust < i + fuel) :
    ∃ fb', BufOk disk v.toFsData fb' ∧ seekLoop disk v.toFsData pos fuel fb (v.chain disk start i) ((i + 1) * v.bytesPerClust) =
      some (some (v.chain disk start (pos / v.bytesPerClust), (pos / v.bytesPerClust + 1) * v.bytesPerClust), fb') := by
  have hbpc := bytesPerClust_pos v
  induction fuel generalizing i fb with
  | zero => omega
  | succ fuel ih =>
    rw [seekLoop]
    have hle : (i + 1) * v.bytesPerClust ≤ pos ↔ i + 1 ≤ pos / v.bytesPerClust := (Nat.le_div_iff_mul_le hbpc).symm
    split
    · next hact =>
      have hnext := hle.1 hact
      have hmul : (i + 1 + 1) * v.bytesPerClust ≤ (pos / v.bytesPerClust + 1) * v.bytesPerClust :=
        Nat.mul_le_mul_right _ (Nat.succ_le_succ hnext)
      obtain ⟨fb', hget, hok'⟩ := getFatent_chain hok hchain (show (i + 1) * v.bytesPerClust < size by omega)
      obtain ⟨-, -, hcheck⟩ := hchain (i + 1) (by omega)
      have hstep : ((i + 1) * v.bytesPerClust + v.bytesPerClust) % 2 ^ 32 = (i + 1 + 1) * v.bytesPerClust := by
        rw [Nat.succ_mul (i + 1)] at hmul ⊢
        exact Nat.mod_eq_of_lt (by omega)
      simp only [hget, hcheck (by omega), hstep, Bool.false_eq_true, if_false]
      exact ih (i + 1) fb' hok' hnext (by omega)
    · next hact =>
      have heq : i = pos / v.bytesPerClust := by omega
      subst heq
      exact ⟨fb, hok, rfl⟩

/-- Where the loop to the cluster at `pos` comes out, if it does. -/
theorem seekLoop_some (fuel : Nat) (fb fb' : FatBuf) (curclust act c a : Nat) (hdvd : v.bytesPerClust ∣ act)
    (hact : act ≤ pos + v.bytesPerClust) (hlt : act < 2 ^ 32) (h : seekLoop disk v.toFsData pos fuel fb curclust act = some (some (c, a), fb')) :
    a = (pos / v.bytesPerClust + 1) * v.bytesPerClust ∧ a < 2 ^ 32 := by
  have hbpc := bytesPerClust_pos v
  induction fuel generalizing fb curclust act with
  | zero => simp [seekLoop] at h
  | succ fuel ih =>
    rw [seekLoop] at h
    by_cases hle : act ≤ pos
    · rcases hget : getFatent disk v.toFsData fb curclust with ⟨c', fb''⟩
      simp only [hle, if_true, hget] at h
      split at h
      · simp at h
      · refine ih _ _ _ ?_ ?_ (Nat.mod_lt _ (by decide)) h
        · exact (Nat.dvd_mod_iff (bytesPerClust_dvd v)).2 (Nat.dvd_add hdvd (Nat.dvd_refl _))
        · exact Nat.le_trans (Nat.mod_le _ _) (by omega)
    · simp only [if_neg hle, some.injEq, Prod.mk.injEq] at h
      obtain ⟨⟨-, rfl⟩, -⟩ := h
      refine ⟨?_, hlt⟩
      -- the only multiple of the cluster size in this range
      obtain ⟨m, rfl⟩ := hdvd
      obtain ⟨k, rfl⟩ : ∃ k, m = k + 1 := Nat.exists_eq_add_one.2 (Nat.pos_of_ne_zero (by rintro rfl; simp at hle))
      rw [Nat.mul_comm, Nat.succ_mul] at hact hle
      have hk : pos / v.bytesPerClust = k := Nat.div_eq_of_lt_le (by omega) (by rw [Nat.succ_mul]; omega)
      rw [hk, Nat.mul_comm]

/-! ## get_contents -/

section

variable {block mem : Nat → UInt8} {dent : DirEntry} {pos buffer maxsize : Nat}
variable {rest : (Nat → UInt8) × FatBuf}

theorem limit_eq (hpos : pos < size) (hlimit : pos + maxsize < 2 ^ 32) :
    (if 0 < maxsize ∧ (pos + maxsize) % 2 ^ 32 < size then (pos + maxsize) % 2 ^ 32 else size) = pos + contentsSize size pos maxsize := by
  have hne : ¬ size ≤ pos := Nat.not_le.2 hpos
  rw [Nat.mod_eq_of_lt hlimit]
  simp only [contentsSize, hne, if_false]
  split <;> split <;> omega

theorem contentsSize_bounds (hpos : pos < size) :
    0 < contentsSize size pos maxsize ∧ pos + contentsSize size pos maxsize ≤ size := by
  rw [contentsSize, if_neg (by omega)]
  split <;> omega

theorem block_bytes {f : Nat → UInt8} {a n p : Nat} (hp : p ≤ n) :
    ((List.range (n - p)).map fun i => Lib.store block 0 (diskBytes f a n) (p + i)) = diskBytes f (a + p) (n - p) := by
  refine map_congr_left ?_
  intro i hi
  rw [mem_range] at hi
  have hget : (diskBytes f a n)[p + i]? = some (f (a + (p + i))) := by
    rw [diskBytes, getElem?_map, getElem?_range (by omega), map_some]
  have := Lib.stored_store block 0 (diskBytes f a n) (p + i) _ hget
  rw [Nat.zero_add] at this
  rw [this, Nat.add_assoc]

/-- Behind a read up to the end of its cluster the loop goes on in the next cluster of the file. -/
theorem contentsLoop_behind (hok : BufOk disk v.toFsData fb) (hchain : v.ChainFor disk start size) (mem : Nat → UInt8) (buffer fuel : Nat)
    {q p n : Nat} (hpos : q * v.bytesPerClust + p = pos) (hp : p < v.bytesPerClust) (hmore : v.bytesPerClust < p + n)
    (hend : pos + n ≤ size) (hfuel : n < fuel) (hlong : n < 2 ^ 31) :
    ∃ fb2 fb3, getFatent disk v.toFsData fb (v.chain disk start q) = (v.chain disk start (q + 1), fb2) ∧
      checkClust (v.chain disk start (q + 1)) v.fatsize = false ∧
      contentsLoop disk v.toFsData fuel fb2 (Lib.store mem buffer (diskBytes (v.fileByte disk start) pos (v.bytesPerClust - p)))
        (v.chain disk start (q + 1)) (buffer + (v.bytesPerClust - p)) (p + n - v.bytesPerClust) (v.bytesPerClust - p) =
          some ((n : Int), Lib.store mem buffer (diskBytes (v.fileByte disk start) pos n), fb3) := by
  have hstep : (q + 1) * v.bytesPerClust = q * v.bytesPerClust + v.bytesPerClust := Nat.succ_mul ..
  obtain ⟨fb2, hget, hok2⟩ := getFatent_chain hok hchain (show (q + 1) * v.bytesPerClust < size by omega)
  obtain ⟨-, -, hcheck⟩ := hchain (q + 1) (by omega)
  obtain ⟨fb3, hcont⟩ := contentsLoop_eq hchain fuel fb2
    (Lib.store mem buffer (diskBytes (v.fileByte disk start) pos (v.bytesPerClust - p))) (q + 1) (buffer + (v.bytesPerClust - p))
    (p + n - v.bytesPerClust) (v.bytesPerClust - p) hok2 (by omega) (by omega) (by omega) (by omega)
  have hmem := Lib.store_store mem buffer (diskBytes (v.fileByte disk start) pos (v.bytesPerClust - p))
    (diskBytes (v.fileByte disk start) (pos + (v.bytesPerClust - p)) (p + n - v.bytesPerClust))
  have htotal : v.bytesPerClust - p + (p + n - v.bytesPerClust) = n := by omega
  rw [diskBytes_append, diskBytes_length, htotal, show pos + (v.bytesPerClust - p) = (q + 1) * v.bytesPerClust by omega] at hmem
  exact ⟨fb2, fb3, hget, hcheck (Nat.succ_ne_zero q), by rw [hcont, htotal, hmem]⟩

/-- A read whose numbers stay in their types. -/
theorem getContents_eq (hok : BufOk disk v.toFsData fb) (hchain : v.ChainFor disk (v.start dent) dent.size.toNat)
    (hlimit : pos + maxsize < 2 ^ 32) (hpos : pos < dent.size.toNat) (hlong : contentsSize dent.size.toNat pos maxsize < 2 ^ 31)
    (hseek : (pos / v.bytesPerClust + 1) * v.bytesPerClust < 2 ^ 32)
    (hblock : pos % v.bytesPerClust = 0 ∨
      min (pos % v.bytesPerClust + contentsSize dent.size.toNat pos maxsize) v.bytesPerClust ≤ MAX_CLUSTSIZE) :
    ∃ fb', getContents disk v.toFsData (dent.size.toNat + 1) fb block mem dent pos buffer maxsize =
      some ((contentsSize dent.size.toNat pos maxsize : Int),
        Lib.store mem buffer (diskBytes (v.fileByte disk (v.start dent)) pos (contentsSize dent.size.toNat pos maxsize)), fb') := by
  have hbpc := bytesPerClust_pos v
  have hbpc32 := bytesPerClust_le v
  have hsize := dent.size.toNat_lt
  obtain ⟨hn, hend⟩ := @contentsSize_bounds _ _ maxsize hpos
  have hdm := Nat.div_add_mod' pos v.bytesPerClust
  have hmod := Nat.mod_lt pos hbpc
  have hq := Nat.div_le_self pos v.bytesPerClust
  rw [getContents, if_neg (Nat.not_le.2 hpos)]
  simp only [limit_eq hpos hlimit]
  generalize contentsSize dent.size.toNat pos maxsize = n at *
  obtain ⟨fb1, hok1, hloop⟩ := seekLoop_eq hchain hpos hseek (dent.size.toNat + 1) 0 fb hok (Nat.zero_le _) (by omega)
  simp only [FsData.chain, Nat.zero_add, Nat.one_mul] at hloop
  simp only [hloop]
  generalize hqe : pos / v.bytesPerClust = q at *
  generalize pos % v.bytesPerClust = p at *
  rw [Nat.succ_mul] at hseek
  have hact : sub32 ((q + 1) * v.bytesPerClust) v.bytesPerClust = q * v.bytesPerClust := by
    rw [Nat.succ_mul, sub32_of_le (by omega) (by omega), Nat.add_sub_cancel]
  have hfile : sub32 (pos + n) (q * v.bytesPerClust) = p + n := by
    rw [sub32_of_le (by omega) (by omega)]
    omega
  have hrest : sub32 pos (q * v.bytesPerClust) = p := by
    rw [sub32_of_le (by omega) (by omega)]
    omega
  simp only [hact, hfile, hrest]
  by_cases hp : p = 0
  · -- the read begins with a cluster
    subst hp
    obtain ⟨fb2, hcont⟩ := contentsLoop_eq hchain (dent.size.toNat + 1) fb1 mem q buffer (0 + n) 0 hok1 (by omega) (by omega) (by omega)
      (by omega)
    refine ⟨fb2, ?_⟩
    simp only [Nat.zero_add, Nat.add_zero] at hcont hdm
    rw [hdm] at hcont
    simp only [ne_eq, not_true_eq_false, if_false, Nat.zero_add, hcont]
  · -- it begins in the middle of one, which goes through the block
    have hfits := hblock.resolve_left hp
    have hA : min (p + n) v.bytesPerClust ≤ v.bytesPerClust := Nat.min_le_right ..
    have hA' : min (p + n) v.bytesPerClust ≤ p + n := Nat.min_le_left ..
    have hpA : p ≤ min (p + n) v.bytesPerClust := Nat.le_min.2 ⟨by omega, by omega⟩
    have hAor : min (p + n) v.bytesPerClust = p + n ∨ min (p + n) v.bytesPerClust = v.bytesPerClust := by
      rcases Nat.le_total (p + n) v.bytesPerClust with h | h
      · exact Or.inl (Nat.min_eq_left h)
      · exact Or.inr (Nat.min_eq_right h)
    generalize min (p + n) v.bytesPerClust = A at *
    have hrun0 : ∀ i ≤ 0, v.chain disk (v.start dent) (q + i) = v.chain disk (v.start dent) q + i := by
      intro i hi
      rw [Nat.le_zero.1 hi]
      rfl
    have hbytes : diskBytes disk (v.startsect (v.chain disk (v.start dent) q) * v.sectSize) A =
        diskBytes (v.fileByte disk (v.start dent)) (q * v.bytesPerClust) A := by
      refine diskBytes_run hchain hrun0 ?_ (by omega)
      rwa [Nat.zero_add, Nat.one_mul]
    simp only [ne_eq, hp, not_false_eq_true, if_true, if_neg (Nat.not_lt.2 hfits), getCluster_eq (sectSize_pos v), hbytes,
      sub32_of_le hA' (show p + n < 2 ^ 32 by omega), sub32_of_le hpA (show A < 2 ^ 32 by omega), block_bytes hpA, hdm]
    by_cases hz : p + n - A = 0
    · have hAn : A - p = n := by omega
      rw [if_pos hz, hAn, toLong_of_lt hlong]
      exact ⟨fb1, rfl⟩
    · have hAB : A = v.bytesPerClust := by omega
      subst hAB
      obtain ⟨fb2, fb3, hget, hcheck, hcont⟩ :=
        contentsLoop_behind hok1 hchain mem buffer (dent.size.toNat + 1) hdm (by omega) (by omega) (by omega) (by omega) hlong
      exact ⟨fb3, by simp only [if_neg hz, hget, hcheck, Bool.false_eq_true, if_false, hcont]⟩

/-- What is returned is a `long`. -/
theorem contentsLoop_lt (fuel : Nat) (fb : FatBuf) (mem : Nat → UInt8) (curclust buffer rem got : Nat) (hgot : got < 2 ^ 32) {r : Int} (h : contentsLoop disk v.toFsData fuel fb mem curclust buffer rem got = some (r, rest)) : r < 2 ^ 31 := by
  induction fuel generalizing fb mem curclust buffer rem got with
  | zero => simp [contentsLoop] at h
  | succ fuel ih =>
    rw [contentsLoop] at h
    have hmod (a : Nat) : a % 2 ^ 32 < 2 ^ 32 := Nat.mod_lt _ (by decide)
    split at h
    · simp at h
    · simp only [some.injEq, Prod.mk.injEq] at h
      exact h.1 ▸ toLong_lt got hgot
    · simp only [some.injEq, Prod.mk.injEq] at h
      exact h.1 ▸ toLong_lt _ (hmod _)
    · simp only at h
      split at h
      · simp only [some.injEq, Prod.mk.injEq] at h
        exact h.1 ▸ toLong_lt _ (hmod _)
      · exact ih _ _ _ _ _ _ (hmod _) h

/-- A read that returns as it should keeps its numbers in their types. -/
theorem readFits_of_getContents (hlimit : pos + maxsize < 2 ^ 32) (hpos : pos < dent.size.toNat) {fuel : Nat} {mem' : Nat → UInt8} {fb' : FatBuf}
    (h : getContents disk v.toFsData fuel fb block mem dent pos buffer maxsize =
      some ((contentsSize dent.size.toNat pos maxsize : Int), mem', fb')) : ReadFits v.toFsData dent pos maxsize := by
  have hbpc := bytesPerClust_pos v
  have hbpc32 := bytesPerClust_le v
  have hsize := dent.size.toNat_lt
  obtain ⟨hn, hend⟩ := @contentsSize_bounds _ _ maxsize hpos
  have hdm := Nat.div_add_mod' pos v.bytesPerClust
  rw [getContents, if_neg (Nat.not_le.2 hpos)] at h
  simp only [limit_eq hpos hlimit] at h
  rw [ReadFits]
  generalize contentsSize dent.size.toNat pos maxsize = n at *
  split at h
  · simp at h
  · simp only [some.injEq, Prod.mk.injEq] at h
    omega
  · next c a fb1 hloop =>
    obtain ⟨ha, hlt⟩ := seekLoop_some fuel fb fb1 _ _ c a (Nat.dvd_refl _) (Nat.le_add_left ..) (by omega) hloop
    rw [Nat.succ_mul] at ha
    have hact : sub32 a v.bytesPerClust = pos / v.bytesPerClust * v.bytesPerClust := by
      rw [sub32_of_le (by omega) hlt]
      omega
    have hfile : sub32 (pos + n) (pos / v.bytesPerClust * v.bytesPerClust) = pos % v.bytesPerClust + n := by
      rw [sub32_of_le (by omega) (by omega)]
      omega
    have hrest : sub32 pos (pos / v.bytesPerClust * v.bytesPerClust) = pos % v.bytesPerClust := by
      rw [sub32_of_le (by omega) (by omega)]
      omega
    simp only [hact, hfile, hrest] at h
    have hseek : (pos / v.bytesPerClust + 1) * v.bytesPerClust < 2 ^ 32 := by
      rw [Nat.succ_mul, ← ha]
      exact hlt
    have hsub (x y : Nat) : sub32 x y < 2 ^ 32 := Nat.mod_lt _ (by decide)
    right
    by_cases hp : pos % v.bytesPerClust = 0
    · simp only [hp, ne_eq, not_true_eq_false, if_false] at h
      have hr := contentsLoop_lt _ _ _ _ _ _ _ (by decide) h
      exact ⟨by omega, hseek, Or.inl hp⟩
    · simp only [ne_eq, hp, not_false_eq_true, if_true] at h
      split at h
      · simp at h
      · next hfits =>
        refine ⟨?_, hseek, Or.inr (Nat.le_of_not_lt hfits)⟩
        split at h
        · simp only [some.injEq, Prod.mk.injEq] at h
          have hr := toLong_lt _ (hsub (min (pos % v.bytesPerClust + n) v.bytesPerClust) (pos % v.bytesPerClust))
          rw [h.1] at hr
          exact_mod_cast hr
        · split at h
          · simp only [some.injEq, Prod.mk.injEq] at h
            have hr := toLong_lt _ (hsub (min (pos % v.bytesPerClust + n) v.bytesPerClust) (pos % v.bytesPerClust))
            rw [h.1] at hr
            exact_mod_cast hr
          · have hr := contentsLoop_lt _ _ _ _ _ _ _ (hsub _ _) h
            omega

/-- Reads that return the file are those whose numbers stay in their types. -/
theorem readsFile_iff (hok : BufOk disk v.toFsData fb) (hchain : v.ChainFor disk (v.start dent) dent.size.toNat)
    (hlimit : pos + maxsize < 2 ^ 32) :
    ReadsFile disk v.toFsData fb block mem dent pos buffer maxsize ↔ ReadFits v.toFsData dent pos maxsize := by
  have hpast : dent.size.toNat ≤ pos → ReadsFile disk v.toFsData fb block mem dent pos buffer maxsize := by
    intro hpos
    have hzero : contentsSize dent.size.toNat pos maxsize = 0 := if_pos hpos
    rw [ReadsFile, hzero]
    exact ⟨0, mem, fb, if_pos hpos, fun i hi => absurd hi (Nat.not_lt_zero i), fun _ _ => rfl⟩
  constructor
  · rintro ⟨fuel, mem', fb', h, -, -⟩
    rcases Nat.lt_or_ge pos dent.size.toNat with hpos | hpos
    · exact readFits_of_getContents hlimit hpos h
    · exact Or.inl hpos
  · rintro (hpos | ⟨hlong, hseek, hblock⟩)
    · exact hpast hpos
    · rcases Nat.lt_or_ge pos dent.size.toNat with hpos | hpos
      · obtain ⟨fb', h⟩ := @getContents_eq v disk fb block mem dent pos buffer maxsize hok hchain hlimit hpos hlong hseek hblock
        refine ⟨_, _, fb', h, ?_, ?_⟩
        · intro i hi
          refine Lib.stored_store mem buffer _ i _ ?_
          rw [diskBytes, getElem?_map, getElem?_range hi, map_some]
        · intro a ha
          exact Lib.store_of_outside (by rwa [diskBytes_length])
      · exact hpast hpos

end

theorem bufOk_lookups (entries : List Nat) (hok : BufOk disk v.toFsData fb) :
    BufOk disk v.toFsData (entries.foldl (fun fb entry => (getFatent disk v.toFsData fb entry).2) fb) := by
  induction entries generalizing fb with
  | nil => exact hok
  | cons entry entries ih =>
    refine ih ?_
    simp only [getFatent]
    split
    · exact bufOk_load fb v.fatlength_lt
    · exact hok

end FatRead

open FatRead FatAux

/-- For every volume, every entry whose chain has clusters for its size, every position, limit and buffer, and after any lookups in the
FAT: `get_contents` returns the bytes of the file that there are from the position on, up to the limit, and writes nothing else, if and
only if the numbers of the read stay in their types. -/
theorem get_contents_reads_file (v : FatVolume) (disk : Nat → UInt8) (buf : Nat → UInt8) (lookups : List Nat) (block mem : Nat → UInt8)
    (dent : DirEntry) (pos buffer maxsize : Nat) (hchain : v.ChainFor disk (v.start dent) dent.size.toNat) (hlimit : pos + maxsize < 2 ^ 32) :
    ReadsFile disk v.toFsData (lookups.foldl (fun fb entry => (getFatent disk v.toFsData fb entry).2) ⟨2 ^ 32 - 1, buf⟩) block mem dent pos
      buffer maxsize ↔ ReadFits v.toFsData dent pos maxsize :=
  readsFile_iff (bufOk_lookups lookups (bufOk_new v.fatlength_lt buf)) hchain hlimit

/-- FAT32 with clusters of 64 KiB. -/
def largeFs : FsData := ⟨.fat32, 1024, 32, 2080, 512, 128, 1824⟩

theorem largeFs_sizes : (∃ a, 1 ≤ a ∧ a ≤ 15 ∧ largeFs.sectSize = 2 ^ a) ∧ ∃ b, b ≤ 7 ∧ largeFs.clustSize = 2 ^ b :=
  ⟨⟨9, by decide⟩, ⟨7, by decide⟩⟩

theorem largeFs_inFat (c : Nat) (hc : c < 70000 + 2) : largeFs.InFat c := by
  simp only [FsData.InFat, largeFs]
  omega

theorem largeFs_data : largeFs.fatlength < 2 ^ 32 ∧ 0 ≤ largeFs.dataBegin + 2 * largeFs.clustSize ∧
      largeFs.dataBegin + ((70000 : Nat) + 2) * largeFs.clustSize ≤ 2 ^ 32 := by
  decide

/-- A volume with more than 4 GiB of them. -/
def largeVolume : FatVolume :=
  { largeFs with
    clusters := 70000
    sectSize_pow := largeFs_sizes.1
    clustSize_pow := largeFs_sizes.2
    fatlength_lt := largeFs_data.1
    inFat := largeFs_inFat
    data_nonneg := largeFs_data.2.1
    data_end := largeFs_data.2.2 }

/-- Every entry of its FAT points to the next cluster. -/
def largeDisk (a : Nat) : UInt8 := UInt8.ofNat (((a - 16384) / 4 + 1) / 256 ^ ((a - 16384) % 4))

namespace FatRead

theorem largeDisk_entry (e : Nat) (he : e < 70000) : largeVolume.fatEntry largeDisk e = e + 1 := by
  have hbyte : ∀ j < 4, (largeDisk (32 * 512 + (4 * e + j))).toNat = (e + 1) / 256 ^ j % 256 := by
    intro j hj
    have hdiv : (32 * 512 + (4 * e + j) - 16384) / 4 = e := by omega
    have hmod : (32 * 512 + (4 * e + j) - 16384) % 4 = j := by omega
    rw [largeDisk, hdiv, hmod, UInt8.toNat_ofNat']
  have h0 := hbyte 0 (by decide)
  have h1 := hbyte 1 (by decide)
  have h2 := hbyte 2 (by decide)
  have h3 := hbyte 3 (by decide)
  simp only [FsData.fatEntry, largeVolume, largeFs, fat2cpu32]
  simp only [Nat.add_zero, Nat.pow_zero, Nat.pow_one, Nat.div_one, Nat.reducePow] at h0 h1 h2 h3
  omega

theorem largeDisk_chain (i : Nat) (hi : i ≤ 65536) : largeVolume.chain largeDisk 2 i = 2 + i := by
  induction i with
  | zero => rfl
  | succ i ih => rw [FsData.chain, ih (by omega), largeDisk_entry _ (by omega), Nat.add_assoc]

theorem largeDisk_chainFor {size : Nat} (hsize : size < 2 ^ 32) : largeVolume.ChainFor largeDisk 2 size := by
  intro i hi
  have hbpc : largeVolume.bytesPerClust = 65536 := rfl
  rw [hbpc] at hi
  rw [largeDisk_chain i (by omega)]
  refine ⟨by omega, by simp only [largeVolume]; omega, fun _ => ?_⟩
  simp only [checkClust, largeVolume, largeFs, ne_eq, not_true_eq_false, if_false, decide_eq_false_iff_not]
  omega

end FatRead

/-- The first bytes of a file, read after a lookup. -/
theorem get_contents_reads_file_start :
    ReadsFile largeDisk largeVolume.toFsData ([5].foldl (fun fb entry => (getFatent largeDisk largeVolume.toFsData fb entry).2)
      ⟨2 ^ 32 - 1, fun _ => 0⟩) (fun _ => 0) (fun _ => 0) ⟨0, 2, 0x100000⟩ 65530 1 0x10000 :=
  (get_contents_reads_file largeVolume largeDisk (fun _ => 0) [5] (fun _ => 0) (fun _ => 0) ⟨0, 2, 0x100000⟩ 65530 1 0x10000
    (largeDisk_chainFor (by decide)) (by decide)).2 (Or.inr ⟨by decide, by decide, Or.inr (by decide)⟩)

/-- The last byte of the largest file there can be is not read. -/
theorem get_contents_reads_file_false :
    largeVolume.ChainFor largeDisk (largeVolume.start ⟨0, 2, 0xffffffff⟩) (⟨0, 2, 0xffffffff⟩ : DirEntry).size.toNat ∧
    0xfffffffe + 1 < 2 ^ 32 ∧
    ¬ ReadsFile largeDisk largeVolume.toFsData ⟨2 ^ 32 - 1, fun _ => 0⟩ (fun _ => 0) (fun _ => 0) ⟨0, 2, 0xffffffff⟩ 0xfffffffe 0 1 := by
  have hchain : largeVolume.ChainFor largeDisk (largeVolume.start ⟨0, 2, 0xffffffff⟩) (⟨0, 2, 0xffffffff⟩ : DirEntry).size.toNat :=
    largeDisk_chainFor (by decide)
  refine ⟨hchain, by decide, ?_⟩
  rw [readsFile_iff (bufOk_new (by decide) _) hchain (by decide)]
  rintro (hpast | ⟨-, hseek, -⟩)
  · exact absurd hpast (by decide)
  · exact absurd hseek (by decide)

end UBoot
