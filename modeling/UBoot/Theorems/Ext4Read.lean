import UBoot.Ext4Read
import Mathlib.Data.List.Basic

/-!
# What is read of a file of an ext4 file system

`ext4fs_read_file` puts reads off and joins them. A read that is put off is as good as one that was made.
-/

namespace UBoot

open List

namespace Ext4Read

open Lib

variable {disk mem : Nat → UInt8} {m : Nat → Nat} {s : ReadFile} {K size pos len i : Nat}
variable {t : Direct} {bs cnt : Nat}

/-! ## Reads that are made at once -/

def bytesAt (disk : Nat → UInt8) (off n : Nat) : List UInt8 := (List.range n).map fun j => disk (off + j)

/-- An `ext4fs_devread` that reads just the bytes asked for. -/
def exactDevread (disk : Nat → UInt8) : Devread := fun sector byteOffset byteLen =>
  some (bytesAt disk (512 * sector + byteOffset) byteLen.toNat)

theorem bytesAt_append (disk : Nat → UInt8) (off n k : Nat) : bytesAt disk off (n + k) = bytesAt disk off n ++ bytesAt disk (off + n) k := by
  rw [bytesAt, range_add, map_append, map_map, ← bytesAt]
  congr 1
  refine map_congr_left fun j _ => ?_
  rw [Function.comp_apply, Nat.add_assoc]

@[simp] theorem length_bytesAt (disk : Nat → UInt8) (off n : Nat) : (bytesAt disk off n).length = n := by
  rw [bytesAt, length_map, length_range]

theorem getElem?_bytesAt (disk : Nat → UInt8) (off : Nat) {n j : Nat} (hj : j < n) : (bytesAt disk off n)[j]? = some (disk (off + j)) := by
  rw [bytesAt, getElem?_map, getElem?_range hj, Option.map_some]

/-- What comes next: the sector on the disk that is joined to the last read, and where its bytes come from and go to. -/
structure Ahead where
  sector : Nat
  off : Nat
  buf : Nat

/-- The memory and the buffer when no read is put off. -/
structure Direct where
  mem : Nat → UInt8
  buf : Nat
  ahead : Option Ahead

/-- Where the bytes of a block come from and go to. -/
def Direct.place (t : Direct) (blknr skip : Nat) : Nat × Nat :=
  match t.ahead with
  | some a => if a.sector = blknr then (a.off, a.buf) else (512 * blknr + skip, t.buf)
  | none => (512 * blknr + skip, t.buf)

/-- The bytes of a block are read at once. -/
def Direct.data (disk : Nat → UInt8) (blknr skip n : Nat) (t : Direct) : Direct :=
  let (off, buf) := t.place blknr skip
  { t with mem := store t.mem buf (bytesAt disk off n), ahead := some ⟨blknr + n / 512, off + n, buf + n⟩ }

def Direct.hole (n : Nat) (t : Direct) : Direct := ⟨store t.mem t.buf (List.replicate n 0), t.buf, none⟩

/-- A read that is put off, and what comes next once it is made. -/
inductive Pending (disk mem : Nat → UInt8) : Option Delayed → (Nat → UInt8) → Option Ahead → Prop
  | none : Pending disk mem none mem none
  | some (start e skipfirst next buf : Nat) :
    Pending disk mem (some ⟨start, (e : Int), skipfirst, (next : Int), buf⟩)
      (store mem buf (bytesAt disk (512 * start + skipfirst) e)) (some ⟨next, 512 * start + skipfirst + e, buf + e⟩)

/-- The state with a read that is put off and the state where it was made. -/
structure Sim (disk : Nat → UInt8) (s : ReadFile) (t : Direct) : Prop where
  buf : s.buf = t.buf
  pending : Pending disk s.mem s.delayed t.mem t.ahead

theorem Pending.spill {delayed : Option Delayed} {mem' : Nat → UInt8} {ahead : Option Ahead} (h : Pending disk mem delayed mem' ahead) :
    spill (exactDevread disk) mem delayed = .ok mem' := by
  cases h with
  | none => rfl
  | some start e skipfirst next buf => rfl

theorem Sim.hole (h : Sim disk s t) (n : Nat) : ∃ s', readFileHole (exactDevread disk) n s = .ok s' ∧ Sim disk s' (t.hole n) := by
  refine ⟨⟨store t.mem s.buf (List.replicate n 0), s.buf, none⟩, ?_, h.buf, ?_⟩
  · rw [readFileHole, h.pending.spill]
  · rw [Direct.hole, ← h.buf]
    exact Pending.none

theorem Sim.data (h : Sim disk s t) (blknr skip n : Nat) :
    ∃ s', readFileData (exactDevread disk) blknr skip n s = .ok s' ∧ Sim disk s' (t.data disk blknr skip n) := by
  obtain ⟨smem, sbuf, delayed⟩ := s
  obtain ⟨tmem, tbuf, ahead⟩ := t
  obtain ⟨hbuf, hp⟩ := h
  simp only at hbuf hp
  subst hbuf
  have hfresh := @Pending.some disk tmem blknr n skip (blknr + n / 512) sbuf
  have hspill := hp.spill
  cases hp with
  | none => exact ⟨⟨smem, sbuf, some ⟨blknr, n, skip, (blknr + n / 512 : Nat), sbuf⟩⟩, rfl, rfl, hfresh⟩
  | some start e skipfirst next buf =>
    by_cases hnext : next = blknr
    · -- the bytes go behind those of the read that was put off
      have hjoin := store_store smem buf (bytesAt disk (512 * start + skipfirst) e) (bytesAt disk (512 * start + skipfirst + e) n)
      rw [length_bytesAt, ← bytesAt_append] at hjoin
      have hp := @Pending.some disk smem start (e + n) skipfirst (next + n / 512) buf
      rw [← hjoin, ← Nat.add_assoc, ← Nat.add_assoc] at hp
      subst hnext
      refine ⟨⟨smem, sbuf, some ⟨start, (e + n : Nat), skipfirst, (next + n / 512 : Nat), buf⟩⟩, ?_, rfl, ?_⟩
      · simp only [readFileData, if_true]
        rfl
      · simpa only [Direct.data, Direct.place, if_true] using hp
    · refine ⟨⟨store smem buf (bytesAt disk (512 * start + skipfirst) e), sbuf, some ⟨blknr, n, skip, (blknr + n / 512 : Nat), sbuf⟩⟩,
        ?_, rfl, ?_⟩
      · simp only [readFileData, Int.natCast_inj, hnext, if_false, hspill]
        rfl
      · simpa only [Direct.data, Direct.place, hnext, if_false] using hfresh

/-! ## The blocks one after the other -/

/-- Where block `i` starts in the buffer. -/
def startOf (bs pos i : Nat) : Nat := i * bs - pos

theorem startOf_first (bs pos : Nat) : startOf bs pos (pos / bs) = 0 := Nat.sub_eq_zero_of_le (Nat.div_mul_le_self pos bs)

theorem startOf_add_pos (hbs : 0 < bs) (hi : pos / bs ≤ i) : startOf bs pos i + pos = i * bs + readFileSkip bs pos i := by
  have hdiv := Nat.div_add_mod' pos bs
  have hmod := Nat.mod_lt pos hbs
  unfold startOf readFileSkip
  split
  · next h =>
    rw [h]
    omega
  · next h =>
    have hle := Nat.mul_le_mul_right bs (show pos / bs + 1 ≤ i by omega)
    rw [Nat.succ_mul] at hle
    omega

theorem readFileSkip_lt (hbs : 0 < bs) (pos i : Nat) : readFileSkip bs pos i < bs := by
  unfold readFileSkip
  split
  · exact Nat.mod_lt pos hbs
  · exact hbs

theorem startOf_succ (hbs : 0 < bs) (hi : pos / bs ≤ i) :
    startOf bs pos (i + 1) = startOf bs pos i + (bs - readFileSkip bs pos i) := by
  have h := startOf_add_pos hbs hi
  have h' := startOf_add_pos hbs (show pos / bs ≤ i + 1 by omega)
  have hlt := readFileSkip_lt hbs pos i
  have hz : readFileSkip bs pos (i + 1) = 0 := if_neg (by omega)
  rw [hz, Nat.succ_mul] at h'
  omega

theorem lt_blockcnt_iff (hbs : 0 < bs) (hfit : len + pos + bs ≤ 2 ^ 32) :
    i < readFileBlockcnt bs pos len ↔ i * bs < len + pos := by
  unfold readFileBlockcnt
  rw [Nat.mod_eq_of_lt (show len + pos < 2 ^ 32 by omega), Nat.mod_eq_of_lt (by omega), Nat.lt_iff_add_one_le,
    Nat.le_div_iff_mul_le hbs, Nat.succ_mul]
  omega

theorem blockcnt_of_wrap (hbs : bs ≤ 2 ^ 30) (hpos : pos < 2 ^ 31) (hlen : len < 2 ^ 31)
    (hwrap : 2 ^ 32 < len + pos + bs) : readFileBlockcnt bs pos len = 0 := by
  unfold readFileBlockcnt
  have h : ((len + pos) % 2 ^ 32 + (bs - 1)) % 2 ^ 32 = len + pos + bs - 1 - 2 ^ 32 := by omega
  rw [h]
  exact Nat.div_eq_of_lt (by omega)

theorem startOf_le (h : i * bs < len + pos) : startOf bs pos i ≤ len := by
  unfold startOf
  omega

theorem readFileEnd_eq (hbs : 0 < bs) (hfit : len + pos + bs ≤ 2 ^ 32) (hi : pos / bs ≤ i)
    (hcnt : i < readFileBlockcnt bs pos len) :
    readFileEnd bs pos len (readFileBlockcnt bs pos len) i = ((min (startOf bs pos (i + 1)) len - startOf bs pos i : Nat) : Int) := by
  have hstart := startOf_add_pos hbs hi
  have hsucc := startOf_succ hbs hi
  have hskip := readFileSkip_lt hbs pos i
  have hlt := (lt_blockcnt_iff hbs hfit).1 hcnt
  have hle := startOf_le hlt
  have hnext : i + 1 < readFileBlockcnt bs pos len ↔ (i + 1) * bs < len + pos := lt_blockcnt_iff hbs hfit
  rw [Nat.succ_mul] at hnext
  have hmod : i + 1 = readFileBlockcnt bs pos len → (if (len + pos) % bs = 0 then bs else (len + pos) % bs) = len + pos - i * bs := by
    intro hlast
    have hpart : len + pos = i * bs + (len + pos - i * bs) := by omega
    have heq : (len + pos) % bs = (len + pos - i * bs) % bs := by
      rw [hpart, Nat.mul_comm, Nat.mul_add_mod, Nat.add_sub_cancel_left]
    rcases Nat.lt_or_eq_of_le (show len + pos - i * bs ≤ bs by omega) with h | h
    · rw [heq, Nat.mod_eq_of_lt h, if_neg (by omega)]
    · rw [heq, h, Nat.mod_self, if_pos rfl]
  unfold readFileEnd
  simp only [Nat.mod_eq_of_lt (show len + pos < 2 ^ 32 by omega)]
  split
  · next hlast =>
    rw [hmod hlast]
    omega
  · next hlast => omega

/-- What is read of block `i`, and the rest of its place in the buffer. -/
def partOf (bs pos len i : Nat) : Nat := min (startOf bs pos (i + 1)) len - startOf bs pos i

/-- A block when no read is put off. -/
def Direct.block (disk : Nat → UInt8) (m : Nat → Nat) (K pos len : Nat) (t : Direct) (i : Nat) : Direct :=
  let bs := 2 ^ (K + SECTOR_BITS)
  let skip := readFileSkip bs pos i
  let t := if m i = 0 then t.hole (bs - skip) else t.data disk (m i * 2 ^ K) skip (partOf bs pos len i)
  { t with buf := t.buf + (bs - skip) }

/-- The blocks up to `i`. -/
def Direct.run (disk : Nat → UInt8) (m : Nat → Nat) (K pos len : Nat) (mem : Nat → UInt8) (k : Nat) : Direct :=
  (List.range' (pos / 2 ^ (K + SECTOR_BITS)) k).foldl (Direct.block disk m K pos len) ⟨mem, 0, none⟩

theorem Sim.block (h : Sim disk s t)
    (hend : readFileEnd (2 ^ (K + SECTOR_BITS)) pos len cnt i = (partOf (2 ^ (K + SECTOR_BITS)) pos len i : Nat)) :
    ∃ s', readFileBlock (exactDevread disk) (fun i => m i) K pos len cnt s i = .ok s' ∧ Sim disk s' (t.block disk m K pos len i) := by
  simp only [readFileBlock, Direct.block, hend, Int.toNat_natCast]
  rw [if_neg (by omega)]
  by_cases hm : m i = 0
  · obtain ⟨s', heq, hs⟩ := h.hole (2 ^ (K + SECTOR_BITS) - readFileSkip (2 ^ (K + SECTOR_BITS)) pos i)
    rw [if_neg (by rw [hm, Nat.zero_mul]; exact fun h => h rfl), if_pos hm, heq]
    exact ⟨_, rfl, congrArg (· + _) hs.buf, hs.pending⟩
  · obtain ⟨s', heq, hs⟩ := h.data (m i * 2 ^ K) (readFileSkip (2 ^ (K + SECTOR_BITS)) pos i) (partOf (2 ^ (K + SECTOR_BITS)) pos len i)
    rw [if_pos (Nat.mul_ne_zero hm (Nat.ne_of_gt (Nat.two_pow_pos K))), if_neg hm, heq]
    exact ⟨_, rfl, congrArg (· + _) hs.buf, hs.pending⟩

theorem Sim.blocks {blocks : List Nat}
    (hend : ∀ i ∈ blocks, readFileEnd (2 ^ (K + SECTOR_BITS)) pos len cnt i = (partOf (2 ^ (K + SECTOR_BITS)) pos len i : Nat)) :
    ∀ {s t}, Sim disk s t → ∃ s', blocks.foldlM (readFileBlock (exactDevread disk) (fun i => m i) K pos len cnt) s = .ok s' ∧
      Sim disk s' (blocks.foldl (Direct.block disk m K pos len) t) := by
  induction blocks with
  | nil => exact fun {s t} h => ⟨s, rfl, h⟩
  | cons i blocks ih =>
    intro s t h
    obtain ⟨s₁, heq, hs⟩ := h.block (m := m) (hend i (mem_cons_self ..))
    obtain ⟨s', heq', hs'⟩ := ih (fun j hj => hend j (mem_cons_of_mem i hj)) hs
    refine ⟨s', ?_, hs'⟩
    rw [foldlM_cons, heq]
    exact heq'

theorem ext4fsReadFile_eq_run (hlen : len ≤ size) (hfit : len + pos + 2 ^ (K + SECTOR_BITS) ≤ 2 ^ 32) :
    ext4fsReadFile (exactDevread disk) (fun i => m i) K size pos len mem = (toLong len, (Direct.run disk m K pos len mem
        (readFileBlockcnt (2 ^ (K + SECTOR_BITS)) pos len - pos / 2 ^ (K + SECTOR_BITS))).mem) := by
  have hbs := Nat.two_pow_pos (K + SECTOR_BITS)
  have hend : ∀ i ∈ List.range' (pos / 2 ^ (K + SECTOR_BITS)) (readFileBlockcnt (2 ^ (K + SECTOR_BITS)) pos len - pos / 2 ^ (K + SECTOR_BITS)),
      readFileEnd (2 ^ (K + SECTOR_BITS)) pos len (readFileBlockcnt (2 ^ (K + SECTOR_BITS)) pos len) i =
        (partOf (2 ^ (K + SECTOR_BITS)) pos len i : Nat) := by
    intro i hi
    obtain ⟨h1, h2⟩ := mem_range'_1.1 hi
    exact readFileEnd_eq hbs hfit h1 (by omega)
  obtain ⟨s, heq, hs⟩ := Sim.blocks (m := m) hend (s := ⟨mem, 0, none⟩) (t := ⟨mem, 0, none⟩) ⟨rfl, Pending.none⟩
  simp only [ext4fsReadFile, if_neg (show ¬ size < len by omega)]
  rw [heq]
  simp only [hs.pending.spill]
  rfl

/-! ## What the blocks bring -/

def fileByte (disk : Nat → UInt8) (m : Nat → Nat) (bs x : Nat) : UInt8 :=
  if m (x / bs) = 0 then 0 else disk (m (x / bs) * bs + x % bs)

/-- The buffer with the first `n` bytes of what is read. -/
def filled (disk : Nat → UInt8) (m : Nat → Nat) (bs pos : Nat) (mem : Nat → UInt8) (n : Nat) : Nat → UInt8 :=
  fun j => if j < n then fileByte disk m bs (pos + j) else mem j

theorem fileByte_block (disk : Nat → UInt8) (m : Nat → Nat) {j : Nat} (hi : pos / bs ≤ i) (hj : readFileSkip bs pos i + j < bs) :
    fileByte disk m bs (pos + (startOf bs pos i + j)) =
      if m i = 0 then 0 else disk (m i * bs + readFileSkip bs pos i + j) := by
  have hbs : 0 < bs := Nat.zero_lt_of_lt hj
  have hx : pos + (startOf bs pos i + j) = bs * i + (readFileSkip bs pos i + j) := by
    have := startOf_add_pos hbs hi
    rw [Nat.mul_comm]
    omega
  rw [fileByte, hx, Nat.mul_add_div hbs, Nat.div_eq_of_lt hj, Nat.mul_add_mod, Nat.mod_eq_of_lt hj, Nat.add_zero, Nat.add_assoc]

theorem store_filled (disk mem : Nat → UInt8) (m : Nat → Nat) (xs : List UInt8)
    (hle : startOf bs pos i ≤ len) (hmono : startOf bs pos i ≤ startOf bs pos (i + 1))
    (hlen : xs.length = partOf bs pos len i)
    (hxs : ∀ j, j < partOf bs pos len i → xs[j]? = some (fileByte disk m bs (pos + (startOf bs pos i + j)))) :
    store (filled disk m bs pos mem (min (startOf bs pos i) len)) (startOf bs pos i) xs =
      filled disk m bs pos mem (min (startOf bs pos (i + 1)) len) := by
  funext a
  unfold partOf at hlen hxs
  rcases Nat.lt_or_ge a (startOf bs pos i) with h | h
  · rw [store_of_outside (Or.inl h), filled, filled, if_pos (by omega), if_pos (by omega)]
  · obtain ⟨j, rfl⟩ := Nat.exists_eq_add_of_le h
    by_cases hj : j < min (startOf bs pos (i + 1)) len - startOf bs pos i
    · rw [stored_store _ _ xs j _ (hxs j hj), filled, if_pos (by omega)]
    · rw [store_of_outside (Or.inr (by omega)), filled, filled, if_neg (by omega), if_neg (by omega)]

theorem Direct.block_buf (t : Direct) : (t.block disk m K pos len i).buf =
    t.buf + (2 ^ (K + SECTOR_BITS) - readFileSkip (2 ^ (K + SECTOR_BITS)) pos i) := by
  unfold Direct.block
  by_cases hm : m i = 0
  · simp only [if_pos hm, Direct.hole]
  · simp only [if_neg hm, Direct.data]

theorem Direct.block_hole (t : Direct) (hm : m i = 0) : (t.block disk m K pos len i).mem =
        store t.mem t.buf (List.replicate (2 ^ (K + SECTOR_BITS) - readFileSkip (2 ^ (K + SECTOR_BITS)) pos i) 0) ∧
      (t.block disk m K pos len i).ahead = none := by
  simp only [Direct.block, if_pos hm, Direct.hole, and_self]

theorem Direct.block_data (t : Direct) (hm : m i ≠ 0) :
    let place := t.place (m i * 2 ^ K) (readFileSkip (2 ^ (K + SECTOR_BITS)) pos i)
    let n := partOf (2 ^ (K + SECTOR_BITS)) pos len i
    (t.block disk m K pos len i).mem = store t.mem place.2 (bytesAt disk place.1 n) ∧
      (t.block disk m K pos len i).ahead = some ⟨m i * 2 ^ K + n / 512, place.1 + n, place.2 + n⟩ := by
  simp only [Direct.block, if_neg hm, Direct.data, and_self]

theorem Direct.run_succ (k : Nat) : Direct.run disk m K pos len mem (k + 1) =
    (Direct.run disk m K pos len mem k).block disk m K pos len (pos / 2 ^ (K + SECTOR_BITS) + k) := by
  rw [Direct.run, range'_1_concat, foldl_append]
  rfl

theorem Direct.run_buf (k : Nat) : (Direct.run disk m K pos len mem k).buf =
    startOf (2 ^ (K + SECTOR_BITS)) pos (pos / 2 ^ (K + SECTOR_BITS) + k) := by
  induction k with
  | zero => exact (startOf_first ..).symm
  | succ k ih => rw [Direct.run_succ, Direct.block_buf, ih, ← Nat.add_assoc, startOf_succ (Nat.two_pow_pos _) (Nat.le_add_right ..)]

theorem partOf_full (hbs : 0 < bs) (hi : pos / bs ≤ i) (hnext : (i + 1) * bs ≤ len + pos) :
    partOf bs pos len i = bs - readFileSkip bs pos i := by
  have h := startOf_succ hbs hi
  unfold partOf startOf at *
  omega

theorem Direct.place_buf (h : ∀ a, t.ahead = some a → a.buf = t.buf) (blknr skip : Nat) : (t.place blknr skip).2 = t.buf := by
  unfold Direct.place
  split
  · next a ha =>
    split
    · exact h a ha
    · rfl
  · rfl

/-- What comes next goes to where the next block starts. -/
theorem Direct.run_tight (k : Nat) (hlt : (pos / 2 ^ (K + SECTOR_BITS) + k) * 2 ^ (K + SECTOR_BITS) < len + pos) :
    ∀ a, (Direct.run disk m K pos len mem k).ahead = some a → a.buf = (Direct.run disk m K pos len mem k).buf := by
  induction k with
  | zero => exact fun a ha => absurd ha (by simp [Direct.run])
  | succ k ih =>
    have hbs := Nat.two_pow_pos (K + SECTOR_BITS)
    rw [← Nat.add_assoc] at hlt
    have hfull := partOf_full hbs (Nat.le_add_right ..) (Nat.le_of_lt hlt)
    rw [Nat.succ_mul] at hlt
    intro a ha
    rw [Direct.run_succ] at ha ⊢
    by_cases hm : m (pos / 2 ^ (K + SECTOR_BITS) + k) = 0
    · rw [(Direct.block_hole _ hm).2] at ha
      cases ha
    · rw [(Direct.block_data _ hm).2, Direct.place_buf (ih (by omega)), hfull] at ha
      rw [← Option.some.inj ha, Direct.block_buf]

/-- The blocks that follow leave what was read before alone. -/
theorem Direct.run_frame {k n j : Nat} (hj : j < startOf (2 ^ (K + SECTOR_BITS)) pos (pos / 2 ^ (K + SECTOR_BITS) + k))
    (hn : ∀ l, l < n → (pos / 2 ^ (K + SECTOR_BITS) + (k + l)) * 2 ^ (K + SECTOR_BITS) < len + pos) :
    (Direct.run disk m K pos len mem (k + n)).mem j = (Direct.run disk m K pos len mem k).mem j := by
  induction n with
  | zero => rfl
  | succ n ih =>
    have hmono : startOf (2 ^ (K + SECTOR_BITS)) pos (pos / 2 ^ (K + SECTOR_BITS) + k) ≤
        startOf (2 ^ (K + SECTOR_BITS)) pos (pos / 2 ^ (K + SECTOR_BITS) + (k + n)) :=
      Nat.sub_le_sub_right (Nat.mul_le_mul_right _ (by omega)) _
    rw [← Nat.add_assoc, Direct.run_succ, ← ih fun l hl => hn l (Nat.lt_succ_of_lt hl)]
    by_cases hm : m (pos / 2 ^ (K + SECTOR_BITS) + (k + n)) = 0
    · rw [(Direct.block_hole _ hm).1, Direct.run_buf]
      exact store_of_outside (Or.inl (by omega))
    · rw [(Direct.block_data _ hm).1, Direct.place_buf (Direct.run_tight (k + n) (hn n (Nat.lt_succ_self n))), Direct.run_buf]
      exact store_of_outside (Or.inl (by omega))

/-! ## When the file is read -/

/-- The second block is not the first one again, right behind the end of it. -/
def NoRepeat (m : Nat → Nat) (bs pos len : Nat) : Prop :=
  ¬(bs - pos % bs < 512 ∧ (pos / bs + 1) * bs < len + pos ∧ m (pos / bs) ≠ 0 ∧ m (pos / bs + 1) = m (pos / bs))

/-- What comes next is where the next block is, if it is joined. -/
structure Linked (m : Nat → Nat) (K f i : Nat) (t : Direct) : Prop where
  first : i = f → t.ahead = none
  off : ∀ a, t.ahead = some a → a.sector = m i * 2 ^ K → a.off = m i * 2 ^ (K + SECTOR_BITS)

theorem sector_bytes (K n : Nat) : 512 * (n * 2 ^ K) = n * 2 ^ (K + SECTOR_BITS) := by
  rw [Nat.pow_add, show 2 ^ SECTOR_BITS = 512 from rfl, Nat.mul_left_comm, Nat.mul_comm 512]

/-- A block comes from where it is, joined or not. -/
theorem Linked.place (h : Linked m K (pos / 2 ^ (K + SECTOR_BITS)) i t) :
    (t.place (m i * 2 ^ K) (readFileSkip (2 ^ (K + SECTOR_BITS)) pos i)).1 =
      m i * 2 ^ (K + SECTOR_BITS) + readFileSkip (2 ^ (K + SECTOR_BITS)) pos i := by
  unfold Direct.place
  split
  · next a ha =>
    split
    · next hs =>
      have hi : i ≠ pos / 2 ^ (K + SECTOR_BITS) := by
        intro hi
        rw [h.first hi] at ha
        cases ha
      rw [h.off a ha hs, readFileSkip, if_neg hi, Nat.add_zero]
    · rw [sector_bytes]
  · rw [sector_bytes]

/-- A block that is joined to the one before it comes right behind it on the disk. -/
theorem next_block (hrep : NoRepeat m (2 ^ (K + SECTOR_BITS)) pos len) (hlt : (i + 1) * 2 ^ (K + SECTOR_BITS) < len + pos) (hm : m i ≠ 0)
    (hs : m i * 2 ^ K + (2 ^ (K + SECTOR_BITS) - readFileSkip (2 ^ (K + SECTOR_BITS)) pos i) / 512 = m (i + 1) * 2 ^ K) :
    m (i + 1) = m i + 1 := by
  have hP := Nat.two_pow_pos K
  have hbytes : 2 ^ (K + SECTOR_BITS) = 2 ^ K * 512 := Nat.pow_add ..
  rcases Nat.eq_zero_or_pos (readFileSkip (2 ^ (K + SECTOR_BITS)) pos i) with h0 | hpos
  · rw [h0, Nat.sub_zero, hbytes, Nat.mul_div_cancel _ (by decide), ← Nat.succ_mul] at hs
    exact (Nat.eq_of_mul_eq_mul_right hP hs).symm
  · -- this is the first block, and less than a block of it is read
    have hq : (2 ^ (K + SECTOR_BITS) - readFileSkip (2 ^ (K + SECTOR_BITS)) pos i) / 512 < 2 ^ K := by
      apply Nat.div_lt_of_lt_mul
      omega
    have hfirst : i = pos / 2 ^ (K + SECTOR_BITS) := by
      by_contra h
      rw [readFileSkip, if_neg h] at hpos
      exact absurd hpos (Nat.lt_irrefl 0)
    have hsame : m (i + 1) = m i := by
      have h := congrArg (· / 2 ^ K) hs
      rw [Nat.mul_comm (m i), Nat.mul_add_div hP, Nat.div_eq_of_lt hq, Nat.mul_div_cancel _ hP, Nat.add_zero] at h
      exact h.symm
    rw [hsame] at hs
    refine absurd ⟨?_, ?_, ?_, ?_⟩ hrep
    · rw [readFileSkip, if_pos hfirst] at hs
      omega
    · rwa [← hfirst]
    · rwa [← hfirst]
    · rwa [← hfirst]

theorem Direct.run_linked (hrep : NoRepeat m (2 ^ (K + SECTOR_BITS)) pos len) (k : Nat)
    (hlt : (pos / 2 ^ (K + SECTOR_BITS) + k) * 2 ^ (K + SECTOR_BITS) < len + pos) :
    Linked m K (pos / 2 ^ (K + SECTOR_BITS)) (pos / 2 ^ (K + SECTOR_BITS) + k) (Direct.run disk m K pos len mem k) := by
  induction k with
  | zero => exact ⟨fun _ => rfl, fun a ha => absurd ha (by simp [Direct.run])⟩
  | succ k ih =>
    have hbs := Nat.two_pow_pos (K + SECTOR_BITS)
    have hP := Nat.two_pow_pos K
    rw [← Nat.add_assoc] at hlt ⊢
    have hfull := partOf_full hbs (Nat.le_add_right ..) (Nat.le_of_lt hlt)
    have hlt' := hlt
    rw [Nat.succ_mul] at hlt'
    have hih := ih (by omega)
    rw [Direct.run_succ]
    refine ⟨fun h => absurd h (by omega), fun a ha hs => ?_⟩
    by_cases hm : m (pos / 2 ^ (K + SECTOR_BITS) + k) = 0
    · rw [(Direct.block_hole _ hm).2] at ha
      cases ha
    · rw [(Direct.block_data _ hm).2, hih.place, hfull] at ha
      have ha := Option.some.inj ha
      rw [← ha] at hs
      rw [← ha, next_block hrep hlt hm hs, Nat.succ_mul]
      have hskip := readFileSkip_lt hbs pos (pos / 2 ^ (K + SECTOR_BITS) + k)
      simp only
      omega

/-- The last block that is read is not a hole, or it is read up to its end. -/
def NoPartialHole (m : Nat → Nat) (bs pos len : Nat) : Prop := (pos + len) % bs ≠ 0 → m ((pos + len) / bs) ≠ 0

theorem hole_inside (hhole : NoPartialHole m bs pos len) (hlt : i * bs < len + pos) (hm : m i = 0) : (i + 1) * bs ≤ len + pos := by
  by_contra h
  rw [Nat.succ_mul] at h
  have hx : pos + len = bs * i + (pos + len - bs * i) := by
    rw [Nat.mul_comm]
    omega
  have hr : pos + len - bs * i < bs := by
    rw [Nat.mul_comm]
    omega
  refine hhole ?_ ?_
  · rw [hx, Nat.mul_add_mod, Nat.mod_eq_of_lt hr, Nat.mul_comm]
    omega
  · rw [hx, Nat.mul_add_div (Nat.zero_lt_of_lt hr), Nat.div_eq_of_lt hr]
    exact hm

theorem Direct.run_filled (hrep : NoRepeat m (2 ^ (K + SECTOR_BITS)) pos len) (hhole : NoPartialHole m (2 ^ (K + SECTOR_BITS)) pos len)
    (k : Nat) (hk : ∀ l, l < k → (pos / 2 ^ (K + SECTOR_BITS) + l) * 2 ^ (K + SECTOR_BITS) < len + pos) :
    (Direct.run disk m K pos len mem k).mem = filled disk m (2 ^ (K + SECTOR_BITS)) pos mem
      (min (startOf (2 ^ (K + SECTOR_BITS)) pos (pos / 2 ^ (K + SECTOR_BITS) + k)) len) := by
  induction k with
  | zero =>
    rw [Nat.add_zero, startOf_first, Nat.zero_min]
    rfl
  | succ k ih =>
    have hbs := Nat.two_pow_pos (K + SECTOR_BITS)
    have hi : pos / 2 ^ (K + SECTOR_BITS) ≤ pos / 2 ^ (K + SECTOR_BITS) + k := Nat.le_add_right ..
    have hlt := hk k (Nat.lt_succ_self k)
    have hskip := readFileSkip_lt hbs pos (pos / 2 ^ (K + SECTOR_BITS) + k)
    have hsucc := startOf_succ hbs hi
    have hfill (xs : List UInt8) := store_filled disk mem m xs (startOf_le hlt) (Nat.le.intro hsucc.symm)
    rw [Direct.run_succ, ← Nat.add_assoc]
    by_cases hm : m (pos / 2 ^ (K + SECTOR_BITS) + k) = 0
    · have hfull := partOf_full hbs hi (hole_inside hhole hlt hm)
      rw [(Direct.block_hole _ hm).1, Direct.run_buf, ih fun l hl => hk l (Nat.lt_succ_of_lt hl)]
      refine hfill _ ?_ fun j hj => ?_
      · rw [length_replicate, hfull]
      · rw [hfull] at hj
        rw [getElem?_replicate_of_lt hj, fileByte_block _ _ hi (by omega), if_pos hm]
    · rw [(Direct.block_data _ hm).1, (Direct.run_linked hrep k hlt).place, Direct.place_buf (Direct.run_tight k hlt), Direct.run_buf,
        ih fun l hl => hk l (Nat.lt_succ_of_lt hl)]
      refine hfill _ (length_bytesAt ..) fun j hj => ?_
      have hle : partOf (2 ^ (K + SECTOR_BITS)) pos len (pos / 2 ^ (K + SECTOR_BITS) + k) ≤
          2 ^ (K + SECTOR_BITS) - readFileSkip (2 ^ (K + SECTOR_BITS)) pos (pos / 2 ^ (K + SECTOR_BITS) + k) := by
        unfold partOf
        omega
      rw [getElem?_bytesAt _ _ hj, fileByte_block _ _ hi (by omega), if_neg hm]

/-- The input of `ext4fs_read_file`: sector numbers are below 2 ^ 31. -/
structure FileInput (m : Nat → Nat) (K size pos len : Nat) : Prop where
  log2 : K ≤ 21
  size : size < 2 ^ 32
  pos : pos < 2 ^ 31
  len : len < 2 ^ 32
  sectors : ∀ i, m i * 2 ^ K < 2 ^ 31

/-- The bytes of the file that there are come into the buffer, and nothing else is written. -/
def ReadsFile (m : Nat → Nat) (K size pos len : Nat) : Prop :=
  ∀ disk mem, ext4fsReadFile (exactDevread disk) (fun i => m i) K size pos len mem =
    (((min len (size - pos) : Nat) : Int), filled disk m (2 ^ (K + SECTOR_BITS)) pos mem (min len (size - pos)))

/-- The length that was cut to that of the file stays within it, the end of the read does not overflow, no hole is read in part, and the
second block is not joined to itself. -/
structure Readable (m : Nat → Nat) (K size pos len : Nat) : Prop where
  inside : len = 0 ∨ pos + len ≤ size
  int : len < 2 ^ 31
  fit : 0 < len → len + pos + 2 ^ (K + SECTOR_BITS) ≤ 2 ^ 32
  hole : NoPartialHole m (2 ^ (K + SECTOR_BITS)) pos len
  repeats : NoRepeat m (2 ^ (K + SECTOR_BITS)) pos len

theorem spill_exact (disk mem : Nat → UInt8) (delayed : Option Delayed) : ∃ mem', spill (exactDevread disk) mem delayed = .ok mem' := by
  cases delayed with
  | none => exact ⟨mem, rfl⟩
  | some d => exact ⟨_, rfl⟩

theorem readFileBlock_ok (disk : Nat → UInt8) (m : Nat → Nat) (K pos len cnt : Nat) (s : ReadFile) (i : Nat) :
    ∃ s', readFileBlock (exactDevread disk) (fun i => m i) K pos len cnt s i = .ok s' := by
  obtain ⟨mem', hspill⟩ := spill_exact disk s.mem s.delayed
  have hdata (blknr skip : Nat) (blockend : Int) : ∃ s', readFileData (exactDevread disk) blknr skip blockend s = .ok s' := by
    unfold readFileData
    split
    · split
      · exact ⟨_, rfl⟩
      · exact ⟨_, by rw [hspill]⟩
    · exact ⟨_, rfl⟩
  have hhole (n : Nat) : ∃ s', readFileHole (exactDevread disk) n s = .ok s' := ⟨_, by rw [readFileHole, hspill]⟩
  simp only [readFileBlock, if_neg (show ¬((m i : Int) < 0) by omega)]
  split
  · obtain ⟨s', heq⟩ := hdata _ _ _
    exact ⟨_, by rw [heq]; rfl⟩
  · obtain ⟨s', heq⟩ := hhole _
    exact ⟨_, by rw [heq]; rfl⟩

/-- The length is what is returned, once it was cut. -/
theorem ext4fsReadFile_fst (disk mem : Nat → UInt8) (m : Nat → Nat) (K pos : Nat) (hlen : len ≤ size) :
    (ext4fsReadFile (exactDevread disk) (fun i => m i) K size pos len mem).1 = toLong len := by
  have hblocks (cnt : Nat) (blocks : List Nat) :
      ∀ s, ∃ s', blocks.foldlM (readFileBlock (exactDevread disk) (fun i => m i) K pos len cnt) s = .ok s' := by
    induction blocks with
    | nil => exact fun s => ⟨s, rfl⟩
    | cons i blocks ih =>
      intro s
      obtain ⟨s₁, heq⟩ := readFileBlock_ok disk m K pos len cnt s i
      obtain ⟨s', heq'⟩ := ih s₁
      exact ⟨s', by rw [foldlM_cons, heq]; exact heq'⟩
  simp only [ext4fsReadFile, if_neg (show ¬ size < len by omega)]
  obtain ⟨s, heq⟩ := hblocks (readFileBlockcnt (2 ^ (K + SECTOR_BITS)) pos len) (List.range' (pos / 2 ^ (K + SECTOR_BITS))
    (readFileBlockcnt (2 ^ (K + SECTOR_BITS)) pos len - pos / 2 ^ (K + SECTOR_BITS))) ⟨mem, 0, none⟩
  obtain ⟨mem', hspill⟩ := spill_exact disk s.mem s.delayed
  rw [heq]
  simp only [hspill]

theorem ext4fsReadFile_min (devread : Devread) (readAllocatedBlock : Nat → Int) (K size pos len : Nat) (mem : Nat → UInt8) :
    ext4fsReadFile devread readAllocatedBlock K size pos len mem =
      ext4fsReadFile devread readAllocatedBlock K size pos (min len size) mem := by
  have hmin : (if size < len then size else len) = min len size := by
    split <;> omega
  have hmin' : (if size < min len size then size else min len size) = min len size := if_neg (by omega)
  simp only [ext4fsReadFile, hmin, hmin']

theorem run_all (hbs : 0 < bs) (hfit : len + pos + bs ≤ 2 ^ 32) :
    (∀ l, l < readFileBlockcnt bs pos len - pos / bs → (pos / bs + l) * bs < len + pos) ∧
      len ≤ startOf bs pos (pos / bs + (readFileBlockcnt bs pos len - pos / bs)) := by
  refine ⟨fun l hl => (lt_blockcnt_iff hbs hfit).1 (by omega), ?_⟩
  have hend : ¬ (pos / bs + (readFileBlockcnt bs pos len - pos / bs)) * bs < len + pos := by
    rw [← lt_blockcnt_iff hbs hfit]
    omega
  unfold startOf
  omega

theorem bytes_le (hK : K ≤ 21) : 2 ^ (K + SECTOR_BITS) ≤ 2 ^ 30 :=
  Nat.pow_le_pow_right (by decide) (Nat.add_le_add_right hK 9)

/-- A hole that is read in part is filled up to its end. -/
theorem partial_hole (hfit : len + pos + 2 ^ (K + SECTOR_BITS) ≤ 2 ^ 32) (hmod : (pos + len) % 2 ^ (K + SECTOR_BITS) ≠ 0)
    (hm : m ((pos + len) / 2 ^ (K + SECTOR_BITS)) = 0) :
    (Direct.run disk m K pos len mem (readFileBlockcnt (2 ^ (K + SECTOR_BITS)) pos len - pos / 2 ^ (K + SECTOR_BITS))).mem len = 0 := by
  have hbs := Nat.two_pow_pos (K + SECTOR_BITS)
  have hf : pos / 2 ^ (K + SECTOR_BITS) ≤ (pos + len) / 2 ^ (K + SECTOR_BITS) := Nat.div_le_div_right (Nat.le_add_right ..)
  have hsplit := Nat.div_add_mod' (pos + len) (2 ^ (K + SECTOR_BITS))
  have hmodlt := Nat.mod_lt (pos + len) hbs
  obtain ⟨k, hk⟩ := Nat.exists_eq_add_of_le hf
  have hlast : readFileBlockcnt (2 ^ (K + SECTOR_BITS)) pos len - pos / 2 ^ (K + SECTOR_BITS) = k + 1 := by
    have h1 := (lt_blockcnt_iff (i := (pos + len) / 2 ^ (K + SECTOR_BITS)) hbs hfit).2 (by omega)
    have h2 : ¬ (pos + len) / 2 ^ (K + SECTOR_BITS) + 1 < readFileBlockcnt (2 ^ (K + SECTOR_BITS)) pos len := by
      rw [lt_blockcnt_iff hbs hfit, Nat.succ_mul]
      omega
    omega
  rw [hk] at hm hsplit
  have hsucc := startOf_succ (i := pos / 2 ^ (K + SECTOR_BITS) + k) hbs (Nat.le_add_right ..)
  have hle : startOf (2 ^ (K + SECTOR_BITS)) pos (pos / 2 ^ (K + SECTOR_BITS) + k) ≤ len := startOf_le (by omega)
  have hend : len < startOf (2 ^ (K + SECTOR_BITS)) pos (pos / 2 ^ (K + SECTOR_BITS) + k + 1) := by
    unfold startOf
    rw [Nat.succ_mul]
    omega
  obtain ⟨j, hj⟩ := Nat.exists_eq_add_of_le hle
  rw [hlast, Direct.run_succ, (Direct.block_hole _ hm).1, Direct.run_buf]
  generalize startOf (2 ^ (K + SECTOR_BITS)) pos (pos / 2 ^ (K + SECTOR_BITS) + k) = a at *
  rw [hj]
  exact stored_store _ _ _ j 0 (getElem?_replicate_of_lt (by omega))

/-- A block that is joined to itself comes from right behind it on the disk. -/
theorem repeated (hfit : len + pos + 2 ^ (K + SECTOR_BITS) ≤ 2 ^ 32) (hskip : 2 ^ (K + SECTOR_BITS) - pos % 2 ^ (K + SECTOR_BITS) < 512)
    (hnext : (pos / 2 ^ (K + SECTOR_BITS) + 1) * 2 ^ (K + SECTOR_BITS) < len + pos) (hm : m (pos / 2 ^ (K + SECTOR_BITS)) ≠ 0)
    (hsame : m (pos / 2 ^ (K + SECTOR_BITS) + 1) = m (pos / 2 ^ (K + SECTOR_BITS))) :
    (Direct.run disk m K pos len mem (readFileBlockcnt (2 ^ (K + SECTOR_BITS)) pos len - pos / 2 ^ (K + SECTOR_BITS))).mem
        (startOf (2 ^ (K + SECTOR_BITS)) pos (pos / 2 ^ (K + SECTOR_BITS) + 1)) =
      disk (m (pos / 2 ^ (K + SECTOR_BITS)) * 2 ^ (K + SECTOR_BITS) + 2 ^ (K + SECTOR_BITS)) := by
  have hbs := Nat.two_pow_pos (K + SECTOR_BITS)
  have hcnt : pos / 2 ^ (K + SECTOR_BITS) + 1 < readFileBlockcnt (2 ^ (K + SECTOR_BITS)) pos len := (lt_blockcnt_iff hbs hfit).2 hnext
  obtain ⟨n, hn⟩ := Nat.exists_eq_add_of_le (show 2 ≤ readFileBlockcnt (2 ^ (K + SECTOR_BITS)) pos len - pos / 2 ^ (K + SECTOR_BITS) by omega)
  have hfull := partOf_full hbs (Nat.le_refl (pos / 2 ^ (K + SECTOR_BITS))) (Nat.le_of_lt hnext)
  have hskip0 : readFileSkip (2 ^ (K + SECTOR_BITS)) pos (pos / 2 ^ (K + SECTOR_BITS)) = pos % 2 ^ (K + SECTOR_BITS) := if_pos rfl
  have hmodlt := Nat.mod_lt pos hbs
  -- the first block is read, and the sector of its start is the next one
  have h1 : (Direct.run disk m K pos len mem 1).ahead = some ⟨m (pos / 2 ^ (K + SECTOR_BITS)) * 2 ^ K,
      m (pos / 2 ^ (K + SECTOR_BITS)) * 2 ^ (K + SECTOR_BITS) + 2 ^ (K + SECTOR_BITS),
      startOf (2 ^ (K + SECTOR_BITS)) pos (pos / 2 ^ (K + SECTOR_BITS) + 1)⟩ := by
    have hplace (blknr skip : Nat) : (Direct.run disk m K pos len mem 0).place blknr skip = (512 * blknr + skip, 0) := rfl
    have hoff : m (pos / 2 ^ (K + SECTOR_BITS)) * 2 ^ (K + SECTOR_BITS) + pos % 2 ^ (K + SECTOR_BITS) +
        (2 ^ (K + SECTOR_BITS) - pos % 2 ^ (K + SECTOR_BITS)) = m (pos / 2 ^ (K + SECTOR_BITS)) * 2 ^ (K + SECTOR_BITS) +
          2 ^ (K + SECTOR_BITS) := by omega
    rw [Direct.run_succ, Nat.add_zero, (Direct.block_data _ hm).2, hplace, hfull, hskip0, sector_bytes, Nat.div_eq_of_lt hskip, Nat.add_zero,
      hoff, startOf_succ hbs (Nat.le_refl _), startOf_first, hskip0]
  have hsucc := startOf_succ (i := pos / 2 ^ (K + SECTOR_BITS) + 1) hbs (Nat.le_succ _)
  have hz : readFileSkip (2 ^ (K + SECTOR_BITS)) pos (pos / 2 ^ (K + SECTOR_BITS) + 1) = 0 := if_neg (by omega)
  have hpart : 0 < partOf (2 ^ (K + SECTOR_BITS)) pos len (pos / 2 ^ (K + SECTOR_BITS) + 1) := by
    have hstart := startOf_add_pos hbs (Nat.le_succ (pos / 2 ^ (K + SECTOR_BITS)))
    rw [Nat.succ_eq_add_one, hz] at hstart
    unfold partOf
    omega
  have hmono : startOf (2 ^ (K + SECTOR_BITS)) pos (pos / 2 ^ (K + SECTOR_BITS) + 1) <
      startOf (2 ^ (K + SECTOR_BITS)) pos (pos / 2 ^ (K + SECTOR_BITS) + 1 + 1) := by omega
  rw [hn, Direct.run_frame (k := 2) hmono fun l hl => (lt_blockcnt_iff hbs hfit).1 (by omega)]
  -- the second block comes from behind the first one
  have hplace : (Direct.run disk m K pos len mem 1).place (m (pos / 2 ^ (K + SECTOR_BITS) + 1) * 2 ^ K) 0 =
      (m (pos / 2 ^ (K + SECTOR_BITS)) * 2 ^ (K + SECTOR_BITS) + 2 ^ (K + SECTOR_BITS),
        startOf (2 ^ (K + SECTOR_BITS)) pos (pos / 2 ^ (K + SECTOR_BITS) + 1)) := by
    rw [Direct.place, h1, hsame]
    exact if_pos rfl
  have hstored := stored_store (Direct.run disk m K pos len mem 1).mem (startOf (2 ^ (K + SECTOR_BITS)) pos (pos / 2 ^ (K + SECTOR_BITS) + 1))
    (bytesAt disk (m (pos / 2 ^ (K + SECTOR_BITS)) * 2 ^ (K + SECTOR_BITS) + 2 ^ (K + SECTOR_BITS))
      (partOf (2 ^ (K + SECTOR_BITS)) pos len (pos / 2 ^ (K + SECTOR_BITS) + 1)))
  rw [Direct.run_succ 1, (Direct.block_data _ (hsame ▸ hm)).1, hz, hplace]
  exact hstored 0 _ (getElem?_bytesAt _ _ hpart)

/-- A file is read into the buffer just when it is readable. -/
theorem ext4fsReadFile_iff (h : FileInput m K size pos len) : ReadsFile m K size pos len ↔ Readable m K size pos (min len size) := by
  have hbs := Nat.two_pow_pos (K + SECTOR_BITS)
  have hbs30 := bytes_le h.log2
  have hsize := h.size
  have hpos := h.pos
  have hle : min len size ≤ size := Nat.min_le_right ..
  unfold ReadsFile
  simp only [ext4fsReadFile_min _ _ K size pos len]
  constructor
  · intro H
    have hret := congrArg Prod.fst (H (fun _ => 0) fun _ => 1)
    rw [ext4fsReadFile_fst _ _ _ _ _ hle] at hret
    have hint : min len size < 2 ^ 31 := by
      unfold toLong at hret
      split at hret <;> omega
    rw [toLong_of_lt hint, Int.natCast_inj] at hret
    have hfit : 0 < min len size → min len size + pos + 2 ^ (K + SECTOR_BITS) ≤ 2 ^ 32 := by
      intro h0
      by_contra hwrap
      have hcnt := blockcnt_of_wrap hbs30 hpos hint (Nat.lt_of_not_le hwrap)
      have hsame : (ext4fsReadFile (exactDevread fun _ => 0) (fun i => m i) K size pos (min len size) fun _ => 1).2 0 = 1 := by
        simp only [ext4fsReadFile, if_neg (show ¬ size < min len size by omega), hcnt, Nat.zero_sub]
        rfl
      simp only [H, filled, if_pos (show 0 < min len (size - pos) by omega), fileByte, ite_self] at hsame
      exact absurd hsame (by decide)
    have hfit' : min len size + pos + 2 ^ (K + SECTOR_BITS) ≤ 2 ^ 32 := by
      rcases Nat.eq_zero_or_pos (min len size) with h0 | h0
      · omega
      · exact hfit h0
    have hmem (disk mem : Nat → UInt8) := congrArg Prod.snd (H disk mem)
    simp only [ext4fsReadFile_eq_run hle hfit', ← hret] at hmem
    refine ⟨by omega, hint, hfit, ?_, ?_⟩
    · -- what follows the bytes of the file was not zero
      intro hmod hm
      have h1 := congrFun (hmem (fun _ => 0) fun _ => 1) (min len size)
      rw [partial_hole hfit' hmod hm, filled, if_neg (Nat.lt_irrefl _)] at h1
      exact absurd h1 (by decide)
    · -- the first byte of the block is not the one right behind it
      rintro ⟨hskip, hnext, hm, hsame⟩
      have h1 := congrFun (hmem (fun x => if x = m (pos / 2 ^ (K + SECTOR_BITS)) * 2 ^ (K + SECTOR_BITS) then 1 else 0) fun _ => 1)
        (startOf (2 ^ (K + SECTOR_BITS)) pos (pos / 2 ^ (K + SECTOR_BITS) + 1))
      have hz : readFileSkip (2 ^ (K + SECTOR_BITS)) pos (pos / 2 ^ (K + SECTOR_BITS) + 1) = 0 := if_neg (by omega)
      have hbyte := fileByte_block (fun x => if x = m (pos / 2 ^ (K + SECTOR_BITS)) * 2 ^ (K + SECTOR_BITS) then 1 else 0) m
        (i := pos / 2 ^ (K + SECTOR_BITS) + 1) (j := 0) (Nat.le_succ _) (by rw [hz]; exact hbs)
      rw [hz, if_neg (hsame ▸ hm), hsame] at hbyte
      simp only [Nat.add_zero, if_true] at hbyte
      have hstart := startOf_add_pos hbs (Nat.le_succ (pos / 2 ^ (K + SECTOR_BITS)))
      rw [Nat.succ_eq_add_one, hz] at hstart
      rw [repeated hfit' hskip hnext hm hsame, if_neg (by omega), filled, if_pos (by omega), hbyte] at h1
      exact absurd h1 (by decide)
  · intro R
    have hfit : min len size + pos + 2 ^ (K + SECTOR_BITS) ≤ 2 ^ 32 := by
      rcases Nat.eq_zero_or_pos (min len size) with h0 | h0
      · omega
      · exact R.fit h0
    intro disk mem
    have hn : min len (size - pos) = min len size := by
      rcases R.inside with h0 | hin <;> omega
    obtain ⟨hall, hend⟩ := run_all hbs hfit
    rw [ext4fsReadFile_eq_run hle hfit, toLong_of_lt R.int, Direct.run_filled R.repeats R.hole _ hall, Nat.min_eq_right hend, hn]

/-- Two blocks in a row, from within the first one on. -/
theorem ext4fsReadFile_two_blocks : ReadsFile (fun i => if i < 2 then i + 3 else 0) 1 2048 500 1548 := by
  refine (ext4fsReadFile_iff ⟨by decide, by decide, by decide, by decide, fun i => ?_⟩).2 ⟨by decide, by decide, fun _ => by decide, ?_, ?_⟩
  · split <;> omega
  · exact fun h => absurd rfl h
  · exact fun h => absurd h.1 (by decide)

/-- A read that ends behind the file returns as much as if it had started at position 0. -/
theorem ext4fsReadFile_past_end : FileInput (fun _ => 3) 1 1000 500 1000 ∧ ¬ ReadsFile (fun _ => 3) 1 1000 500 1000 := by
  refine ⟨⟨by decide, by decide, by decide, by decide, fun i => by decide⟩, fun H => ?_⟩
  have hret := congrArg Prod.fst (H (fun _ => 0) fun _ => 0)
  rw [ext4fsReadFile_fst _ _ _ _ _ (Nat.le_refl 1000)] at hret
  exact absurd hret (by decide)

end Ext4Read

end UBoot
