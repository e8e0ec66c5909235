import UBoot.Ext4Blocks
import Mathlib

/-!
# The block map is followed

`read_allocated_block` gives the block that the indirect blocks or the extent tree name, with four exceptions.
-/

namespace UBoot

open List

/-! ## What the block map says -/

def ExtDisk.entry (d : ExtDisk) (block i : Nat) : UInt32 := d.words (d.perblock * block + i)

/-- The entry at the end of a path of indirect blocks; an entry of 0 on the way is a hole. -/
def ExtDisk.follow (d : ExtDisk) : UInt32 → List Nat → UInt32
  | block, [] => block
  | block, i :: is => if block = 0 then 0 else d.follow (d.entry block.toNat i) is

/-- The path of a file block: the entry of the inode, and the entry in each indirect block. -/
def Ext2Inode.path (d : ExtDisk) (inode : Ext2Inode) (fileblock : Nat) : UInt32 × List Nat :=
  let p := d.perblock
  if fileblock < 12 then (inode.block fileblock, [])
  else if fileblock < 12 + p then (inode.block 12, [fileblock - 12])
  else if fileblock < 12 + p + p * p then (inode.block 13, [(fileblock - 12 - p) / p, (fileblock - 12 - p) % p])
  else
    let r := fileblock - 12 - p - p * p
    (inode.block 14, [r / (p * p), r / p % p, r % p])

/-- The block of an extent tree that an index entry names. -/
def ExtDisk.child (d : ExtDisk) (node : ExtNode) (i : Nat) : ExtNode := fun j => d.words (d.perblock * eiLeaf node i + j)

/-- The extents of a tree. -/
def ExtDisk.extents (d : ExtDisk) : Nat → ExtNode → List Ext4Extent
  | 0, node => (List.range (ehEntries node)).map (extentAt node)
  | depth + 1, node => (List.range (ehEntries node)).flatMap fun i => d.extents depth (d.child node i)

/-- The file blocks of index entry `i` end where the next entry begins. -/
def indexEnd (node : ExtNode) (hi i : Nat) : Nat := if i + 1 < ehEntries node then eiBlock node (i + 1) else hi

/-- A well-formed tree of a depth, for the file blocks from `lo` up to `hi`: the entries are sorted, and what an entry leads to is in the
range of the entry. -/
def ExtDisk.WFTree (d : ExtDisk) : Nat → ExtNode → Nat → Nat → Prop
  | 0, node, lo, hi => ehMagic node = EXT4_EXT_MAGIC ∧ ehDepth node = 0 ∧
      (∀ i < ehEntries node, lo ≤ (extentAt node i).block ∧ (extentAt node i).block + (extentAt node i).len ≤ hi) ∧
      ∀ i j, i < j → j < ehEntries node → (extentAt node i).block + (extentAt node i).len ≤ (extentAt node j).block
  | depth + 1, node, lo, hi => ehMagic node = EXT4_EXT_MAGIC ∧ ehDepth node = depth + 1 ∧
      (∀ i < ehEntries node, lo ≤ eiBlock node i ∧ eiBlock node i ≤ hi) ∧
      (∀ i j, i < j → j < ehEntries node → eiBlock node i < eiBlock node j) ∧
      ∀ i < ehEntries node, d.WFTree depth (d.child node i) (eiBlock node i) (indexEnd node hi i)

/-- The extent has the file block. -/
def Ext4Extent.Has (e : Ext4Extent) (fileblock : Nat) : Prop := e.block ≤ fileblock ∧ fileblock < e.block + e.len

/-- The block that some extents give a file block: that of the extent that has it, or 0 when none has. -/
def MapsTo (extents : List Ext4Extent) (fileblock : Nat) (v : Int) : Prop :=
  (∃ e ∈ extents, e.Has fileblock ∧ v = ((e.start + (fileblock - e.block) : Nat) : Int)) ∨ v = 0 ∧ ∀ e ∈ extents, ¬e.Has fileblock

/-- A call of `read_allocated_block`. -/
structure BlockCall where
  inode : Ext2Inode
  fileblock : Nat

/-- The call is one that the claim is about: the file block is below the limit of the indirect blocks, or the extent tree is well formed. -/
def BlockCall.Valid (d : ExtDisk) (c : BlockCall) : Prop :=
  if c.inode.extents then d.WFTree (ehDepth c.inode.block) c.inode.block 0 (2 ^ 32)
  else c.fileblock < 12 + d.perblock + d.perblock ^ 2 + d.perblock ^ 3

/-- The value is the right one. -/
def BlockCall.Spec (d : ExtDisk) (c : BlockCall) (v : Int) : Prop :=
  if c.inode.extents then MapsTo (d.extents (ehDepth c.inode.block) c.inode.block) c.fileblock v
  else v = (d.follow (c.inode.path d c.fileblock).1 (c.inode.path d c.fileblock).2).toNat

/-! ## The condition -/

/-- A block is in the partition, and its sector is an `int`: a read of it succeeds. -/
def ExtDisk.Readable (d : ExtDisk) (block : Nat) : Prop :=
  block * 2 ^ d.log2Blksz + 2 ^ d.log2Blksz ≤ d.size ∧ block * 2 ^ d.log2Blksz < 2 ^ 31

/-- The end of the path when an entry of 0 is followed like any other. -/
def ExtDisk.walk (d : ExtDisk) : UInt32 → List Nat → UInt32
  | block, [] => block
  | block, i :: is => d.walk (d.entry block.toNat i) is

/-- The condition on a path: the blocks are readable, where an entry is 0 the path through block 0 ends with 0 all the same, and the last
entry is a `long`. -/
def ExtDisk.PathOk (d : ExtDisk) : UInt32 → List Nat → Prop
  | block, [] => block.toNat < 2 ^ 31
  | block, i :: is => d.Readable block.toNat ∧ (block = 0 → d.walk block (i :: is) = 0) ∧ d.PathOk (d.entry block.toNat i) is

/-- The condition on the search in a tree: in an index block an entry begins before the file block, and the next one behind it, or, when no
extent has the file block (`hole`), with it; in the leaf an extent begins at the file block or before. -/
def ExtDisk.SearchOk (d : ExtDisk) (fileblock : Nat) (hole : Prop) : Nat → ExtNode → Prop
  | 0, node => 0 < ehEntries node ∧ (extentAt node 0).block ≤ fileblock
  | depth + 1, node => ∃ i < ehEntries node, eiBlock node i < fileblock ∧
      (i + 1 < ehEntries node → fileblock < eiBlock node (i + 1) ∨ fileblock = eiBlock node (i + 1) ∧ hole) ∧
      d.Readable (eiLeaf node i) ∧ d.SearchOk fileblock hole depth (d.child node i)

/-- The condition on a call. -/
def BlockCall.Ok (d : ExtDisk) (c : BlockCall) : Prop :=
  if c.inode.extents then
    d.SearchOk c.fileblock (∀ e ∈ d.extents (ehDepth c.inode.block) c.inode.block, ¬e.Has c.fileblock) (ehDepth c.inode.block) c.inode.block ∧
      ∀ e ∈ d.extents (ehDepth c.inode.block) c.inode.block, e.Has c.fileblock → e.start + (c.fileblock - e.block) < 2 ^ 31
  else
    c.fileblock < 12 + d.perblock + 2 * d.perblock ^ 2 ∧ d.PathOk (c.inode.path d c.fileblock).1 (c.inode.path d c.fileblock).2

namespace BlockMapAux

variable {d : ExtDisk}

/-! ## The caches -/

/-- A cached block holds what is in its sector. -/
def CacheOk (d : ExtDisk) (c : IndirCache) : Prop :=
  c.blkno = 2 ^ 32 - 1 ∨ ∀ i < d.perblock, c.words i = d.words (128 * c.blkno + i)

structure CachesOk (d : ExtDisk) (s : IndirCaches) : Prop where
  indir1 : CacheOk d s.indir1
  indir2 : CacheOk d s.indir2
  indir3 : CacheOk d s.indir3

theorem cachesOk_init : CachesOk d .init := ⟨Or.inl rfl, Or.inl rfl, Or.inl rfl⟩

theorem sector_eq {block : Nat} (h : d.Readable block) : d.sector block = block * 2 ^ d.log2Blksz :=
  Nat.mod_eq_of_lt (Nat.lt_trans h.2 (by decide))

theorem words_sector (block i : Nat) : d.words (128 * (block * 2 ^ d.log2Blksz) + i) = d.entry block i := by
  rw [ExtDisk.entry, ExtDisk.perblock]
  congr 1
  ring

theorem devread_eq {block : Nat} (h : d.Readable block) : d.devread (d.sector block) = some (d.entry block) := by
  have hpos := Nat.two_pow_pos d.log2Blksz
  obtain ⟨hin, hint⟩ := h
  rw [sector_eq ⟨hin, hint⟩, ExtDisk.devread, if_neg (by omega)]
  exact congrArg some (funext fun i => words_sector block i)

def Holds (d : ExtDisk) (c : IndirCache) (block : UInt32) : Prop := CacheOk d c ∧ ∀ i < d.perblock, c.words i = d.entry block.toNat i

theorem fill_eq {block : UInt32} (h : d.Readable block.toNat) : ∃ c, IndirCache.fill d block = .ok c ∧ Holds d c block := by
  refine ⟨⟨d.sector block.toNat, d.entry block.toNat⟩, ?_, Or.inr fun i _ => ?_, fun _ _ => rfl⟩
  · rw [IndirCache.fill, devread_eq h]
  · rw [sector_eq h, words_sector]

theorem holds_of_sector {c : IndirCache} {block : UInt32} (hc : CacheOk d c) (h : d.Readable block.toNat)
    (hs : d.sector block.toNat = c.blkno) : Holds d c block := by
  refine ⟨hc, fun i hi => ?_⟩
  rcases hc with hnone | hall
  · have := h.2
    rw [sector_eq h] at hs
    omega
  · rw [hall i hi, ← hs, sector_eq h, words_sector]

theorem load_eq {c : IndirCache} {block : UInt32} (hc : CacheOk d c) (h : d.Readable block.toNat) :
    ∃ c', c.load d block = .ok c' ∧ Holds d c' block := by
  unfold IndirCache.load IndirCache.loadTested
  by_cases hs : d.sector block.toNat = c.blkno
  · exact ⟨c, if_neg (not_not.2 hs), holds_of_sector hc h hs⟩
  · rw [if_pos hs]
    exact fill_eq h

theorem entry_eq {c : IndirCache} {block : UInt32} {i : Nat} (hc : Holds d c block) (hi : i < d.perblock) :
    c.entry d i = .ok (d.entry block.toNat i) := by
  rw [IndirCache.entry, if_pos hi, hc.2 i hi]

/-! ## The paths -/

theorem follow_eq_walk {block : UInt32} {is : List Nat} (h : d.PathOk block is) : d.follow block is = d.walk block is := by
  induction is generalizing block with
  | nil => rfl
  | cons i is ih =>
    obtain ⟨-, hhole, hrest⟩ := h
    rw [ExtDisk.follow]
    by_cases h0 : block = 0
    · rw [if_pos h0, hhole h0]
    · rw [if_neg h0, ExtDisk.walk, ih hrest]

theorem walk_lt {block : UInt32} {is : List Nat} (h : d.PathOk block is) : (d.walk block is).toNat < 2 ^ 31 := by
  induction is generalizing block with
  | nil => exact h
  | cons i is ih => exact ih h.2.2

theorem perblock_pos : 0 < d.perblock := by
  have := Nat.two_pow_pos d.log2Blksz
  unfold ExtDisk.perblock
  omega

/-- The outcome of a call. -/
def Outcome (d : ExtDisk) (v : UInt32) (o : Except ExtFault (Int × IndirCaches)) : Prop :=
  ∃ s, o = .ok (toLong v.toNat, s) ∧ CachesOk d s

theorem ok_bind {α β : Type} (a : α) (f : α → Except ExtFault β) : (Except.ok a >>= f) = f a := rfl

section Indirect

variable {inode : Ext2Inode} {fileblock : Nat} {s : IndirCaches} (hs : CachesOk d s)
include hs

theorem readIndirect_eq {i : Nat} (hi : fileblock - INDIRECT_BLOCKS = i) (hlt : i < d.perblock) (h : d.PathOk (inode.block 12) [i]) :
    Outcome d (d.walk (inode.block 12) [i]) (readIndirect d inode fileblock s) := by
  obtain ⟨c1, h1, hc1⟩ := load_eq hs.indir1 h.1
  refine ⟨{ s with indir1 := c1 }, ?_, hc1.1, hs.indir2, hs.indir3⟩
  rw [readIndirect, h1, ok_bind, hi, entry_eq hc1 hlt]
  rfl

theorem readDoubleIndirect_eq {i j : Nat} (hi : (fileblock - (INDIRECT_BLOCKS + d.perblock)) / d.perblock = i)
    (hj : (fileblock - (INDIRECT_BLOCKS + d.perblock)) % d.perblock = j) (hlt : i < d.perblock)
    (h : d.PathOk (inode.block 13) [i, j]) :
    Outcome d (d.walk (inode.block 13) [i, j]) (readDoubleIndirect d inode fileblock s) := by
  have hjlt : j < d.perblock := hj ▸ Nat.mod_lt _ perblock_pos
  obtain ⟨c1, h1, hc1⟩ := load_eq hs.indir1 h.1
  obtain ⟨c2, h2, hc2⟩ := load_eq hs.indir2 h.2.2.1
  refine ⟨{ s with indir1 := c1, indir2 := c2 }, ?_, hc1.1, hc2.1, hs.indir3⟩
  simp only [readDoubleIndirect, h1, ok_bind, hi, entry_eq hc1 hlt, h2, hj, entry_eq hc2 hjlt]
  rfl

/-- Below the square of the entries of a block, the entry that is tested is the one that is read. -/
theorem readTripleIndirect_eq {r i j k : Nat} (hr : fileblock - (INDIRECT_BLOCKS + d.perblock + d.perblock * d.perblock) = r)
    (hlt : r < d.perblock * d.perblock) (hi : r / (d.perblock * d.perblock) = i) (hj : r / d.perblock % d.perblock = j)
    (hk : r % d.perblock = k) (h : d.PathOk (inode.block 14) [i, j, k]) :
    Outcome d (d.walk (inode.block 14) [i, j, k]) (readTripleIndirect d inode fileblock s) := by
  have hpos : 0 < d.perblock := perblock_pos
  have hilt : i < d.perblock := by rw [← hi, Nat.div_eq_of_lt hlt]; exact hpos
  have htest : r / d.perblock = j := by
    rw [← hj, Nat.mod_eq_of_lt ((Nat.div_lt_iff_lt_mul hpos).2 hlt)]
  have hjlt : j < d.perblock := hj ▸ Nat.mod_lt _ hpos
  have hklt : k < d.perblock := hk ▸ Nat.mod_lt _ hpos
  obtain ⟨c1, h1, hc1⟩ := load_eq hs.indir1 h.1
  obtain ⟨c2, h2, hc2⟩ := load_eq hs.indir2 h.2.2.1
  obtain ⟨c3, h3, hc3⟩ := load_eq hs.indir3 h.2.2.2.2.1
  refine ⟨⟨c1, c2, c3⟩, ?_, hc1.1, hc2.1, hc3.1⟩
  rw [IndirCache.load] at h3
  simp only [readTripleIndirect, h1, ok_bind, hr, hi, entry_eq hc1 hilt, h2, htest, entry_eq hc2 hjlt, hk, Nat.mod_eq_of_lt hjlt, h3,
    entry_eq hc3 hklt]
  rfl

end Indirect

/-! ## The extents -/

/-- The loop over the entries ends at the first entry that is not before. -/
theorem scanEntries_spec (before : Nat → Bool) (left i : Nat) : i ≤ scanEntries before left i ∧ scanEntries before left i ≤ i + left ∧
      (∀ j, i ≤ j → j < scanEntries before left i → before j = true) ∧
      (scanEntries before left i < i + left → before (scanEntries before left i) = false) := by
  induction left generalizing i with
  | zero =>
    rw [scanEntries]
    exact ⟨Nat.le_refl i, Nat.le_refl i, fun j h1 h2 => by omega, fun h => by omega⟩
  | succ left ih =>
    rw [scanEntries]
    split_ifs with hb
    · obtain ⟨h1, h2, h3, h4⟩ := ih (i + 1)
      refine ⟨by omega, by omega, fun j hj hlt => ?_, fun h => h4 (by omega)⟩
      rcases Nat.lt_or_eq_of_le hj with hlt' | rfl
      · exact h3 j hlt' hlt
      · exact hb
    · exact ⟨Nat.le_refl i, by omega, fun j h1 h2 => by omega, fun _ => by simpa using hb⟩

theorem scanEntries_eq {before : Nat → Bool} {n i : Nat} (hi : i < n) (hb : ∀ j ≤ i, before j = true)
    (hnext : i + 1 < n → before (i + 1) = false) : scanEntries before n 0 = i + 1 := by
  obtain ⟨-, h2, h3, h4⟩ := scanEntries_spec before n 0
  rcases Nat.lt_trichotomy (scanEntries before n 0) (i + 1) with h | h | h
  · have := h4 (by omega)
    rw [hb _ (by omega)] at this
    cases this
  · exact h
  · have := h3 (i + 1) (by omega) h
    rw [hnext (by omega)] at this
    cases this

theorem extents_range {depth : Nat} {node : ExtNode} {lo hi : Nat} (h : d.WFTree depth node lo hi) :
    ∀ e ∈ d.extents depth node, lo ≤ e.block ∧ e.block + e.len ≤ hi := by
  induction depth generalizing node lo hi with
  | zero =>
    intro e he
    obtain ⟨i, hi, rfl⟩ := mem_map.1 he
    exact h.2.2.1 i (mem_range.1 hi)
  | succ depth ih =>
    intro e he
    obtain ⟨i, hmem, he⟩ := mem_flatMap.1 he
    have hlt := mem_range.1 hmem
    obtain ⟨-, -, hrange, -, hchild⟩ := h
    obtain ⟨h1, h2⟩ := ih (hchild i hlt) e he
    have hlo := (hrange i hlt).1
    refine ⟨by omega, Nat.le_trans h2 ?_⟩
    unfold indexEnd
    split_ifs with hnext
    · exact (hrange (i + 1) hnext).2
    · exact Nat.le_refl hi

/-- An extent with the file block is found under the entry that the search takes. -/
theorem mem_child {depth fileblock i : Nat} {node : ExtNode} {lo up : Nat} {hole : Prop} (h : d.WFTree (depth + 1) node lo up)
    (hhole : hole → ∀ e ∈ d.extents (depth + 1) node, ¬e.Has fileblock) (hi : i < ehEntries node) (hlt : eiBlock node i < fileblock)
    (hnext : i + 1 < ehEntries node → fileblock < eiBlock node (i + 1) ∨ fileblock = eiBlock node (i + 1) ∧ hole)
    {e : Ext4Extent} (he : e ∈ d.extents (depth + 1) node) (hhas : e.Has fileblock) : e ∈ d.extents depth (d.child node i) := by
  have hall := he
  obtain ⟨j, hmem, he⟩ := mem_flatMap.1 he
  have hj := mem_range.1 hmem
  obtain ⟨-, -, -, hsorted, hchild⟩ := h
  obtain ⟨h1, h2⟩ := extents_range (hchild j hj) e he
  obtain ⟨hge, hend⟩ := hhas
  rcases Nat.lt_trichotomy j i with hji | rfl | hji
  · -- an entry before ends where the one that is taken begins, or before
    have hle : eiBlock node (j + 1) ≤ eiBlock node i := by
      rcases Nat.lt_or_eq_of_le hji with hlt' | heq
      · exact Nat.le_of_lt (hsorted _ _ hlt' hi)
      · rw [← heq]
    rw [indexEnd, if_pos (by omega)] at h2
    omega
  · exact he
  · -- an entry behind begins behind the file block
    have hnext' : i + 1 < ehEntries node := by omega
    have hle : eiBlock node (i + 1) ≤ eiBlock node j := by
      rcases Nat.lt_or_eq_of_le hji with hlt' | heq
      · exact Nat.le_of_lt (hsorted _ _ hlt' hj)
      · rw [← heq]
    rcases hnext hnext' with hlt' | ⟨heq, hno⟩
    · omega
    · exact absurd ⟨hge, hend⟩ (hhole hno e hall)

theorem search_spec {depth fileblock fuel : Nat} {node : ExtNode} {lo up : Nat} {hole : Prop} (h : d.WFTree depth node lo up)
    (hok : d.SearchOk fileblock hole depth node) (hhole : hole → ∀ e ∈ d.extents depth node, ¬e.Has fileblock) (hfuel : depth < fuel) :
    ∃ leaf lo' up', ext4fsGetExtentBlock d fileblock fuel node = .ok (some leaf) ∧ d.WFTree 0 leaf lo' up' ∧
      d.SearchOk fileblock hole 0 leaf ∧ (∀ e ∈ d.extents 0 leaf, e ∈ d.extents depth node) ∧
      ∀ e ∈ d.extents depth node, e.Has fileblock → e ∈ d.extents 0 leaf := by
  induction depth generalizing node lo up fuel with
  | zero =>
    obtain ⟨fuel, rfl⟩ := Nat.exists_eq_succ_of_ne_zero (show fuel ≠ 0 by omega)
    refine ⟨node, lo, up, ?_, h, hok, fun e he => he, fun e he _ => he⟩
    rw [ext4fsGetExtentBlock, extentStep, if_neg (not_not.2 h.1), if_pos h.2.1]
  | succ depth ih =>
    obtain ⟨fuel, rfl⟩ := Nat.exists_eq_succ_of_ne_zero (show fuel ≠ 0 by omega)
    obtain ⟨i, hi, hlt, hnext, hread, hrest⟩ := hok
    obtain ⟨hmagic, hdepth, -, hsorted, hchild⟩ := id h
    have hsub (e : Ext4Extent) (he : e ∈ d.extents depth (d.child node i)) : e ∈ d.extents (depth + 1) node :=
      mem_flatMap.2 ⟨i, mem_range.2 hi, he⟩
    -- the loop takes entry `i`
    have hscan : scanEntries (fun i => eiBlock node i < fileblock) (ehEntries node) 0 = i + 1 := by
      refine scanEntries_eq hi (fun j hj => ?_) fun hn => ?_
      · rcases Nat.lt_or_eq_of_le hj with hji | rfl
        · have := hsorted j i hji hi
          exact decide_eq_true (by omega)
        · exact decide_eq_true hlt
      · refine decide_eq_false ?_
        rcases hnext hn with h' | ⟨h', -⟩ <;> omega
    obtain ⟨leaf, lo', up', hget, hleaf, hsearch, hin, hhas⟩ := ih (hchild i hi) hrest (fun hh e he => hhole hh e (hsub e he))
      (show depth < fuel by omega)
    refine ⟨leaf, lo', up', ?_, hleaf, hsearch, fun e he => hsub e (hin e he), fun e he hf => ?_⟩
    · have hstep : extentStep d fileblock node = .next (d.child node i) := by
        rw [extentStep, if_neg (not_not.2 hmagic), if_neg (by omega)]
        simp only [hscan, Nat.add_sub_cancel, devread_eq hread, Nat.succ_ne_zero, if_false]
        rfl
      rw [ext4fsGetExtentBlock, hstep]
      exact hget
    · exact hhas e (mem_child h hhole hi hlt hnext he hf) hf

theorem readExtent_eq {fileblock fuel : Nat} {inode : Ext2Inode} {leaf : ExtNode} {lo up : Nat} {hole : Prop}
    (hget : ext4fsGetExtentBlock d fileblock fuel inode.block = .ok (some leaf)) (h : d.WFTree 0 leaf lo up)
    (hok : d.SearchOk fileblock hole 0 leaf)
    (hlong : ∀ e ∈ d.extents 0 leaf, e.Has fileblock → e.start + (fileblock - e.block) < 2 ^ 31) :
    ∃ v, readExtent d fuel inode fileblock = .ok v ∧ MapsTo (d.extents 0 leaf) fileblock v := by
  obtain ⟨hpos, hfirst⟩ := hok
  obtain ⟨-, -, -, hsorted⟩ := h
  obtain ⟨-, h2, h3, h4⟩ := scanEntries_spec (fun i => (extentAt leaf i).block ≤ fileblock) (ehEntries leaf) 0
  rw [readExtent, hget, ok_bind]
  simp only
  generalize scanEntries (fun i => (extentAt leaf i).block ≤ fileblock) (ehEntries leaf) 0 = r at h2 h3 h4
  have hr : r ≠ 0 := by
    rintro rfl
    have := h4 (by omega)
    simp [hfirst] at this
  have hlast : (extentAt leaf (r - 1)).block ≤ fileblock := by simpa using h3 (r - 1) (by omega) (by omega)
  have hmem : extentAt leaf (r - 1) ∈ d.extents 0 leaf := mem_map.2 ⟨r - 1, mem_range.2 (by omega), rfl⟩
  rw [if_neg hr]
  split_ifs with hlen
  · -- the last extent that begins before ends before, too, and so does every other one
    refine ⟨0, rfl, Or.inr ⟨rfl, fun e he hhas => ?_⟩⟩
    obtain ⟨j, hj, rfl⟩ := mem_map.1 he
    have hj := mem_range.1 hj
    obtain ⟨hge, hend⟩ := hhas
    rcases Nat.lt_trichotomy j (r - 1) with hjr | rfl | hjr
    · have := hsorted j (r - 1) hjr (by omega)
      omega
    · omega
    · have hrle := h4 (by omega)
      have hrgt : fileblock < (extentAt leaf r).block := by simpa using hrle
      rcases Nat.lt_or_eq_of_le (show r ≤ j by omega) with hlt | rfl
      · have := hsorted r j hlt hj
        omega
      · omega
  · have hhas : (extentAt leaf (r - 1)).Has fileblock := ⟨hlast, by omega⟩
    have hbound := hlong _ hmem hhas
    refine ⟨_, rfl, Or.inl ⟨_, hmem, hhas, ?_⟩⟩
    rw [Nat.add_comm, Nat.mod_eq_of_lt (by omega), toLong_of_lt hbound]

theorem ehDepth_lt (node : ExtNode) : ehDepth node < 2 ^ 16 := by
  have := (node 1).toNat_lt
  unfold ehDepth hi16
  omega

/-! ## Calls -/

/-- A call without extents comes to the end of its path. -/
theorem indirect_spec {s : IndirCaches} {inode : Ext2Inode} {fileblock : Nat} (fuel : Nat) (hs : CachesOk d s) (hext : inode.extents = false)
    (hlt : fileblock < 12 + d.perblock + 2 * d.perblock ^ 2) (h : d.PathOk (inode.path d fileblock).1 (inode.path d fileblock).2) :
    Outcome d (d.walk (inode.path d fileblock).1 (inode.path d fileblock).2) (readAllocatedBlock d fuel inode fileblock s) := by
  have hpos : 0 < d.perblock := perblock_pos
  have hsq : d.perblock * (d.perblock + 1) = d.perblock * d.perblock + d.perblock := by ring
  rw [pow_two] at hlt
  have hext' : ¬inode.extents = true := by simp [hext]
  unfold Ext2Inode.path at h ⊢
  rw [readAllocatedBlock, if_neg hext']
  simp only at h ⊢
  unfold INDIRECT_BLOCKS
  by_cases h1 : fileblock < 12
  · rw [if_pos h1] at h
    rw [if_pos h1, if_pos h1]
    exact ⟨s, rfl, hs⟩
  rw [if_neg h1] at h
  rw [if_neg h1, if_neg h1]
  by_cases h2 : fileblock < 12 + d.perblock
  · rw [if_pos h2] at h
    rw [if_pos h2, if_pos h2]
    exact readIndirect_eq hs rfl (by omega) h
  rw [if_neg h2] at h
  rw [if_neg h2, if_neg h2]
  by_cases h3 : fileblock < 12 + d.perblock + d.perblock * d.perblock
  · rw [if_pos h3] at h
    rw [if_pos h3, if_pos (by omega)]
    refine readDoubleIndirect_eq hs ?_ ?_ ((Nat.div_lt_iff_lt_mul hpos).2 (by omega)) h
    · rw [INDIRECT_BLOCKS, Nat.sub_sub]
    · rw [INDIRECT_BLOCKS, Nat.sub_sub]
  · rw [if_neg h3] at h
    rw [if_neg h3, if_neg (by omega)]
    refine readTripleIndirect_eq hs (r := fileblock - 12 - d.perblock - d.perblock * d.perblock) ?_ (by omega) rfl rfl rfl h
    rw [INDIRECT_BLOCKS, Nat.sub_sub, Nat.sub_sub, Nat.add_assoc]

/-- Whatever is cached, a call that meets the condition gives the right value, and leaves the caches in order. -/
theorem call_spec {s : IndirCaches} {c : BlockCall} {fuel : Nat} (hs : CachesOk d s) (hfuel : 2 ^ 16 ≤ fuel) (hv : c.Valid d) (hok : c.Ok d) :
    ∃ v s', readAllocatedBlock d fuel c.inode c.fileblock s = .ok (v, s') ∧ CachesOk d s' ∧ c.Spec d v := by
  unfold BlockCall.Valid at hv
  unfold BlockCall.Ok at hok
  unfold BlockCall.Spec
  by_cases hext : c.inode.extents = true
  · rw [if_pos hext] at hv hok
    obtain ⟨hsearch, hlong⟩ := hok
    have hdepth := ehDepth_lt c.inode.block
    obtain ⟨leaf, lo, up, hget, hleaf, hok', hin, hhas⟩ := search_spec hv hsearch (fun h => h) (show ehDepth c.inode.block < fuel by omega)
    obtain ⟨v, hread, hmap⟩ := readExtent_eq hget hleaf hok' fun e he => hlong e (hin e he)
    refine ⟨v, s, ?_, hs, ?_⟩
    · rw [readAllocatedBlock, if_pos hext, hread]
      rfl
    · rw [if_pos hext]
      rcases hmap with ⟨e, he, hh, rfl⟩ | ⟨rfl, hnone⟩
      · exact Or.inl ⟨e, hin e he, hh, rfl⟩
      · exact Or.inr ⟨rfl, fun e he hh => hnone e (hhas e he hh) hh⟩
  · rw [if_neg hext] at hok
    obtain ⟨s', heq, hs'⟩ := indirect_spec fuel hs (by simpa using hext) hok.1 hok.2
    refine ⟨_, s', heq, hs', ?_⟩
    rw [if_neg hext, follow_eq_walk hok.2, toLong_of_lt (walk_lt hok.2)]

end BlockMapAux

open BlockMapAux

/-- The calls one after the other: the values returned, and the caches. -/
def blockCalls (d : ExtDisk) (fuel : Nat) : List BlockCall → IndirCaches → Except ExtFault (List Int × IndirCaches)
  | [], s => .ok ([], s)
  | c :: cs, s => do
    let r ← readAllocatedBlock d fuel c.inode c.fileblock s
    let rs ← blockCalls d fuel cs r.2
    return (r.1 :: rs.1, rs.2)

/-- In every run of calls that meet the condition, on any inodes, each call returns the block that the block map gives, and no index is outside
a cached block. -/
theorem block_map_followed (d : ExtDisk) (fuel : Nat) (hfuel : 2 ^ 16 ≤ fuel) (calls : List BlockCall)
    (hcalls : ∀ c ∈ calls, c.Valid d ∧ c.Ok d) :
    ∃ vs s, blockCalls d fuel calls .init = .ok (vs, s) ∧ List.Forall₂ (fun c v => c.Spec d v) calls vs := by
  have hrun (s : IndirCaches) (hs : CachesOk d s) :
      ∃ vs s', blockCalls d fuel calls s = .ok (vs, s') ∧ List.Forall₂ (fun c v => c.Spec d v) calls vs := by
    induction calls generalizing s with
    | nil => exact ⟨[], s, rfl, List.Forall₂.nil⟩
    | cons c cs ih =>
      obtain ⟨hv, hok⟩ := hcalls c mem_cons_self
      obtain ⟨v, s₁, hcall, hs₁, hspec⟩ := call_spec hs hfuel hv hok
      obtain ⟨vs, s', hrest, hall⟩ := ih (fun c hc => hcalls c (mem_cons_of_mem _ hc)) s₁ hs₁
      refine ⟨v :: vs, s', ?_, List.Forall₂.cons hspec hall⟩
      rw [blockCalls, hcall, ok_bind]
      simp only
      rw [hrest, ok_bind]
      rfl
  exact hrun .init cachesOk_init

/-- A disk of 1 KB blocks: block 3 is a leaf with one extent, block 5 an indirect block. -/
def smallDisk : ExtDisk where
  words i :=
    if i = 256 * 3 then 0x1f30a else if i = 256 * 3 + 4 then 4 else if i = 256 * 3 + 5 then 100 else if i = 256 * 5 then 7 else 0
  size := 1000
  log2Blksz := 1

/-- An inode with an indirect block, and inodes whose extent tree is the leaf, and an index of the leaf. -/
def indirectInode : Ext2Inode := ⟨0, fun i => if i = 12 then 5 else 0⟩
def leafInode : Ext2Inode := ⟨0x80000, fun i => if i = 0 then 0x1f30a else if i = 4 then 4 else if i = 5 then 100 else 0⟩
def indexInode : Ext2Inode := ⟨0x80000, fun i => if i = 0 then 0x1f30a else if i = 1 then 0x10000 else if i = 4 then 3 else 0⟩

theorem wfTree_leaf {d : ExtDisk} {node : ExtNode} {lo up : Nat} (hmagic : ehMagic node = EXT4_EXT_MAGIC) (hdepth : ehDepth node = 0)
    (hone : ehEntries node = 1) (hlo : lo ≤ (extentAt node 0).block) (hup : (extentAt node 0).block + (extentAt node 0).len ≤ up) :
    d.WFTree 0 node lo up := by
  refine ⟨hmagic, hdepth, fun i hi => ?_, fun i j hij hj => by omega⟩
  obtain rfl : i = 0 := by omega
  exact ⟨hlo, hup⟩

theorem wfTree_index {d : ExtDisk} {depth : Nat} {node : ExtNode} {lo up : Nat} (hmagic : ehMagic node = EXT4_EXT_MAGIC)
    (hdepth : ehDepth node = depth + 1) (hone : ehEntries node = 1) (hlo : lo ≤ eiBlock node 0) (hup : eiBlock node 0 ≤ up)
    (h : d.WFTree depth (d.child node 0) (eiBlock node 0) up) : d.WFTree (depth + 1) node lo up := by
  refine ⟨hmagic, hdepth, fun i hi => ?_, fun i j hij hj => by omega, fun i hi => ?_⟩
  · obtain rfl : i = 0 := by omega
    exact ⟨hlo, hup⟩
  · obtain rfl : i = 0 := by omega
    rwa [indexEnd, if_neg (by omega)]

theorem block_map_followed_smallDisk : ∃ vs s, blockCalls smallDisk (2 ^ 16) [⟨indirectInode, 12⟩, ⟨leafInode, 2⟩] .init = .ok (vs, s) ∧
      List.Forall₂ (fun (c : BlockCall) v => c.Spec smallDisk v) [⟨indirectInode, 12⟩, ⟨leafInode, 2⟩] vs := by
  refine block_map_followed smallDisk (2 ^ 16) (Nat.le_refl _) _ ?_
  intro c hc
  rcases mem_cons.1 hc with rfl | hc
  · refine ⟨show (12 : Nat) < 12 + 256 + 256 ^ 2 + 256 ^ 3 by decide, show (12 : Nat) < 12 + 256 + 2 * 256 ^ 2 by decide, ?_⟩
    exact ⟨⟨by decide, by decide⟩, by decide, show (7 : Nat) < 2 ^ 31 by decide⟩
  · obtain rfl := mem_singleton.1 hc
    refine ⟨wfTree_leaf (d := smallDisk) (by decide) (by decide) (by decide) (by decide) (by decide), ⟨by decide, by decide⟩, fun e he _ => ?_⟩
    have hext : smallDisk.extents (ehDepth leafInode.block) leafInode.block = [⟨0, 4, 100⟩] := by decide
    rw [hext] at he
    obtain rfl := mem_singleton.1 he
    decide

/-- The first block of a file whose tree has an index is not found, and a file block of the triple indirect block is looked for outside the
second cached block. -/
theorem block_map_followed_false :
    ((⟨indexInode, 0⟩ : BlockCall).Valid smallDisk ∧ blockCalls smallDisk (2 ^ 16) [⟨indexInode, 0⟩] .init = .ok ([-22], .init) ∧
      ¬(⟨indexInode, 0⟩ : BlockCall).Spec smallDisk (-22)) ∧
    (⟨indirectInode, 12 + 256 + 2 * 256 ^ 2⟩ : BlockCall).Valid smallDisk ∧
      blockCalls smallDisk (2 ^ 16) [⟨indirectInode, 12 + 256 + 2 * 256 ^ 2⟩] .init = .error .index := by
  refine ⟨⟨?_, rfl, ?_⟩, ?_, rfl⟩
  · refine @wfTree_index smallDisk 0 indexInode.block 0 (2 ^ 32) (by decide) (by decide) (by decide) (by decide) (by decide) ?_
    exact wfTree_leaf (by decide) (by decide) (by decide) (by decide) (by decide)
  · rintro (⟨e, -, -, h⟩ | ⟨h, -⟩)
    · omega
    · omega
  · exact show (12 + 256 + 2 * 256 ^ 2 : Nat) < 12 + 256 + 256 ^ 2 + 256 ^ 3 by decide

end UBoot
