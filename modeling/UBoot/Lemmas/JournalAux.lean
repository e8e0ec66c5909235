import Mathlib.Data.Nat.Bitwise
import Mathlib.Tactic.SplitIfs
import UBoot.Ext4Journal

/-!
# Lemmas about the journal

Statements about the definitions of `Ext4Journal.lean`: what `put_ext4` does to the blocks of a disk, and what the two loops over the
tags do with a descriptor block.
-/

namespace UBoot.JournalAux

open Lib List

theorem toNat_be32 {w : UInt32} {a b c e : Nat} (ha : a < 256) (hb : b < 256) (hc : c < 256) (he : e < 256)
    (hw : w.toNat = a + 256 * b + 256 ^ 2 * c + 256 ^ 3 * e) : (be32 w).toNat = e + 256 * c + 256 ^ 2 * b + 256 ^ 3 * a := by
  have h0 : w.toNat % 2 ^ 8 = a := by omega
  have h1 : w.toNat / 2 ^ 8 % 2 ^ 8 = b := by omega
  have h2 : w.toNat / 2 ^ 16 % 2 ^ 8 = c := by omega
  have h3 : w.toNat / 2 ^ 24 = e := by omega
  rw [be32, h0, h1, h2, h3, UInt32.toNat_ofNat', Nat.mod_eq_of_lt (by omega)]
  omega

theorem be32_be32 (w : UInt32) : be32 (be32 w) = w := by
  have hlt := w.toNat_lt
  obtain ⟨a, b, c, e, ha, hb, hc, he, hw⟩ : ∃ a b c e, a < 256 ∧ b < 256 ∧ c < 256 ∧ e < 256 ∧
      w.toNat = a + 256 * b + 256 ^ 2 * c + 256 ^ 3 * e :=
    ⟨w.toNat % 256, w.toNat / 256 % 256, w.toNat / 256 ^ 2 % 256, w.toNat / 256 ^ 3, by omega, by omega, by omega, by omega, by omega⟩
  apply UInt32.toNat_inj.1
  rw [toNat_be32 he hc hb ha (toNat_be32 ha hb hc he hw), hw]

/-! ## Blocks -/

theorem perblock_pos (d : ExtDisk) : 0 < d.perblock := Nat.mul_pos (by decide) (Nat.two_pow_pos _)

theorem blksz_eq (d : ExtDisk) : d.blksz = 4 * d.perblock := by
  unfold ExtDisk.blksz ExtDisk.perblock
  omega

theorem block_words (d : ExtDisk) (f : Nat → UInt32) (b w : Nat) :
    ({ d with words := f } : ExtDisk).block b w = if w < d.perblock then f (d.perblock * b + w) else 0 := rfl

theorem block_of_ge (d : ExtDisk) (b : Nat) {w : Nat} (h : d.perblock ≤ w) : d.block b w = 0 := if_neg (by omega)

theorem perblock_mul (d : ExtDisk) (b : Nat) : d.perblock * b = 128 * (b * 2 ^ d.log2Blksz) := by
  unfold ExtDisk.perblock
  rw [Nat.mul_assoc, Nat.mul_comm b]

theorem word_outside {p b b' w : Nat} (hne : b' ≠ b) (hw : w < p) : p * b' + w < p * b ∨ p * b + p ≤ p * b' + w := by
  rcases Nat.lt_or_gt_of_ne hne with h | h
  · have := Nat.mul_le_mul_left p (Nat.succ_le_of_lt h)
    rw [Nat.mul_succ] at this
    omega
  · have := Nat.mul_le_mul_left p (Nat.succ_le_of_lt h)
    rw [Nat.mul_succ] at this
    omega

theorem readBlock_eq {d : ExtDisk} {b : Nat} (old : ExtBlock) (hhas : d.Has b) (hread : d.Addressable b) : d.readBlock old b = d.block b := by
  unfold ExtDisk.Has at hhas
  unfold ExtDisk.Addressable at hread
  have hsector : d.sector b = b * 2 ^ d.log2Blksz := Nat.mod_eq_of_lt (by omega)
  have hpos := Nat.two_pow_pos d.log2Blksz
  have hread : d.devread (d.sector b) = some fun i => d.words (128 * d.sector b + i) := if_neg (by omega)
  unfold ExtDisk.readBlock ExtDisk.block
  rw [hread, hsector, perblock_mul]

theorem totalSect_le (d : ExtDisk) : d.totalSect ≤ 2 ^ 23 - 1 ∧ d.totalSect ≤ d.size := by
  unfold ExtDisk.totalSect
  omega

theorem offset_eq {d : ExtDisk} {b : Nat} (h : d.Writable b) : d.offset b = b * d.blksz := by
  have hle := (totalSect_le d).1
  have hpos := Nat.two_pow_pos d.log2Blksz
  unfold ExtDisk.Writable at h
  have hblksz : b * d.blksz = 512 * (b * 2 ^ d.log2Blksz) := by
    unfold ExtDisk.blksz
    rw [Nat.mul_left_comm]
  unfold ExtDisk.offset
  rw [hblksz, Nat.mod_eq_of_lt (by omega)]

/-- The words of a buffer that a block has room for. -/
def truncBlock (d : ExtDisk) (buf : ExtBlock) : ExtBlock := fun w => if w < d.perblock then buf w else 0

theorem putBlock_becomes {d : ExtDisk} {b : Nat} (h : d.Writable b) (buf : ExtBlock) :
    d.Becomes (d.putBlock (b * d.blksz) buf) (Function.update d.block b (truncBlock d buf)) := by
  have hoff : b * d.blksz / 512 = b * 2 ^ d.log2Blksz := by
    unfold ExtDisk.blksz
    rw [Nat.mul_left_comm, Nat.mul_div_cancel_left _ (by decide)]
  have hoff4 : b * d.blksz / 4 = d.perblock * b := by
    rw [blksz_eq, Nat.mul_left_comm, Nat.mul_div_cancel_left _ (by decide), Nat.mul_comm]
  have hput : d.putBlock (b * d.blksz) buf = { d with
      words := fun a => if d.perblock * b ≤ a ∧ a < d.perblock * b + d.perblock then buf (a - d.perblock * b) else d.words a } := by
    unfold ExtDisk.Writable at h
    unfold ExtDisk.putBlock ExtDisk.put
    rw [if_neg (by omega), hoff4]
    rfl
  rw [hput]
  refine ⟨rfl, rfl, ?_⟩
  funext b' w
  rw [Function.update_apply, block_words]
  by_cases hw : w < d.perblock
  · rw [if_pos hw]
    by_cases hb : b' = b
    · subst hb
      rw [if_pos rfl, if_pos (by omega), Nat.add_sub_cancel_left, truncBlock, if_pos hw]
    · have hout := word_outside hb hw
      rw [if_neg hb, if_neg (by omega), ExtDisk.block, if_pos hw]
  · rw [if_neg hw]
    split
    · exact (if_neg hw).symm
    · exact (block_of_ge d b' (by omega)).symm

theorem truncBlock_block (d : ExtDisk) (b : Nat) : truncBlock d (d.block b) = d.block b := by
  funext w
  unfold truncBlock
  split
  · rfl
  · next h => exact (block_of_ge d b (by omega)).symm

/-! ## The superblock -/

/-- A flag that is there is there once more. -/
theorem or_recover {w : UInt32} (h : hasFlag w EXT3_FEATURE_INCOMPAT_RECOVER) : w ||| EXT3_FEATURE_INCOMPAT_RECOVER = w := by
  have hbit : w.toNat.testBit 2 = true := by
    cases hb : w.toNat.testBit 2 with
    | true => rfl
    | false =>
      have hand : w &&& EXT3_FEATURE_INCOMPAT_RECOVER = 0 := by
        apply UInt32.toNat_inj.1
        rw [UInt32.toNat_and, show EXT3_FEATURE_INCOMPAT_RECOVER.toNat = 2 ^ 2 from rfl, Nat.and_two_pow, hb]
        rfl
      simp [hasFlag, hand] at h
  apply UInt32.toNat_inj.1
  rw [UInt32.toNat_or, show EXT3_FEATURE_INCOMPAT_RECOVER.toNat = 2 ^ 2 from rfl]
  apply Nat.eq_of_testBit_eq
  intro i
  rw [Nat.testBit_or, Nat.testBit_two_pow]
  by_cases hi : 2 = i
  · subst hi
    simp [hbit]
  · simp [hi]

/-- The superblock is written back with one flag more. -/
theorem put_super (d : ExtDisk) (old : ExtBlock) :
    d.put 1024 2 (Function.update (d.readSuper old) 24 (featureIncompat (d.readSuper old) ||| EXT3_FEATURE_INCOMPAT_RECOVER)) = d.flagged := by
  unfold ExtDisk.put ExtDisk.flagged
  by_cases hfits : d.totalSect < 4
  · rw [if_pos hfits, if_pos hfits]
  · have hsize := (totalSect_le d).2
    have hread : d.readSuper old = fun w => if w < 256 then d.words (256 + w) else 0 := if_neg (by omega)
    rw [if_neg hfits, if_neg hfits, hread]
    congr 1
    funext a
    by_cases ha : a = 280
    · subst ha
      have hword : featureIncompat (fun w => if w < 256 then d.words (256 + w) else 0) = d.words 280 := rfl
      rw [if_pos (by decide), hword, Function.update_self 280]
      exact Function.update_self 24 _ _
    · rw [Function.update_of_ne ha]
      split
      · rw [Function.update_of_ne (by omega), if_pos (by omega), show 256 + (a - 1024 / 4) = a by omega]
      · rfl

theorem flagged_words (d : ExtDisk) : ∃ f, d.flagged = { d with words := f } ∧ (∀ a, a ≠ 280 → f a = d.words a) ∧
    (f 280 = d.words 280 ∨ f 280 = d.words 280 ||| EXT3_FEATURE_INCOMPAT_RECOVER) := by
  unfold ExtDisk.flagged
  split
  · exact ⟨d.words, rfl, fun a _ => rfl, Or.inl rfl⟩
  · exact ⟨_, rfl, fun a ha => Function.update_of_ne ha _ _, Or.inr (Function.update_self 280 _ _)⟩

theorem super_index {d : ExtDisk} (h : 1 ≤ d.log2Blksz) : d.perblock * d.superBlock + d.featureWord = 280 ∧ d.featureWord < d.perblock := by
  have hdiv := Nat.div_add_mod 256 d.perblock
  have hlt := Nat.mod_lt 256 (perblock_pos d)
  have hpow : 2 ^ 1 ≤ 2 ^ d.log2Blksz := Nat.pow_le_pow_right (by decide) h
  unfold ExtDisk.superBlock ExtDisk.featureWord
  refine ⟨by omega, ?_⟩
  rcases Nat.lt_or_ge 256 d.perblock with h256 | h256
  · have hp : 512 ≤ d.perblock := by
      have hl : 2 ≤ d.log2Blksz := by
        by_contra hl
        obtain hl : d.log2Blksz = 1 := by omega
        unfold ExtDisk.perblock at h256
        rw [hl] at h256
        omega
      have := Nat.pow_le_pow_right (show 0 < 2 by decide) hl
      unfold ExtDisk.perblock
      omega
    omega
  · obtain hp : d.perblock = 256 := by
      unfold ExtDisk.perblock at h256 ⊢
      omega
    rw [hp]
    decide

/-- No other block than the one with the superblock is changed, and this one is not if it has the flag. -/
theorem flagged_block (d : ExtDisk) (hlog : 1 ≤ d.log2Blksz) : d.SameBut (· = d.superBlock) d.flagged ∧
    (hasFlag (d.block d.superBlock d.featureWord) EXT3_FEATURE_INCOMPAT_RECOVER → d.flagged.block d.superBlock = d.block d.superBlock) := by
  obtain ⟨f, hput, hother, hflag⟩ := flagged_words d
  obtain ⟨hidx, hlt⟩ := super_index hlog
  rw [hput]
  refine ⟨⟨rfl, rfl, ?_⟩, ?_⟩
  · intro b hb
    funext w
    rw [block_words, ExtDisk.block]
    split
    · next hw =>
      rw [hother]
      intro he
      have hout := @word_outside d.perblock d.superBlock b w hb hw
      omega
    · rfl
  · intro hset
    rw [ExtDisk.block, if_pos hlt, hidx] at hset
    funext w
    rw [block_words, ExtDisk.block]
    by_cases hw : d.perblock * d.superBlock + w = 280
    · rw [hw]
      rcases hflag with hflag | hflag
      · rw [hflag]
      · rw [hflag, or_recover hset]
    · rw [hother _ hw]

/-! ## Disks that differ in some blocks -/

theorem SameBut.refl (S : Nat → Prop) (d : ExtDisk) : d.SameBut S d := ⟨rfl, rfl, fun _ _ => rfl⟩

theorem SameBut.perblock {S : Nat → Prop} {d d' : ExtDisk} (h : d.SameBut S d') : d'.perblock = d.perblock := by
  unfold ExtDisk.perblock
  rw [h.2.1]

theorem SameBut.blksz {S : Nat → Prop} {d d' : ExtDisk} (h : d.SameBut S d') : d'.blksz = d.blksz := by
  rw [blksz_eq, blksz_eq, SameBut.perblock h]

theorem SameBut.has {S : Nat → Prop} {d d' : ExtDisk} (h : d.SameBut S d') {b : Nat} : d'.Has b ↔ d.Has b := by
  unfold ExtDisk.Has
  rw [h.1, h.2.1]

theorem SameBut.addressable {S : Nat → Prop} {d d' : ExtDisk} (h : d.SameBut S d') {b : Nat} : d'.Addressable b ↔ d.Addressable b := by
  unfold ExtDisk.Addressable
  rw [h.2.1]

theorem SameBut.writable {S : Nat → Prop} {d d' : ExtDisk} (h : d.SameBut S d') {b : Nat} : d'.Writable b ↔ d.Writable b := by
  unfold ExtDisk.Writable ExtDisk.totalSect
  rw [h.1, h.2.1]

theorem SameBut.trans {S : Nat → Prop} {d d' d'' : ExtDisk} (h : d.SameBut S d') (h' : d'.SameBut S d'') : d.SameBut S d'' :=
  ⟨h'.1.trans h.1, h'.2.1.trans h.2.1, fun b hb => (h'.2.2 b hb).trans (h.2.2 b hb)⟩

theorem SameBut.mono {S T : Nat → Prop} {d d' : ExtDisk} (h : d.SameBut S d') (hST : ∀ b, S b → T b) : d.SameBut T d' :=
  ⟨h.1, h.2.1, fun b hb => h.2.2 b fun hS => hb (hST b hS)⟩

theorem Becomes.sameBut {S : Nat → Prop} {d d' : ExtDisk} {ws : List (Nat × ExtBlock)} (h : d.Becomes d' (applyWrites d.block ws))
    (hws : ∀ w ∈ ws, S w.1) : d.SameBut S d' := by
  refine ⟨h.size, h.log2Blksz, ?_⟩
  intro b hb
  rw [h.block, applyWrites_apply, lastWrite_eq_none fun v hv => hb (hws _ hv), Option.getD_none]

theorem Becomes.trans {d d' d'' : ExtDisk} {ws ws' : List (Nat × ExtBlock)} (h : d.Becomes d' (applyWrites d.block ws))
    (h' : d'.Becomes d'' (applyWrites d'.block ws')) : d.Becomes d'' (applyWrites d.block (ws ++ ws')) :=
  ⟨h'.size.trans h.size, h'.log2Blksz.trans h.log2Blksz, by rw [h'.block, h.block, applyWrites_append]⟩

theorem Becomes.refl (d : ExtDisk) : d.Becomes d (applyWrites d.block []) := ⟨rfl, rfl, rfl⟩

/-! ## The blocks of the journal -/

theorem Stays.block {m : JournalMap} {d d' : ExtDisk} (h : m.Stays d d') (i : Nat) : m.block d' i = m.block d i := by
  rw [JournalMap.block, h.inode, h.map]

theorem Stays.of_stays {m : JournalMap} {d d' d'' : ExtDisk} (h : m.Stays d d') (h' : m.Stays d d'') : m.Stays d' d'' :=
  ⟨h'.inode.trans h.inode.symm, fun i => by rw [h.inode, h'.map, Stays.block h]⟩

section Along

variable {m : JournalMap} {d d' d'' : ExtDisk} {ws ws' : List (Nat × ExtBlock)}

theorem StaysAlong.here (h : m.StaysAlong d d' ws) : m.Stays d d' := h [] d' nil_prefix (Becomes.refl d')

theorem StaysAlong.left (h : m.StaysAlong d d' (ws ++ ws')) : m.StaysAlong d d' ws :=
  fun vs d'' hvs => h vs d'' (hvs.trans (prefix_append ws ws'))

theorem StaysAlong.behind (h : m.StaysAlong d d' (ws ++ ws')) (hws : d'.Becomes d'' (applyWrites d'.block ws)) : m.StaysAlong d d'' ws' := by
  intro vs e hvs he
  exact h (ws ++ vs) e ((prefix_append_right_inj ws).2 hvs) (Becomes.trans hws he)

end Along

/-- A disk with the journal where it is, which differs in the blocks of a set only. -/
structure Kept (m : JournalMap) (d : ExtDisk) (S : Nat → Prop) (d' : ExtDisk) : Prop where
  stays : m.Stays d d'
  same : d.SameBut S d'

/-- A block of the journal that can be read and is not in the set. -/
structure SafeIndex (m : JournalMap) (d : ExtDisk) (S : Nat → Prop) (i : Nat) : Prop where
  outside : ¬S (m.block d i)
  has : d.Has (m.block d i)
  addressable : d.Addressable (m.block d i)

theorem readBlock_journal {m : JournalMap} {d d' : ExtDisk} {S : Nat → Prop} (h : Kept m d S d') {i : Nat} (hi : SafeIndex m d S i)
    (old : ExtBlock) :
    d'.readBlock old (m.readAllocatedBlock d' (m.readInode d) i) = d.block (m.block d i) := by
  rw [h.stays.map i, readBlock_eq old ((SameBut.has h.same).2 hi.has) ((SameBut.addressable h.same).2 hi.addressable), h.same.2.2 _ hi.outside]

/-! ## The loops over the tags -/

theorem nextOfs_fuel {blksz ofs fuel : Nat} (flags : UInt32) (h : blksz < 8 * (fuel + 1) + ofs) : blksz < 8 * fuel + nextOfs flags ofs := by
  unfold nextOfs
  split <;> omega

theorem scanTags_eq {blksz : Nat} {jdb : ExtBlock} {ofs : Nat} {tags : List JournalTag} (h : TagsAt blksz jdb ofs tags) (fuel i : Nat)
    (hfuel : blksz < 8 * fuel + ofs) : scanTags blksz jdb fuel ofs i = i + tags.length := by
  induction h generalizing fuel i with
  | full h =>
    cases fuel with
    | zero => rfl
    | succ fuel => exact if_pos h
  | last hofs _ _ hlast =>
    cases fuel with
    | zero => omega
    | succ fuel => rw [scanTags, if_neg (by omega), if_pos hlast, length_singleton]
  | more hofs _ _ hlast _ ih =>
    cases fuel with
    | zero => omega
    | succ fuel =>
      rw [scanTags, if_neg (by omega), if_neg (by rw [hlast]; decide), ih fuel (i + 1) (nextOfs_fuel _ hfuel), length_cons]
      omega

/-- What a revoke block is to `check_blknr_for_revoke`. -/
def revokeView (blk : ExtBlock) : UInt32 × List UInt32 := (hSequence blk, revokeEntries blk)

theorem checkBlknrForRevoke_eq (blks : List ExtBlock) (b seq : UInt32) :
    checkBlknrForRevoke blks b seq = revokedAfter (blks.map revokeView) seq b.toNat := by
  have hmem (names : List UInt32) : names.contains b = (names.map UInt32.toNat).contains b.toNat := by
    rw [Bool.eq_iff_iff, contains_iff_mem, contains_iff_mem, mem_map]
    exact ⟨fun h => ⟨b, h, rfl⟩, fun ⟨c, hc, he⟩ => UInt32.toNat_inj.1 he ▸ hc⟩
  unfold checkBlknrForRevoke revokedAfter
  rw [any_map]
  congr 1
  funext blk
  rw [hmem, Function.comp_apply, revokeView]

/-- What the tags of a transaction write, if a test says what to skip. -/
def imageWrites (skip : Nat → Bool) (tags : List JournalTag) : List (Nat × ExtBlock) :=
  (tags.map fun tag => (tag.block.toNat, tag.image)).filter fun w => !skip w.1

theorem imageWrites_cons (skip : Nat → Bool) (tag : JournalTag) (tags : List JournalTag) :
    imageWrites skip (tag :: tags) = imageWrites skip [tag] ++ imageWrites skip tags := by
  unfold imageWrites
  rw [← filter_append, ← map_append, singleton_append]

theorem mem_imageWrites {skip : Nat → Bool} {tags : List JournalTag} {w : Nat × ExtBlock} (h : w ∈ imageWrites skip tags) :
    ∃ tag ∈ tags, skip tag.block.toNat = false ∧ w = (tag.block.toNat, tag.image) := by
  obtain ⟨hmem, hskip⟩ := mem_filter.1 h
  obtain ⟨tag, htag, rfl⟩ := mem_map.1 hmem
  exact ⟨tag, htag, by simpa using hskip, rfl⟩

theorem revokes_ne_nil (blks : List ExtBlock) (b seq : UInt32) :
    (decide (blks ≠ []) && checkBlknrForRevoke blks b seq) = checkBlknrForRevoke blks b seq := by
  cases blks <;> simp [checkBlknrForRevoke]

section Recover

variable {m : JournalMap} {d₀ d : ExtDisk} {S : Nat → Prop} {skip : Nat → Bool}

theorem recoverTag_becomes {tag : JournalTag} {i : Nat} (h : Kept m d₀ S d) (hsafe : SafeIndex m d₀ S i)
    (himage : d₀.block (m.block d₀ i) = tag.image)
    (hhome : skip tag.block.toNat = false → S tag.block.toNat ∧ d₀.Writable tag.block.toNat) (metadata : ExtBlock) :
    d.Becomes (if skip tag.block.toNat then d
        else d.putBlock (d.offset tag.block.toNat)
          (if skip tag.block.toNat then metadata else d.readBlock metadata (m.readAllocatedBlock d (m.readInode d₀) i)))
      (applyWrites d.block (imageWrites skip [tag])) := by
  cases hs : skip tag.block.toNat with
  | true =>
    have hnone : imageWrites skip [tag] = [] := by simp [imageWrites, hs]
    rw [hnone]
    exact Becomes.refl d
  | false =>
    have hone : imageWrites skip [tag] = [(tag.block.toNat, tag.image)] := by simp [imageWrites, hs]
    have hw := (SameBut.writable h.same).2 (hhome hs).2
    rw [hone, if_neg Bool.false_ne_true, if_neg Bool.false_ne_true, readBlock_journal h hsafe, himage, offset_eq hw]
    have htrunc : truncBlock d tag.image = tag.image := by
      rw [← himage, ← h.same.2.2 _ hsafe.outside, truncBlock_block]
    have hput := putBlock_becomes hw tag.image
    rwa [htrunc] at hput

theorem recoverTags_becomes {blks : List ExtBlock} {jdb : ExtBlock} {ofs i : Nat} {tags : List JournalTag}
    (hm : m.StaysAlong d₀ d (imageWrites skip tags)) (h : d₀.SameBut S d) (htags : TagsAt d₀.blksz jdb ofs tags)
    (himages : ImagesAt (fun i => d₀.block (m.block d₀ i)) (i + 1) tags) (hsafe : ∀ k < tags.length, SafeIndex m d₀ S (i + 1 + k))
    (hskip : ∀ b : UInt32, checkBlknrForRevoke blks b (hSequence jdb) = skip b.toNat)
    (hhome : ∀ tag ∈ tags, skip tag.block.toNat = false → S tag.block.toNat ∧ d₀.Writable tag.block.toNat) (fuel : Nat)
    (hfuel : d₀.blksz < 8 * fuel + ofs) (metadata : ExtBlock) :
    d.Becomes (recoverTags m (m.readInode d₀) blks jdb fuel ofs i metadata d) (applyWrites d.block (imageWrites skip tags)) := by
  induction htags generalizing d fuel i metadata with
  | full hofs =>
    cases fuel with
    | zero => exact Becomes.refl d
    | succ fuel =>
      rw [recoverTags, if_pos (by rw [SameBut.blksz h]; exact hofs)]
      exact Becomes.refl d
  | @last ofs tag hofs hblock _ hlast =>
    cases fuel with
    | zero => omega
    | succ fuel =>
      rw [recoverTags, if_neg (by rw [SameBut.blksz h]; omega)]
      simp only [revokes_ne_nil]
      simp only [hskip, hblock, hlast, if_true]
      exact recoverTag_becomes ⟨StaysAlong.here hm, h⟩ (hsafe 0 Nat.one_pos) himages.1 (hhome tag mem_cons_self) metadata
  | @more ofs tag tags hofs hblock _ hlast _ ih =>
    cases fuel with
    | zero => omega
    | succ fuel =>
      rw [imageWrites_cons] at hm
      have hround := recoverTag_becomes ⟨StaysAlong.here hm, h⟩ (hsafe 0 (Nat.succ_pos _)) himages.1 (hhome tag mem_cons_self) metadata
      have hsame := SameBut.trans h (Becomes.sameBut hround (by
        intro w hw
        obtain ⟨u, hu, hs, rfl⟩ := mem_imageWrites hw
        obtain rfl := mem_singleton.1 hu
        exact (hhome u mem_cons_self hs).1))
      have hrest := ih (i := i + 1) (StaysAlong.behind hm hround) hsame himages.2 (fun k hk => by
          have := hsafe (k + 1) (Nat.succ_lt_succ hk)
          rwa [← Nat.add_assoc, Nat.add_right_comm] at this)
        (fun u hu => hhome u (mem_cons_of_mem _ hu)) fuel (nextOfs_fuel _ hfuel)
      rw [recoverTags, if_neg (by rw [SameBut.blksz h]; omega), imageWrites_cons]
      simp only [revokes_ne_nil]
      simp only [hskip, hblock, hlast, Bool.false_eq_true, if_false]
      exact Becomes.trans hround (hrest _)

theorem recoverTransaction_becomes (blks : List ExtBlock) {seq : UInt32} {tags : List JournalTag} {i : Nat}
    (hm : m.StaysAlong d₀ d (imageWrites (revokedAfter (blks.map revokeView) seq) tags)) (h : d₀.SameBut S d)
    (hdesc : IsDescriptor d₀.blksz seq tags (d₀.block (m.block d₀ i)))
    (himages : ImagesAt (fun i => d₀.block (m.block d₀ i)) (i + 1) tags) (hsafe : ∀ k ≤ tags.length, SafeIndex m d₀ S (i + k))
    (hhome : ∀ tag ∈ tags, revokedAfter (blks.map revokeView) seq tag.block.toNat = false → S tag.block.toNat ∧ d₀.Writable tag.block.toNat) :
    d.Becomes (recoverTransaction m blks i d) (applyWrites d.block (imageWrites (revokedAfter (blks.map revokeView) seq) tags)) := by
  have hskip (b : UInt32) : checkBlknrForRevoke blks b (hSequence (d₀.block (m.block d₀ i))) =
      revokedAfter (blks.map revokeView) seq b.toNat := by
    rw [hdesc.sequence, checkBlknrForRevoke_eq]
  have hsafe' : ∀ k < tags.length, SafeIndex m d₀ S (i + 1 + k) := by
    intro k hk
    have := hsafe (k + 1) hk
    rwa [← Nat.add_assoc, Nat.add_right_comm] at this
  unfold recoverTransaction
  simp only
  have hm₀ := StaysAlong.here hm
  rw [hm₀.inode, readBlock_journal (i := i) ⟨hm₀, h⟩ (hsafe 0 (Nat.zero_le _))]
  exact recoverTags_becomes hm h hdesc.tags himages hsafe' hskip hhome _ (by rw [SameBut.blksz h]; omega) _

end Recover

end UBoot.JournalAux
