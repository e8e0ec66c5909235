import Mathlib.Data.List.TakeWhile
import UBoot.Lemmas.JournalLoop
import UBoot.Lib.Memory

/-!
# What U-Boot puts into a journal

Statements about `ext4fs_log_journal` and `ext4fs_update_journal`: which blocks of the disk are written, and that they are a transaction.
-/

namespace UBoot.JournalAux

open Lib List

/-! ## Logging -/

variable {place : Nat → Nat} {cs : List ExtBlock} {i : Nat} {d : ExtDisk}

theorem usedEntries_eq {entries : List JournalEntry} (h : ∀ e ∈ entries, e.blknr ≠ 0xffffffff) : usedEntries entries = entries :=
  takeWhile_eq_self_iff.2 fun e he => decide_eq_true (h e he)

theorem logged_eq (images entries : List JournalEntry) (hnodup : ((entries ++ images).map JournalEntry.blknr).Nodup)
    (h : ∀ e ∈ entries ++ images, e.blknr ≠ 0xffffffff) :
    images.foldl (fun entries e => ext4fsLogJournal entries e.buf e.blknr) entries = entries ++ images := by
  induction images generalizing entries with
  | nil => rw [foldl_nil, append_nil]
  | cons e images ih =>
    have hnew : ext4fsLogJournal entries e.buf e.blknr = entries ++ [e] := by
      unfold ext4fsLogJournal
      rw [usedEntries_eq fun x hx => h x (mem_append_left _ hx), if_neg]
      intro hany
      obtain ⟨x, hx, he⟩ := any_eq_true.1 hany
      rw [map_append, nodup_append] at hnodup
      exact hnodup.2.2 x.blknr (mem_map_of_mem hx) e.blknr (mem_map_of_mem mem_cons_self) (of_decide_eq_true he)
    rw [foldl_cons, hnew, ih (entries ++ [e]) (by simpa using hnodup) (by simpa using h), append_assoc, singleton_append]

/-! ## The blocks that are written -/

/-- Blocks written one after the other to where `place` puts them. -/
def writesFrom (place : Nat → Nat) : Nat → List ExtBlock → List (Nat × ExtBlock)
  | _, [] => []
  | i, c :: cs => (place i, c) :: writesFrom place (i + 1) cs

theorem mem_writesFrom {w : Nat × ExtBlock} :
    w ∈ writesFrom place i cs ↔ ∃ k c, cs[k]? = some c ∧ w = (place (i + k), c) := by
  induction cs generalizing i with
  | nil => simp [writesFrom]
  | cons c cs ih =>
    rw [writesFrom, mem_cons, ih]
    constructor
    · rintro (rfl | ⟨k, c', hc, rfl⟩)
      · exact ⟨0, c, rfl, rfl⟩
      · exact ⟨k + 1, c', hc, by rw [Nat.add_right_comm, Nat.add_assoc]⟩
    · rintro ⟨k, c', hc, rfl⟩
      cases k with
      | zero =>
        obtain rfl := Option.some.inj hc
        exact Or.inl rfl
      | succ k => exact Or.inr ⟨k, c', hc, by rw [Nat.add_right_comm, Nat.add_assoc]⟩

theorem writesFrom_append (place : Nat → Nat) (i : Nat) (cs cs' : List ExtBlock) :
    writesFrom place i (cs ++ cs') = writesFrom place i cs ++ writesFrom place (i + cs.length) cs' := by
  induction cs generalizing i with
  | nil => rfl
  | cons c cs ih => rw [cons_append, writesFrom, ih, writesFrom, cons_append, length_cons, Nat.add_right_comm, Nat.add_assoc]

/-- Where the places differ, each block is where it was put. -/
theorem applyWrites_writesFrom
    (hplace : ∀ k l, k < cs.length → l < cs.length → place (i + k) = place (i + l) → k = l) (mem : Nat → ExtBlock) {k : Nat} {c : ExtBlock}
    (hc : cs[k]? = some c) : applyWrites mem (writesFrom place i cs) (place (i + k)) = c := by
  have hnodup : ((writesFrom place i cs).map Prod.fst).Nodup := by
    clear hc
    induction cs generalizing i k with
    | nil => exact nodup_nil
    | cons c cs ih =>
      rw [writesFrom, map_cons, nodup_cons]
      refine ⟨?_, ih (k := k) ?_⟩
      · intro hmem
        obtain ⟨w, hw, he⟩ := mem_map.1 hmem
        obtain ⟨l, c', hl, rfl⟩ := mem_writesFrom.1 hw
        have hlt := (List.getElem?_eq_some_iff.1 hl).1
        have := hplace (l + 1) 0 (Nat.succ_lt_succ hlt) (Nat.succ_pos _) (by rw [← Nat.add_assoc, Nat.add_right_comm]; exact he)
        omega
      · intro k l hk hl he
        have := hplace (k + 1) (l + 1) (Nat.succ_lt_succ hk) (Nat.succ_lt_succ hl) (by
          rw [← Nat.add_assoc, ← Nat.add_assoc, Nat.add_right_comm, Nat.add_right_comm i l]
          exact he)
        omega
  rw [applyWrites_apply, lastWrite_of_mem hnodup (mem_writesFrom.2 ⟨k, c, hc, rfl⟩), Option.getD_some]

/-! ## Writing the journal -/

/-- The words of a descriptor block. -/
def descriptorWords (sequence : UInt32) (init : List JournalEntry) (last : JournalEntry) : List UInt32 :=
  [be32 EXT3_JOURNAL_MAGIC_NUMBER, be32 EXT3_JOURNAL_DESCRIPTOR_BLOCK, sequence] ++ tagWords init ++
    [be32 last.blknr, be32 EXT3_JOURNAL_FLAG_LAST_TAG]

/-- The words of a commit block. -/
def commitWords (sequence : UInt32) : List UInt32 := [be32 EXT3_JOURNAL_MAGIC_NUMBER, be32 EXT3_JOURNAL_COMMIT_BLOCK, sequence]

/-- A block that begins with some words. -/
def wordsBlock (words : List UInt32) : ExtBlock := fun w => words[w]?.getD 0

theorem length_tagWords (entries : List JournalEntry) : (tagWords entries).length = 2 * entries.length := by
  induction entries with
  | nil => rfl
  | cons e entries ih =>
    change (tagWords entries).length + 2 = _
    rw [ih, length_cons]
    omega

theorem take_tagWords (init : List JournalEntry) (last : JournalEntry) :
    (tagWords (init ++ [last])).take (2 * ((init ++ [last]).length - 1)) = tagWords init := by
  have happend : tagWords (init ++ [last]) = tagWords init ++ tagWords [last] := flatMap_append
  rw [happend, length_append, length_singleton, Nat.add_sub_cancel, ← length_tagWords, take_left]

theorem truncBlock_sameBut {S : Nat → Prop} {d' : ExtDisk} (h : d.SameBut S d') (buf : ExtBlock) : truncBlock d' buf = truncBlock d buf := by
  unfold truncBlock
  rw [SameBut.perblock h]

theorem updateDescriptorBlock_eq {m : JournalMap} {ptr init : List JournalEntry} {last : JournalEntry}
    (hused : usedEntries ptr = init ++ [last]) (hfits : 12 + 8 * (init ++ [last]).length ≤ d.blksz) (blknr : Nat) :
    updateDescriptorBlock m ptr blknr d = some (d.putBlock (d.offset blknr) (wordsBlock
      (descriptorWords (d.readBlock (fun _ => 0) (m.readAllocatedBlock d (m.readInode d) 0) 6) init last))) := by
  have hlength (sequence : UInt32) : (descriptorWords sequence init last).length = 3 + 2 * init.length + 2 := by
    simp only [descriptorWords, length_append, length_cons, length_nil, length_tagWords]
  rw [length_append, length_singleton] at hfits
  unfold updateDescriptorBlock
  simp only
  rw [hused, getLast?_concat]
  simp only
  rw [take_tagWords]
  change (if d.blksz < 4 * (descriptorWords _ init last).length then none else _) = _
  rw [if_neg (by rw [hlength]; omega)]
  rfl

section Write

variable {m : JournalMap} {d₀ d : ExtDisk} {S : Nat → Prop}
variable {i : Nat} {ptr init : List JournalEntry} {last : JournalEntry}

theorem putJournal_becomes (h : Kept m d₀ S d) (hw : d₀.Writable (m.block d₀ i)) (buf : ExtBlock) :
    d.Becomes (d.putBlock (m.readAllocatedBlock d (m.readInode d₀) i * d.blksz) buf)
      (applyWrites d.block [(m.block d₀ i, truncBlock d₀ buf)]) := by
  have hput := putBlock_becomes ((SameBut.writable h.same).2 hw) buf
  rw [truncBlock_sameBut h.same] at hput
  rw [h.stays.map i]
  exact hput

theorem putJournal32_becomes (h : Kept m d₀ S d) (hw : d₀.Writable (m.block d₀ i)) (buf : ExtBlock) :
    d.Becomes (d.putBlock (d.offset (m.readAllocatedBlock d (m.readInode d₀) i)) buf)
      (applyWrites d.block [(m.block d₀ i, truncBlock d₀ buf)]) := by
  have hput := putJournal_becomes h hw buf
  rw [h.stays.map i] at hput ⊢
  rwa [offset_eq ((SameBut.writable h.same).2 hw)]

theorem updateDescriptorBlock_becomes (h : Kept m d₀ S d)
    (hsuper : SafeIndex m d₀ S 0) (hused : usedEntries ptr = init ++ [last]) (hfits : 12 + 8 * (init ++ [last]).length ≤ d₀.blksz)
    (hw : d₀.Writable (m.block d₀ i)) :
    ∃ d', updateDescriptorBlock m ptr (m.readAllocatedBlock d (m.readInode d₀) i) d = some d' ∧ d.Becomes d' (applyWrites d.block
        [(m.block d₀ i, truncBlock d₀ (wordsBlock (descriptorWords (m.super d₀ 6) init last)))]) := by
  refine ⟨_, updateDescriptorBlock_eq hused (by rw [SameBut.blksz h.same]; exact hfits) _, ?_⟩
  rw [h.stays.inode, readBlock_journal h hsuper]
  exact putJournal32_becomes h hw _

theorem updateCommitBlock_becomes (h : Kept m d₀ S d) (hsuper : SafeIndex m d₀ S 0)
    (hw : d₀.Writable (m.block d₀ i)) :
    d.Becomes (updateCommitBlock m (m.readAllocatedBlock d (m.readInode d₀) i) d)
      (applyWrites d.block [(m.block d₀ i, truncBlock d₀ (wordsBlock (commitWords (m.super d₀ 6))))]) := by
  unfold updateCommitBlock
  rw [h.stays.inode, readBlock_journal h hsuper]
  exact putJournal32_becomes h hw _

theorem putEntries_becomes (entries : List JournalEntry)
    (hm : m.StaysAlong d₀ d (writesFrom (m.block d₀) i (entries.map fun e => truncBlock d₀ e.buf))) (h : d₀.SameBut S d)
    (hw : ∀ k < entries.length, S (m.block d₀ (i + k)) ∧ d₀.Writable (m.block d₀ (i + k))) :
    d.Becomes (putEntries m (m.readInode d₀) entries i d)
      (applyWrites d.block (writesFrom (m.block d₀) i (entries.map fun e => truncBlock d₀ e.buf))) := by
  induction entries generalizing d i with
  | nil => exact Becomes.refl d
  | cons e entries ih =>
    have hhead := hw 0 (Nat.succ_pos _)
    have hfirst := putJournal_becomes (i := i) ⟨StaysAlong.here hm, h⟩ hhead.2 e.buf
    have hsame := SameBut.trans h (Becomes.sameBut hfirst (by
      intro w hmem
      obtain rfl := mem_singleton.1 hmem
      exact hhead.1))
    have hrest := ih (i := i + 1) (StaysAlong.behind hm hfirst) hsame (fun k hk => by
      have := hw (k + 1) (Nat.succ_lt_succ hk)
      rwa [← Nat.add_assoc, Nat.add_right_comm] at this)
    exact Becomes.trans hfirst hrest

/-- The blocks that the journal gets. -/
def journalContents (d₀ : ExtDisk) (sequence : UInt32) (init : List JournalEntry) (last : JournalEntry) : List ExtBlock :=
  truncBlock d₀ (wordsBlock (descriptorWords sequence init last)) ::
    ((init ++ [last]).map fun e => truncBlock d₀ e.buf) ++ [truncBlock d₀ (wordsBlock (commitWords sequence))]

theorem updateJournal_becomes {first : Nat}
    (hm : m.StaysAlong d₀ d₀ (writesFrom (m.block d₀) first (journalContents d₀ (m.super d₀ 6) init last)))
    (hsuper : SafeIndex m d₀ S 0) (hused : usedEntries ptr = init ++ [last]) (hfits : 12 + 8 * (init ++ [last]).length ≤ d₀.blksz)
    (hw : ∀ k ≤ (init ++ [last]).length + 1, S (m.block d₀ (first + k)) ∧ d₀.Writable (m.block d₀ (first + k))) :
    ∃ d', ext4fsUpdateJournal m ptr first d₀ = some (d', first + (init ++ [last]).length + 2) ∧
      d₀.Becomes d' (applyWrites d₀.block (writesFrom (m.block d₀) first (journalContents d₀ (m.super d₀ 6) init last))) := by
  have hwrites : writesFrom (m.block d₀) first (journalContents d₀ (m.super d₀ 6) init last) =
      [(m.block d₀ first, truncBlock d₀ (wordsBlock (descriptorWords (m.super d₀ 6) init last)))] ++
        writesFrom (m.block d₀) (first + 1) ((init ++ [last]).map fun e => truncBlock d₀ e.buf) ++
        [(m.block d₀ (first + 1 + (init ++ [last]).length), truncBlock d₀ (wordsBlock (commitWords (m.super d₀ 6))))] := by
    rw [journalContents, cons_append, writesFrom, writesFrom_append, length_map]
    rfl
  rw [hwrites] at hm ⊢
  obtain ⟨d₁, hdesc, hbecomes₁⟩ := updateDescriptorBlock_becomes (i := first) ⟨StaysAlong.here hm, SameBut.refl S d₀⟩ hsuper hused hfits
    (hw 0 (Nat.zero_le _)).2
  have h₁ := Becomes.sameBut hbecomes₁ (fun w hmem => by
    obtain rfl := mem_singleton.1 hmem
    exact (hw 0 (Nat.zero_le _)).1)
  have hdata : ∀ k < (init ++ [last]).length, S (m.block d₀ (first + 1 + k)) ∧ d₀.Writable (m.block d₀ (first + 1 + k)) := by
    intro k hk
    have := hw (k + 1) (by omega)
    rwa [← Nat.add_assoc, Nat.add_right_comm] at this
  have hbecomes₂ := putEntries_becomes (init ++ [last]) (StaysAlong.behind (StaysAlong.left hm) hbecomes₁) h₁ hdata
  have h₂ := SameBut.trans h₁ (Becomes.sameBut hbecomes₂ (fun w hmem => by
    obtain ⟨k, c, hc, rfl⟩ := mem_writesFrom.1 hmem
    have hk := (List.getElem?_eq_some_iff.1 hc).1
    rw [List.length_map] at hk
    exact (hdata k hk).1))
  have hlast := hw ((init ++ [last]).length + 1) (Nat.le_refl _)
  rw [← Nat.add_assoc, Nat.add_right_comm] at hlast
  have hm₂ := StaysAlong.here (StaysAlong.behind hm (Becomes.trans hbecomes₁ hbecomes₂))
  have hbecomes₃ := updateCommitBlock_becomes (i := first + 1 + (init ++ [last]).length) ⟨hm₂, h₂⟩ hsuper hlast.2
  refine ⟨updateCommitBlock m (m.readAllocatedBlock (putEntries m (m.readInode d₀) (init ++ [last]) (first + 1) d₁) (m.readInode d₀)
    (first + 1 + (init ++ [last]).length)) (putEntries m (m.readInode d₀) (init ++ [last]) (first + 1) d₁), ?_, ?_⟩
  · unfold ext4fsUpdateJournal
    simp only
    rw [hused, hdesc]
    change some (_, first + 1 + (init ++ [last]).length + 1) = _
    rw [show first + 1 + (init ++ [last]).length + 1 = first + (init ++ [last]).length + 2 by omega]
  · exact Becomes.trans (Becomes.trans hbecomes₁ hbecomes₂) hbecomes₃

end Write

/-! ## What was written is a transaction -/

theorem imagesAt_of_forall {j : Nat → ExtBlock} {tags : List JournalTag} {i : Nat}
    (h : ∀ k tag, tags[k]? = some tag → j (i + k) = tag.image) : ImagesAt j i tags := by
  induction tags generalizing i with
  | nil => trivial
  | cons tag tags ih =>
    refine ⟨h 0 tag rfl, ih ?_⟩
    intro k tag' htag
    rw [Nat.add_assoc, Nat.add_comm 1]
    exact h (k + 1) tag' htag

def entryTag (d₀ : ExtDisk) (e : JournalEntry) : JournalTag := ⟨e.blknr, false, truncBlock d₀ e.buf⟩

theorem stored_wordsBlock (d : ExtDisk) (words : List UInt32) (h : words.length ≤ d.perblock) :
    Stored (truncBlock d (wordsBlock words)) 0 words := by
  intro i x hx
  have hlt := (List.getElem?_eq_some_iff.1 hx).1
  rw [Nat.zero_add, truncBlock, if_pos (by omega), wordsBlock, hx, Option.getD_some]

theorem tagsAt_written (d₀ : ExtDisk) {blksz : Nat} {blk : ExtBlock} (last : JournalEntry) (init : List JournalEntry) {a : Nat}
    (hstored : Stored blk a (tagWords init ++ [be32 last.blknr, be32 EXT3_JOURNAL_FLAG_LAST_TAG]))
    (hfits : 4 * a + 8 * (init ++ [last]).length ≤ blksz) : TagsAt blksz blk (4 * a) ((init ++ [last]).map (entryTag d₀)) := by
  have hword : 4 * a / 4 = a := Nat.mul_div_cancel_left a (by decide)
  rw [length_append, length_singleton] at hfits
  induction init generalizing a with
  | nil =>
    obtain ⟨hblock, hrest⟩ := stored_cons.1 hstored
    have hflags : tagFlags blk (4 * a) = EXT3_JOURNAL_FLAG_LAST_TAG := by
      rw [tagFlags, hword, (stored_cons.1 hrest).1, be32_be32]
    have hblock : tagBlock blk (4 * a) = last.blknr := by
      rw [tagBlock, hword, hblock, be32_be32]
    exact TagsAt.last (by simpa using hfits) hblock (by rw [hflags]; rfl) (by rw [hflags]; rfl)
  | cons e init ih =>
    obtain ⟨hblock, hrest⟩ := stored_cons.1 hstored
    obtain ⟨hflag, hrest⟩ := stored_cons.1 hrest
    have hflags : tagFlags blk (4 * a) = EXT3_JOURNAL_FLAG_SAME_UUID := by
      rw [tagFlags, hword, hflag, be32_be32]
    have hblock : tagBlock blk (4 * a) = e.blknr := by
      rw [tagBlock, hword, hblock, be32_be32]
    have hnext : nextOfs (tagFlags blk (4 * a)) (4 * a) = 4 * (a + 1 + 1) := by
      rw [hflags]
      exact show 4 * a + 8 = 4 * (a + 1 + 1) by omega
    rw [length_cons] at hfits
    refine TagsAt.more (by omega) hblock (by rw [hflags]; rfl) (by rw [hflags]; rfl) ?_
    rw [hnext]
    exact ih hrest (by omega) (Nat.mul_div_cancel_left _ (by decide))

theorem isDescriptor_written (d₀ : ExtDisk) {sequence : UInt32} {init : List JournalEntry} {last : JournalEntry}
    (hfits : 12 + 8 * (init ++ [last]).length ≤ d₀.blksz) :
    IsDescriptor d₀.blksz (be32 sequence) ((init ++ [last]).map (entryTag d₀))
      (truncBlock d₀ (wordsBlock (descriptorWords sequence init last))) := by
  have hlength : (descriptorWords sequence init last).length = 3 + 2 * (init ++ [last]).length := by
    simp only [descriptorWords, length_append, length_cons, length_nil, length_tagWords]
    omega
  have hstored := stored_wordsBlock d₀ (descriptorWords sequence init last) (by rw [hlength]; rw [blksz_eq] at hfits; omega)
  rw [descriptorWords, append_assoc, stored_append] at hstored
  obtain ⟨hheader, htags⟩ := hstored
  have htype : truncBlock d₀ (wordsBlock (descriptorWords sequence init last)) 1 = be32 EXT3_JOURNAL_DESCRIPTOR_BLOCK := hheader 1 _ rfl
  have hseq : truncBlock d₀ (wordsBlock (descriptorWords sequence init last)) 2 = sequence := hheader 2 _ rfl
  refine ⟨?_, ?_, tagsAt_written d₀ last init (a := 3) htags hfits⟩
  · rw [hBlocktype, htype, be32_be32]
  · rw [hSequence, hseq]

theorem isCommit_written (d₀ : ExtDisk) (sequence : UInt32) :
    IsCommit (be32 sequence) (truncBlock d₀ (wordsBlock (commitWords sequence))) := by
  have hperblock : 128 ≤ d₀.perblock := Nat.le_mul_of_pos_right 128 (Nat.two_pow_pos _)
  have hstored := stored_wordsBlock d₀ (commitWords sequence) (show 3 ≤ d₀.perblock by omega)
  have htype : truncBlock d₀ (wordsBlock (commitWords sequence)) 1 = be32 EXT3_JOURNAL_COMMIT_BLOCK := hstored 1 _ rfl
  have hseq : truncBlock d₀ (wordsBlock (commitWords sequence)) 2 = sequence := hstored 2 _ rfl
  refine ⟨?_, ?_⟩
  · rw [hBlocktype, htype, be32_be32]
  · rw [hSequence, hseq]

end UBoot.JournalAux
