import UBoot.FatDir
import Mathlib.Tactic.SplitIfs

/-!
# The characters of slots

Thirteen characters of a slot lie at `charOffset`. `str2slot` puts the next thirteen of a name there, a NUL behind its last one and
`0xffff` behind that, and `slot2str` takes them back.
-/

namespace UBoot

open List Function

/-- The characters of a slot. -/
def SLOT_CHARS : Nat := 13

/-- Where a character of a slot is in its entry. -/
def charOffset (k : Nat) : Nat := if k < 5 then NAME0_4 + 2 * k else if k < 11 then NAME5_10 + 2 * (k - 5) else NAME11_12 + 2 * (k - 11)

/-- The low byte of the character at a position of what is left of a name. -/
def charLow (name : List UInt8) (k : Nat) : UInt8 := if k ≤ name.length then name.getD k 0 else 0xff

/-- The high byte. -/
def charHigh (name : List UInt8) (k : Nat) : UInt8 := if k ≤ name.length then 0 else 0xff

/-- A slot holds the characters of what is left of a name. -/
def HoldsChars (mem : Nat → UInt8) (slot : Nat) (name : List UInt8) : Prop :=
  ∀ k < SLOT_CHARS, mem (slot + charOffset k) = charLow name k ∧ mem (slot + charOffset k + 1) = charHigh name k

/-- A slot holds the characters of what is left of a name, an `id` and a checksum. -/
structure HoldsSlot (mem : Nat → UInt8) (i : Nat) (name : List UInt8) (id checksum : UInt8) : Prop where
  chars : HoldsChars mem (DIRENT_SIZE * i) name
  id : mem (DIRENT_SIZE * i) = id
  attr : mem (DIRENT_SIZE * i + ATTR) = ATTR_VFAT
  checksum : mem (DIRENT_SIZE * i + ALIAS_CHECKSUM) = checksum

/-- The number of slots of a name. -/
def slotCount (name : List UInt8) : Nat := (name.length + 12) / SLOT_CHARS

namespace VfatAux

/-! ## str2slot -/

variable {mem mem' : Nat → UInt8} {name rest : List UInt8} {b slot e k : Nat} {checksum : UInt8}

/-- What a loop over the positions of a cleared field leaves. -/
theorem putField_eq (n a : Nat) (mem : Nat → UInt8) (name : List UInt8) (e : Nat) (h0 : ∀ b, a ≤ b → b < a + 2 * n → mem b = 0) :
    (putField n a mem name e).2 = (name.drop n, e + min n (name.length + 1), decide (name.length < n)) ∧
      ∀ b, (putField n a mem name e).1 b = if a ≤ b ∧ b < a + 2 * n ∧ (b - a) % 2 = 0 then name.getD ((b - a) / 2) 0 else mem b := by
  induction n generalizing a mem name e with
  | zero =>
    refine ⟨by simp [putField], ?_⟩
    intro b
    rw [putField, if_neg (by omega)]
  | succ n ih =>
    cases name with
    | nil =>
      refine ⟨by simp [putField], ?_⟩
      intro b
      have hput : (putField (n + 1) a mem [] e).1 b = Lib.store mem a [0, 0] b := rfl
      have hstore : Lib.store mem a [0, 0] b = mem b := by
        by_cases hb : b < a ∨ a + 2 ≤ b
        · exact Lib.store_of_outside hb
        · have hz := h0 b (by omega) (by omega)
          rcases (show b = a ∨ b = a + 1 by omega) with rfl | rfl
          · rw [hz]
            exact Lib.stored_store mem b [0, 0] 0 0 rfl
          · rw [hz]
            exact Lib.stored_store mem a [0, 0] 1 0 rfl
      rw [hput, hstore]
      split_ifs with hb
      · rw [h0 b hb.1 hb.2.1, getD_nil]
      · rfl
    | cons c name =>
      have hz : ∀ b, a + 2 ≤ b → b < a + 2 + 2 * n → Function.update mem a c b = 0 := by
        intro b hb hb'
        rw [update_of_ne (by omega)]
        exact h0 b (by omega) (by omega)
      obtain ⟨h2, h1⟩ := ih (a + 2) (Function.update mem a c) name (e + 1) hz
      refine ⟨?_, ?_⟩
      · rw [putField, h2, drop_succ_cons, length_cons]
        simp only [Prod.mk.injEq, true_and, decide_eq_decide]
        omega
      · intro b
        rw [putField, h1 b]
        by_cases hb : b = a
        · subst hb
          rw [if_neg (by omega), if_pos (by omega), update_self, Nat.sub_self, Nat.zero_div, getD_cons_zero]
        · rw [update_of_ne hb]
          by_cases hin : a + 2 ≤ b ∧ b < a + 2 + 2 * n ∧ (b - (a + 2)) % 2 = 0
          · rw [if_pos hin, if_pos (by omega), show (b - a) / 2 = (b - (a + 2)) / 2 + 1 by omega, getD_cons_succ]
          · rw [if_neg hin, if_neg (by omega)]

theorem padField_eq (mem : Nat → UInt8) (field endIdx count b : Nat) :
    padField mem field endIdx count b = if field + 2 * endIdx ≤ b ∧ b < field + 2 * count then 0xff else mem b := by
  unfold padField
  generalize hn : count - endIdx = n
  induction n generalizing mem endIdx with
  | zero =>
    rw [if_neg (by omega)]
    rfl
  | succ n ih =>
    rw [range'_succ, foldl_cons, ih _ (endIdx + 1) (by omega)]
    by_cases hb : b < field + 2 * endIdx ∨ field + 2 * endIdx + 2 ≤ b
    · rw [Lib.store_of_outside hb]
      split_ifs <;> first | rfl | omega
    · rw [if_neg (by omega), if_pos (by omega)]
      rcases (show b = field + 2 * endIdx ∨ b = field + 2 * endIdx + 1 by omega) with rfl | rfl
      · exact Lib.stored_store mem (field + 2 * endIdx) [0xff, 0xff] 0 0xff rfl
      · exact Lib.stored_store mem (field + 2 * endIdx) [0xff, 0xff] 1 0xff rfl

/-- A field of a slot holds the characters of a name from position `off` on. -/
def HoldsField (mem : Nat → UInt8) (a n off : Nat) (name : List UInt8) : Prop :=
  ∀ k < n, mem (a + 2 * k) = charLow name (off + k) ∧ mem (a + 2 * k + 1) = charHigh name (off + k)

theorem HoldsField.congr {a n off : Nat} (h : HoldsField mem a n off name)
    (hm : ∀ b, a ≤ b → b < a + 2 * n → mem' b = mem b) : HoldsField mem' a n off name := by
  intro k hk
  rw [hm _ (by omega) (by omega), hm _ (by omega) (by omega)]
  exact h k hk

theorem padField_outside {field endIdx count : Nat} (h : b < field ∨ field + 2 * count ≤ b) :
    padField mem field endIdx count b = mem b := by
  rw [padField_eq, if_neg (by omega)]

theorem holdsField_pad {a n off : Nat} (h : name.length < off) :
    HoldsField (padField mem a 0 n) a n off name := by
  intro k hk
  rw [padField_eq, if_pos (by omega), padField_eq, if_pos (by omega), charLow, if_neg (by omega), charHigh, if_neg (by omega)]
  exact ⟨rfl, rfl⟩

/-- A loop over a cleared field: the name goes on behind the field, or the field holds its end once it is padded. -/
theorem exists_putField (n a off e : Nat)
    (h0 : ∀ b, a ≤ b → b < a + 2 * n → mem b = 0) (hoff : off ≤ name.length) :
    ∃ mem', putField n a mem (name.drop off) e = (mem', name.drop (off + n), e + min n (name.length - off + 1), decide (name.length < off + n)) ∧
      (off + n ≤ name.length → HoldsField mem' a n off name) ∧
      (name.length < off + n → HoldsField (padField mem' a (name.length - off + 1) n) a n off name) ∧
      ∀ b, b < a ∨ a + 2 * n ≤ b → mem' b = mem b := by
  obtain ⟨h2, h1⟩ := putField_eq n a mem (name.drop off) e h0
  generalize putField n a mem (name.drop off) e = r at h1 h2 ⊢
  obtain ⟨mem', rest⟩ := r
  simp only at h1 h2
  have hlow : ∀ k < n, mem' (a + 2 * k) = name.getD (off + k) 0 := by
    intro k hk
    rw [h1, if_pos (by omega), show (a + 2 * k - a) / 2 = k by omega]
    simp
  have hhigh : ∀ k < n, mem' (a + 2 * k + 1) = 0 := by
    intro k hk
    rw [h1, if_neg (by omega), h0 _ (by omega) (by omega)]
  refine ⟨mem', Prod.ext rfl ?_, ?_, ?_, ?_⟩
  · rw [h2, drop_drop, length_drop]
    simp only [Prod.mk.injEq, true_and, decide_eq_decide]
    omega
  · intro hlen k hk
    rw [hlow k hk, hhigh k hk, charLow, if_pos (by omega), charHigh, if_pos (by omega)]
    exact ⟨rfl, rfl⟩
  · intro hlen k hk
    rw [padField_eq, padField_eq]
    by_cases hend : off + k ≤ name.length
    · rw [if_neg (by omega), if_neg (by omega), hlow k hk, hhigh k hk, charLow, if_pos hend, charHigh, if_pos hend]
      exact ⟨rfl, rfl⟩
    · rw [if_pos (by omega), if_pos (by omega), charLow, if_neg hend, charHigh, if_neg hend]
      exact ⟨rfl, rfl⟩
  · intro b hb
    rw [h1, if_neg (by omega)]

theorem holdsChars_of_fields (h0 : HoldsField mem (slot + NAME0_4) 5 0 name)
    (h5 : HoldsField mem (slot + NAME5_10) 6 5 name) (h11 : HoldsField mem (slot + NAME11_12) 2 11 name) : HoldsChars mem slot name := by
  intro k hk
  unfold SLOT_CHARS at hk
  unfold charOffset
  by_cases hk5 : k < 5
  · have h := h0 k hk5
    rw [Nat.zero_add] at h
    rw [if_pos hk5, ← Nat.add_assoc]
    exact h
  · rw [if_neg hk5]
    by_cases hk11 : k < 11
    · have h := h5 (k - 5) (by omega)
      rw [Nat.add_sub_cancel' (by omega)] at h
      rw [if_pos hk11, ← Nat.add_assoc]
      exact h
    · have h := h11 (k - 11) (by omega)
      rw [Nat.add_sub_cancel' (by omega)] at h
      rw [if_neg hk11, ← Nat.add_assoc]
      exact h

/-! The labels of `str2slot` -/

theorem padName11_outside (h : b < slot + NAME11_12 ∨ slot + 32 ≤ b) : padName11 mem slot e b = mem b := by
  unfold padName11
  exact padField_outside (by unfold NAME11_12 at *; omega)

theorem padName5_outside (h : b < slot + NAME5_10 ∨ slot + 32 ≤ b) : padName5 mem slot e b = mem b := by
  unfold padName5
  rw [padName11_outside (by unfold NAME11_12 NAME5_10 at *; omega), padField_outside (by unfold NAME5_10 at *; omega)]

theorem padName0_outside (h : b < slot + NAME0_4 ∨ slot + 32 ≤ b) : padName0 mem slot e b = mem b := by
  unfold padName0
  rw [padName5_outside (by unfold NAME5_10 NAME0_4 at *; omega), padField_outside (by unfold NAME0_4 at *; omega)]

theorem holdsField_padName11 (h : name.length < 11) :
    HoldsField (padName11 mem slot 11) (slot + NAME11_12) 2 11 name := holdsField_pad h

theorem holdsField_padName5 (mem : Nat → UInt8) (e : Nat) (hlen : name.length < 11)
    (h : HoldsField (padField mem (slot + NAME5_10) (e - 5) 6) (slot + NAME5_10) 6 5 name) :
    HoldsField (padName5 mem slot e) (slot + NAME5_10) 6 5 name ∧ HoldsField (padName5 mem slot e) (slot + NAME11_12) 2 11 name := by
  refine ⟨h.congr ?_, holdsField_padName11 hlen⟩
  intro b hb hb'
  exact padName11_outside (by unfold NAME5_10 at hb'; unfold NAME11_12; omega)

theorem holdsChars_padName0 (hlen : name.length < 5)
    (h : HoldsField (padField mem (slot + NAME0_4) e 5) (slot + NAME0_4) 5 0 name) : HoldsChars (padName0 mem slot e) slot name := by
  obtain ⟨h5, h11⟩ := holdsField_padName5 (padField mem (slot + NAME0_4) e 5) 5 (by omega) (holdsField_pad hlen)
  refine holdsChars_of_fields (h.congr ?_) h5 h11
  intro b hb hb'
  exact padName5_outside (by unfold NAME0_4 at hb'; unfold NAME5_10; omega)

/-- `str2slot` takes thirteen characters of a name, says whether that was all, and writes only to the slot. -/
theorem str2slot_eq (name : List UInt8) (hz : ∀ b, slot ≤ b → b < slot + DIRENT_SIZE → mem b = 0) :
    ∃ mem', str2slot mem slot name = (mem', name.drop SLOT_CHARS, decide (name.length ≤ SLOT_CHARS)) ∧ HoldsChars mem' slot name ∧
      ∀ b, b < slot ∨ slot + DIRENT_SIZE ≤ b → mem' b = mem b := by
  have h13 : SLOT_CHARS = 13 := rfl
  simp only [DIRENT_SIZE] at hz ⊢
  obtain ⟨m1, hput1, hin1, hend1, hm1⟩ := exists_putField 5 (slot + NAME0_4) 0 0
    (fun b hb hb' => hz b (by omega) (by unfold NAME0_4 at hb'; omega)) (Nat.zero_le name.length)
  simp only [Nat.zero_add, Nat.sub_zero, drop_zero] at hput1 hin1 hend1
  unfold str2slot
  rw [hput1]
  by_cases hlen5 : name.length < 5
  · rw [decide_eq_true hlen5, decide_eq_true (show name.length ≤ SLOT_CHARS by omega), Nat.min_eq_right (by omega),
      drop_eq_nil_of_le (by omega), drop_eq_nil_of_le (by omega)]
    refine ⟨padName0 m1 slot (name.length + 1), rfl, holdsChars_padName0 hlen5 (hend1 hlen5), ?_⟩
    intro b hb
    rw [padName0_outside (by unfold NAME0_4; omega), hm1 b (by unfold NAME0_4; omega)]
  · have hz1 : ∀ b, slot + NAME5_10 ≤ b → b < slot + 32 → m1 b = 0 := by
      intro b hb hb'
      unfold NAME5_10 at hb
      rw [hm1 b (by unfold NAME0_4; omega), hz b (by omega) hb']
    obtain ⟨m2, hput2, hin2, hend2, hm2⟩ := exists_putField 6 (slot + NAME5_10) 5 5
      (fun b hb hb' => hz1 b hb (by unfold NAME5_10 at hb'; omega)) (Nat.not_lt.1 hlen5)
    rw [decide_eq_false hlen5, Nat.min_eq_left (by omega)]
    simp only [hput2, Nat.reduceAdd]
    by_cases hlen11 : name.length < 11
    · rw [decide_eq_true hlen11, decide_eq_true (show name.length ≤ SLOT_CHARS by omega), Nat.min_eq_right (by omega),
        drop_eq_nil_of_le (by omega), drop_eq_nil_of_le (by omega)]
      have hend := hend2 hlen11
      refine ⟨padName5 m2 slot (5 + (name.length - 5 + 1)), rfl, ?_, ?_⟩
      · obtain ⟨h5, h11⟩ := holdsField_padName5 m2 (5 + (name.length - 5 + 1)) hlen11 (by rw [Nat.add_sub_cancel_left]; exact hend)
        refine holdsChars_of_fields ((hin1 (by omega)).congr ?_) h5 h11
        intro b hb hb'
        unfold NAME0_4 at hb'
        rw [padName5_outside (by unfold NAME5_10; omega), hm2 b (by unfold NAME5_10; omega)]
      · intro b hb
        rw [padName5_outside (by unfold NAME5_10; omega), hm2 b (by unfold NAME5_10; omega), hm1 b (by unfold NAME0_4; omega)]
    · have hz2 : ∀ b, slot + NAME11_12 ≤ b → b < slot + 32 → m2 b = 0 := by
        intro b hb hb'
        unfold NAME11_12 at hb
        rw [hm2 b (by unfold NAME5_10; omega), hz1 b (by unfold NAME5_10; omega) hb']
      obtain ⟨m3, hput3, hin3, hend3, hm3⟩ := exists_putField 2 (slot + NAME11_12) 11 11
        (fun b hb hb' => hz2 b hb (by unfold NAME11_12 at hb'; omega)) (Nat.not_lt.1 hlen11)
      have hkeep : ∀ b, b < slot + NAME11_12 ∨ slot + 32 ≤ b → m3 b = m2 b := fun b hb => hm3 b (by unfold NAME11_12 at *; omega)
      rw [decide_eq_false hlen11, Nat.min_eq_left (by omega)]
      simp only [hput3, Nat.reduceAdd]
      -- the first two fields are full, whatever becomes of the third
      have hfull (m : Nat → UInt8) (hm : ∀ b, b < slot + NAME11_12 ∨ slot + 32 ≤ b → m b = m3 b) :
          HoldsField m (slot + NAME0_4) 5 0 name ∧ HoldsField m (slot + NAME5_10) 6 5 name ∧ ∀ b, b < slot ∨ slot + 32 ≤ b → m b = mem b := by
        refine ⟨(hin1 (by omega)).congr ?_, (hin2 (by omega)).congr ?_, ?_⟩
        · intro b hb hb'
          unfold NAME0_4 at hb'
          rw [hm b (by unfold NAME11_12; omega), hkeep b (by unfold NAME11_12; omega), hm2 b (by unfold NAME5_10; omega)]
        · intro b hb hb'
          unfold NAME5_10 at hb'
          rw [hm b (by unfold NAME11_12; omega), hkeep b (by unfold NAME11_12; omega)]
        · intro b hb
          rw [hm b (by unfold NAME11_12; omega), hkeep b (by unfold NAME11_12; omega), hm2 b (by unfold NAME5_10; omega),
            hm1 b (by unfold NAME0_4; omega)]
      by_cases hlen13 : name.length < 13
      · rw [decide_eq_true hlen13, decide_eq_true (show name.length ≤ SLOT_CHARS by omega), Nat.min_eq_right (by omega),
          drop_eq_nil_of_le (by omega), drop_eq_nil_of_le (by omega)]
        obtain ⟨h0, h5, hout⟩ := hfull (padName11 m3 slot (11 + (name.length - 11 + 1))) fun b hb => padName11_outside hb
        refine ⟨_, rfl, holdsChars_of_fields h0 h5 ?_, hout⟩
        unfold padName11
        rw [Nat.add_sub_cancel_left]
        exact hend3 hlen13
      · obtain ⟨h0, h5, hout⟩ := hfull m3 fun _ _ => rfl
        refine ⟨m3, ?_, holdsChars_of_fields h0 h5 (hin3 (by omega)), hout⟩
        have hempty : (name.drop SLOT_CHARS).isEmpty = decide (name.length ≤ SLOT_CHARS) := by
          rw [Bool.eq_iff_iff, List.isEmpty_iff, List.drop_eq_nil_iff, decide_eq_true_iff]
        rw [decide_eq_false hlen13, ← hempty]
        rfl

/-! ## The loops of fill_dir_slot -/

theorem charOffset_lt (hk : k < SLOT_CHARS) : charOffset k + 1 < DIRENT_SIZE := by
  unfold SLOT_CHARS at hk
  unfold charOffset NAME0_4 NAME5_10 NAME11_12 DIRENT_SIZE
  split_ifs <;> omega

theorem holdsSlot_congr {i j : Nat} {id : UInt8}
    (h : HoldsSlot mem i name id checksum) (hm : ∀ o < DIRENT_SIZE, mem' (DIRENT_SIZE * j + o) = mem (DIRENT_SIZE * i + o)) :
    HoldsSlot mem' j name id checksum := by
  refine ⟨?_, ?_, ?_, ?_⟩
  · intro k hk
    have hlt := charOffset_lt hk
    rw [hm _ (by omega), Nat.add_assoc, hm _ hlt, ← Nat.add_assoc]
    exact h.chars k hk
  · have h0 := hm 0 (by decide)
    rw [Nat.add_zero, Nat.add_zero] at h0
    rw [h0, h.id]
  · rw [hm _ (by decide), h.attr]
  · rw [hm _ (by decide), h.checksum]

theorem charOffset_ne (hk : k < SLOT_CHARS) :
    0 < charOffset k ∧ charOffset k ≠ ATTR ∧ charOffset k + 1 ≠ ATTR ∧ charOffset k ≠ ALIAS_CHECKSUM ∧ charOffset k + 1 ≠ ALIAS_CHECKSUM := by
  unfold SLOT_CHARS at hk
  unfold charOffset NAME0_4 NAME5_10 NAME11_12 ATTR ALIAS_CHECKSUM
  split_ifs <;> omega

/-- One turn of the `do` loop of `fill_dir_slot`. -/
theorem fillSlot_holds (mem : Nat → UInt8) (slot : Nat) (counter checksum : UInt8) (name : List UInt8) :
    ∃ mem', str2slot (Lib.store mem (DIRENT_SIZE * slot) (List.replicate DIRENT_SIZE 0)) (DIRENT_SIZE * slot) name =
        (mem', name.drop SLOT_CHARS, decide (name.length ≤ SLOT_CHARS)) ∧
      HoldsSlot (Function.update (Function.update (Function.update mem' (DIRENT_SIZE * slot) counter) (DIRENT_SIZE * slot + ATTR) ATTR_VFAT)
        (DIRENT_SIZE * slot + ALIAS_CHECKSUM) checksum) slot name counter checksum ∧
      ∀ b, b < DIRENT_SIZE * slot ∨ DIRENT_SIZE * (slot + 1) ≤ b → mem' b = mem b := by
  have hz : ∀ b, DIRENT_SIZE * slot ≤ b → b < DIRENT_SIZE * slot + DIRENT_SIZE →
      Lib.store mem (DIRENT_SIZE * slot) (List.replicate DIRENT_SIZE 0) b = 0 := by
    intro b hb hb'
    have h := Lib.stored_store mem (DIRENT_SIZE * slot) (List.replicate DIRENT_SIZE 0) (b - DIRENT_SIZE * slot) 0
      (by rw [getElem?_replicate, if_pos (by omega)])
    rwa [Nat.add_sub_cancel' hb] at h
  obtain ⟨mem', hstr, hchars, hout⟩ := str2slot_eq name hz
  refine ⟨mem', hstr, ⟨?_, ?_, ?_, ?_⟩, ?_⟩
  · intro k hk
    obtain ⟨h0, h1, h2, h3, h4⟩ := charOffset_ne hk
    have hne (o : Nat) (ho0 : 0 < o) (ho1 : o ≠ ATTR) (ho2 : o ≠ ALIAS_CHECKSUM) :
        Function.update (Function.update (Function.update mem' (DIRENT_SIZE * slot) counter) (DIRENT_SIZE * slot + ATTR) ATTR_VFAT)
          (DIRENT_SIZE * slot + ALIAS_CHECKSUM) checksum (DIRENT_SIZE * slot + o) = mem' (DIRENT_SIZE * slot + o) := by
      rw [update_of_ne (by omega), update_of_ne (by omega), update_of_ne (by omega)]
    rw [Nat.add_assoc, hne _ h0 h1 h3, hne _ (Nat.succ_pos _) h2 h4]
    exact hchars k hk
  · rw [update_of_ne (by unfold ALIAS_CHECKSUM; omega), update_of_ne (by unfold ATTR; omega), update_self]
  · rw [update_of_ne (by unfold ALIAS_CHECKSUM ATTR; omega), update_self]
  · rw [update_self]
  · intro b hb
    rw [hout b (by rw [Nat.mul_succ] at hb; exact hb), Lib.store_of_outside (by rw [length_replicate]; rw [Nat.mul_succ] at hb; exact hb)]

theorem slotCount_pos (h : name ≠ []) : 0 < slotCount name := by
  have hlen := length_pos_iff.2 h
  unfold slotCount SLOT_CHARS
  omega

theorem slotCount_drop (h : SLOT_CHARS < name.length) : slotCount (name.drop SLOT_CHARS) + 1 = slotCount name := by
  unfold slotCount SLOT_CHARS at *
  rw [length_drop]
  omega

/-- The `do` loop of `fill_dir_slot` makes a slot for every thirteen characters. -/
theorem fillSlots_eq (checksum : UInt8) (fuel : Nat) (mem : Nat → UInt8) (slot : Nat) (counter : UInt8) (hname : name ≠ [])
    (hfuel : name.length ≤ fuel) :
    ∃ mem', fillSlots checksum fuel mem slot counter name = (mem', slot + slotCount name - 1, counter + UInt8.ofNat (slotCount name)) ∧
      (∀ j < slotCount name, HoldsSlot mem' (slot + j) (name.drop (SLOT_CHARS * j)) (counter + UInt8.ofNat (j + 1)) checksum) ∧
      ∀ b, b < DIRENT_SIZE * slot ∨ DIRENT_SIZE * (slot + slotCount name) ≤ b → mem' b = mem b := by
  induction fuel generalizing mem slot counter name with
  | zero => exact absurd (length_eq_zero_iff.1 (Nat.le_zero.1 hfuel)) hname
  | succ fuel ih =>
    obtain ⟨m1, hstr, hholds, hout⟩ := fillSlot_holds mem slot (counter + 1) checksum name
    unfold fillSlots
    simp only [hstr]
    generalize hm2 : Function.update (Function.update (Function.update m1 (DIRENT_SIZE * slot) (counter + 1)) (DIRENT_SIZE * slot + ATTR)
      ATTR_VFAT) (DIRENT_SIZE * slot + ALIAS_CHECKSUM) checksum = m2 at hholds
    have hframe : ∀ b, b < DIRENT_SIZE * slot ∨ DIRENT_SIZE * (slot + 1) ≤ b → m2 b = mem b := by
      intro b hb
      rw [← hm2, update_of_ne (by unfold ALIAS_CHECKSUM DIRENT_SIZE at *; omega),
        update_of_ne (by unfold ATTR DIRENT_SIZE at *; omega), update_of_ne (by unfold DIRENT_SIZE at *; omega), hout b hb]
    by_cases hlen : name.length ≤ SLOT_CHARS
    · have hone : slotCount name = 1 := by
        have hpos := length_pos_iff.2 hname
        unfold slotCount SLOT_CHARS at *
        omega
      rw [if_pos (decide_eq_true hlen), hone]
      refine ⟨m2, rfl, ?_, hframe⟩
      intro j hj
      obtain rfl : j = 0 := Nat.lt_one_iff.1 hj
      exact hholds
    · have hlt := Nat.not_le.1 hlen
      have hcount := slotCount_drop hlt
      have hrest : name.drop SLOT_CHARS ≠ [] := by
        intro h
        exact hlen (drop_eq_nil_iff.1 h)
      obtain ⟨m3, hfill, hslots, hm3⟩ := ih m2 (slot + 1) (counter + 1) hrest (by rw [length_drop]; unfold SLOT_CHARS; omega)
      rw [if_neg (by rw [decide_eq_true_iff]; exact hlen), hfill, ← hcount]
      refine ⟨m3, ?_, ?_, ?_⟩
      · simp only [Prod.mk.injEq, true_and]
        refine ⟨by omega, ?_⟩
        rw [UInt8.add_assoc, UInt8.add_comm 1, UInt8.ofNat_add]
        rfl
      · intro j hj
        cases j with
        | zero =>
          refine holdsSlot_congr hholds ?_
          intro o ho
          exact hm3 _ (Or.inl (by unfold DIRENT_SIZE at *; omega))
        | succ j =>
          have h := hslots j (by omega)
          rw [drop_drop, UInt8.add_assoc, UInt8.add_comm 1, Nat.add_assoc, Nat.add_comm 1] at h
          rw [Nat.mul_succ, Nat.add_comm (SLOT_CHARS * j), UInt8.ofNat_add (j + 1)]
          exact h
      · intro b hb
        rw [hm3 b (by unfold DIRENT_SIZE at *; omega), hframe b (by unfold DIRENT_SIZE at *; omega)]

/-- The `while` loop of `fill_dir_slot` copies the slots in the reversed order. -/
theorem copySlots_eq (fs : FsData) (contents : Nat → UInt8) (counter : Nat) (block : Nat → UInt8) (dent : Nat)
    (hfit : DIRENT_SIZE * (dent + counter) ≤ fs.bytesPerClust) :
    ∃ block', copySlots fs contents counter (counter - 1) block dent = some (block', dent + counter) ∧
      (∀ j < counter, ∀ o < DIRENT_SIZE, block' (DIRENT_SIZE * (dent + (counter - 1 - j)) + o) = contents (DIRENT_SIZE * j + o)) ∧
      ∀ b, b < DIRENT_SIZE * dent ∨ DIRENT_SIZE * (dent + counter) ≤ b → block' b = block b := by
  induction counter generalizing block dent with
  | zero => exact ⟨block, rfl, fun j hj => absurd hj (Nat.not_lt_zero j), fun _ _ => rfl⟩
  | succ counter ih =>
    obtain ⟨block', hcopy, hslots, hout⟩ := ih (Lib.store block (DIRENT_SIZE * dent) (entryBytes contents counter)) (dent + 1)
      (by rw [Nat.add_assoc, Nat.add_comm 1]; exact hfit)
    have hnext : isNextClust fs dent = false := by
      unfold isNextClust
      unfold FsData.bytesPerClust DIRENT_SIZE at hfit
      exact decide_eq_false (by unfold DIRENT_SIZE; omega)
    have hlen : (entryBytes contents counter).length = DIRENT_SIZE := by simp [entryBytes]
    unfold copySlots
    rw [hnext, if_neg Bool.false_ne_true, Nat.add_sub_cancel, hcopy]
    refine ⟨block', by rw [Nat.add_assoc, Nat.add_comm 1], ?_, ?_⟩
    · intro j hj o ho
      rcases Nat.lt_or_eq_of_le (Nat.le_of_lt_succ hj) with hlt | rfl
      · rw [show dent + (counter - j) = dent + 1 + (counter - 1 - j) by omega]
        exact hslots j hlt o ho
      · rw [Nat.sub_self, Nat.add_zero, hout _ (Or.inl (by unfold DIRENT_SIZE at *; omega))]
        refine Lib.stored_store block (DIRENT_SIZE * dent) (entryBytes contents j) o _ ?_
        rw [entryBytes, getElem?_map, getElem?_range ho, Option.map_some]
    · intro b hb
      rw [hout b (by unfold DIRENT_SIZE at *; omega), Lib.store_of_outside (by rw [hlen]; unfold DIRENT_SIZE at *; omega)]

theorem holdsSlot_last {i : Nat} {id : UInt8} (id' : UInt8)
    (h : HoldsSlot mem i name id checksum) : HoldsSlot (Function.update mem (DIRENT_SIZE * i) id') i name id' checksum := by
  have hne (o : Nat) (ho : 0 < o) : Function.update mem (DIRENT_SIZE * i) id' (DIRENT_SIZE * i + o) = mem (DIRENT_SIZE * i + o) :=
    update_of_ne (by omega) _ _
  refine ⟨?_, update_self _ _ _, ?_, ?_⟩
  · intro k hk
    rw [Nat.add_assoc, hne _ (charOffset_ne hk).1, hne _ (Nat.succ_pos _)]
    exact h.chars k hk
  · rw [hne _ (by decide), h.attr]
  · rw [hne _ (by decide), h.checksum]

theorem fillDirSlot_eq {fs : FsData} (dent : Nat) (st : DirBufs) (hname : name ≠ [])
    (hcount : slotCount name ≤ VFAT_MAXSEQ) (hfit : DIRENT_SIZE * (dent + slotCount name + 1) ≤ fs.bytesPerClust) :
    ∃ st', fillDirSlot fs dent st name = some (st', dent + slotCount name) ∧ st'.fb = st.fb ∧
      (∀ j < slotCount name, HoldsSlot st'.block (dent + (slotCount name - 1 - j)) (name.drop (SLOT_CHARS * j))
        (UInt8.ofNat (j + 1) ||| if j + 1 = slotCount name then LAST_LONG_ENTRY_MASK else 0)
        (mkcksum (strncpy16 (entryBytes st.block dent)))) ∧
      ∀ b, b < DIRENT_SIZE * dent ∨ DIRENT_SIZE * (dent + slotCount name) ≤ b → st'.block b = st.block b := by
  have hpos := slotCount_pos hname
  obtain ⟨m1, hfill, hslots, -⟩ := fillSlots_eq (mkcksum (strncpy16 (entryBytes st.block dent))) (name.length + 1) st.contents 0 0 hname
    (Nat.le_succ _)
  have hcounter : (0 + UInt8.ofNat (slotCount name)).toNat = slotCount name := by
    unfold VFAT_MAXSEQ at hcount
    rw [UInt8.zero_add, UInt8.toNat_ofNat', Nat.mod_eq_of_lt (by omega)]
  unfold fillDirSlot
  simp only [hfill, hcounter, Nat.zero_add]
  generalize hm2 : Function.update m1 (DIRENT_SIZE * (slotCount name - 1))
    (m1 (DIRENT_SIZE * (slotCount name - 1)) ||| LAST_LONG_ENTRY_MASK) = m2
  obtain ⟨block, hcopy, hcopied, hout⟩ := copySlots_eq fs m2 (slotCount name) st.block dent (by unfold DIRENT_SIZE at *; omega)
  have hnext : isNextClust fs (dent + slotCount name) = false := by
    unfold isNextClust
    unfold FsData.bytesPerClust DIRENT_SIZE at hfit
    exact decide_eq_false (by unfold DIRENT_SIZE; omega)
  rw [hcopy]
  simp only [hnext, Bool.false_eq_true, if_false]
  refine ⟨_, rfl, rfl, ?_, hout⟩
  intro j hj
  refine holdsSlot_congr ?_ (hcopied j hj)
  have h := hslots j hj
  rw [Nat.zero_add, UInt8.zero_add] at h
  rw [← hm2]
  by_cases hlast : j + 1 = slotCount name
  · rw [if_pos hlast, ← hlast, Nat.add_sub_cancel, h.id]
    exact holdsSlot_last _ h
  · rw [if_neg hlast, UInt8.or_zero]
    refine holdsSlot_congr h ?_
    intro o ho
    rw [update_of_ne (by unfold DIRENT_SIZE at *; omega)]

/-! ## slot2str -/

/-- A loop over the positions of a field takes the characters that are there. -/
theorem takeField_eq (h0 : (0 : UInt8) ∉ rest) (n a off : Nat) (name : List UInt8)
    (hoff : off ≤ rest.length) (hmem : ∀ k < n, off + k ≤ rest.length → mem (a + 2 * k) = rest.getD (off + k) 0)
    (hroom : name.length + n ≤ VFAT_MAXLEN_BYTES) :
    takeField mem n a name = some (name ++ (rest.drop off).take n, decide (rest.length < off + n)) := by
  induction n generalizing a off name with
  | zero => simp [takeField, hoff]
  | succ n ih =>
    have ha := hmem 0 (Nat.succ_pos n) hoff
    rw [Nat.mul_zero, Nat.add_zero, Nat.add_zero] at ha
    unfold takeField
    rw [if_neg (by omega), ha]
    rcases Nat.lt_or_eq_of_le hoff with hlt | rfl
    · have hc : rest.getD off 0 = rest[off] := by simp [hlt]
      have hne : rest[off] ≠ 0 := fun h => h0 (h ▸ getElem_mem hlt)
      rw [hc, if_neg hne, ih (a + 2) (off + 1) _ hlt ?_ ?_, drop_eq_getElem_cons hlt, take_succ_cons, append_assoc,
        singleton_append, Nat.add_assoc, Nat.add_comm 1]
      · intro k hk hk'
        have h := hmem (k + 1) (by omega) (by omega)
        rw [show a + 2 + 2 * k = a + 2 * (k + 1) by omega, h, Nat.add_assoc, Nat.add_comm 1]
      · rw [length_append, length_singleton]
        omega
    · have hnul : rest.getD rest.length 0 = 0 := by simp
      rw [if_pos hnul, drop_length, take_nil, append_nil, decide_eq_true (by omega)]

/-- `slot2str` appends the characters of a slot, and says whether the name ends in it. -/
theorem slot2str_eq (hslot : HoldsChars mem slot rest) (h0 : (0 : UInt8) ∉ rest) (hroom : name.length + SLOT_CHARS ≤ VFAT_MAXLEN_BYTES) :
    slot2str mem slot name = some (name ++ rest.take SLOT_CHARS, decide (rest.length < SLOT_CHARS)) := by
  have h13 : SLOT_CHARS = 13 := rfl
  have hlow : ∀ k < SLOT_CHARS, k ≤ rest.length → mem (slot + charOffset k) = rest.getD k 0 := by
    intro k hk hle
    rw [(hslot k hk).1, charLow, if_pos hle]
  have hfirst := takeField_eq h0 5 (slot + NAME0_4) 0 name (Nat.zero_le _) (fun k hk hle => by
    rw [Nat.zero_add] at hle ⊢
    have h := hlow k (by omega) hle
    rwa [charOffset, if_pos hk, ← Nat.add_assoc] at h) (by omega)
  rw [drop_zero, Nat.zero_add] at hfirst
  unfold slot2str
  rw [hfirst]
  by_cases hlen5 : rest.length < 5
  · rw [decide_eq_true hlen5, decide_eq_true (show rest.length < SLOT_CHARS by omega), take_of_length_le (by omega),
      take_of_length_le (by omega)]
  · have hsecond := takeField_eq h0 6 (slot + NAME5_10) 5 (name ++ rest.take 5) (Nat.not_lt.1 hlen5) (fun k hk hle => by
      have h := hlow (5 + k) (by omega) hle
      rwa [charOffset, if_neg (by omega), if_pos (by omega), Nat.add_sub_cancel_left, ← Nat.add_assoc] at h)
      (by rw [length_append, length_take]; omega)
    rw [append_assoc, ← take_add] at hsecond
    rw [decide_eq_false hlen5]
    simp only [hsecond, Nat.reduceAdd]
    by_cases hlen11 : rest.length < 11
    · rw [decide_eq_true hlen11, decide_eq_true (show rest.length < SLOT_CHARS by omega), take_of_length_le (by omega),
        take_of_length_le (by omega)]
    · have hthird := takeField_eq h0 2 (slot + NAME11_12) 11 (name ++ rest.take 11) (Nat.not_lt.1 hlen11) (fun k hk hle => by
        have h := hlow (11 + k) (by omega) hle
        rwa [charOffset, if_neg (by omega), if_neg (by omega), Nat.add_sub_cancel_left, ← Nat.add_assoc] at h)
        (by rw [length_append, length_take]; omega)
      rw [append_assoc, ← take_add] at hthird
      rw [decide_eq_false hlen11]
      exact hthird

/-! ## The loops of get_vfatname -/

/-- The loop over the numbers of slots that are right. -/
theorem countSlots_eq (inside : Nat → Bool) (counter slot : Nat)
    (h : ∀ i < counter, inside (slot + i) = true ∧ slotNumber mem (slot + i) = counter - i) :
    countSlots mem inside counter slot = some (0, slot + counter) := by
  induction counter generalizing slot with
  | zero => rfl
  | succ counter ih =>
    obtain ⟨hin, hnum⟩ := h 0 (Nat.succ_pos _)
    rw [Nat.add_zero] at hin hnum
    rw [Nat.sub_zero] at hnum
    unfold countSlots
    rw [if_pos hin, if_pos hnum, ih (slot + 1), Nat.add_assoc, Nat.add_comm 1]
    intro i hi
    have hi' := h (i + 1) (by omega)
    rw [Nat.add_assoc, Nat.add_comm 1]
    exact ⟨hi'.1, by rw [hi'.2]; omega⟩

theorem slotId_and : ∀ n ≤ VFAT_MAXSEQ, ∀ last : Bool,
    (UInt8.ofNat n ||| (if last then LAST_LONG_ENTRY_MASK else 0)) &&& LAST_LONG_ENTRY_MASK = (if last then LAST_LONG_ENTRY_MASK else 0) ∧
      ((UInt8.ofNat n ||| (if last then LAST_LONG_ENTRY_MASK else 0)) &&& ~~~LAST_LONG_ENTRY_MASK).toNat = n := by
  unfold VFAT_MAXSEQ LAST_LONG_ENTRY_MASK
  decide

theorem length_le_slots (name : List UInt8) : name.length ≤ SLOT_CHARS * slotCount name := by
  unfold slotCount SLOT_CHARS
  omega

/-- The `do` loop of `get_vfatname` puts the characters of the slots together. -/
theorem nameBack_eq {dent : Nat} (h0 : (0 : UInt8) ∉ name)
    (hcount : slotCount name ≤ VFAT_MAXSEQ)
    (hslots : ∀ j < slotCount name, HoldsSlot mem (dent + (slotCount name - 1 - j)) (name.drop (SLOT_CHARS * j))
      (UInt8.ofNat (j + 1) ||| if j + 1 = slotCount name then LAST_LONG_ENTRY_MASK else 0) checksum)
    (i : Nat) (hi : i < slotCount name) :
    nameBack mem (dent + (i + 1)) (name.take (SLOT_CHARS * (slotCount name - (i + 1)))) = some name := by
  have hmax : SLOT_CHARS * VFAT_MAXSEQ ≤ VFAT_MAXLEN_BYTES := by decide
  -- the slot at `dent + i` holds the characters from `SLOT_CHARS * j` on
  have hslot : ∀ i j, j + 1 + i = slotCount name → slot2str mem (DIRENT_SIZE * (dent + i)) (name.take (SLOT_CHARS * j)) =
          some (name.take (SLOT_CHARS * (j + 1)), decide ((name.drop (SLOT_CHARS * j)).length < SLOT_CHARS)) ∧
        mem (DIRENT_SIZE * (dent + i)) &&& LAST_LONG_ENTRY_MASK = if i = 0 then LAST_LONG_ENTRY_MASK else 0 := by
    intro i j hj
    have h := hslots j (by omega)
    rw [show slotCount name - 1 - j = i by omega] at h
    have hroom : (name.take (SLOT_CHARS * j)).length + SLOT_CHARS ≤ VFAT_MAXLEN_BYTES := by
      rw [length_take]
      unfold SLOT_CHARS VFAT_MAXSEQ VFAT_MAXLEN_BYTES at *
      omega
    have hid := (slotId_and (j + 1) (by omega) (decide (i = 0))).1
    rw [slot2str_eq h.chars (fun hmem => h0 (mem_of_mem_drop hmem)) hroom, ← take_add, h.id]
    simp only [decide_eq_true_iff] at hid
    refine ⟨rfl, ?_⟩
    rw [← hid]
    congr 3
    exact propext ⟨fun _ => by omega, fun _ => by omega⟩
  induction i with
  | zero =>
    obtain ⟨hstr, hlast⟩ := hslot 0 (slotCount name - 1) (by omega)
    rw [Nat.sub_add_cancel (by omega), take_of_length_le (length_le_slots name)] at hstr
    rw [Nat.add_zero] at hstr hlast
    rw [Nat.zero_add, nameBack]
    simp only [hstr, hlast]
    rw [if_pos (Or.inr (by decide))]
  | succ i ih =>
    obtain ⟨hstr, hlast⟩ := hslot (i + 1) (slotCount name - (i + 1 + 1)) (by omega)
    have hfull : ¬ (name.drop (SLOT_CHARS * (slotCount name - (i + 1 + 1)))).length < SLOT_CHARS := by
      rw [length_drop]
      unfold slotCount SLOT_CHARS at *
      omega
    rw [decide_eq_false hfull] at hstr
    rw [if_neg (Nat.succ_ne_zero i)] at hlast
    have hrest := ih (by omega)
    rw [show slotCount name - (i + 1) = slotCount name - (i + 1 + 1) + 1 by omega] at hrest
    rw [← Nat.add_assoc dent, nameBack]
    simp only [hstr, hlast]
    rw [if_neg (by simp)]
    exact hrest

end VfatAux

end UBoot
