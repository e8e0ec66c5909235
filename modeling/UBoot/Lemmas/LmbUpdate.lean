import UBoot.Lemmas.LmbAux

/-!
# Adding a range to the region table

`lmb_add_region` of a range that shares no address with the entries in use, one case for each way its first loop can end. The
addresses of the range are added, as long as the two ends of the address space are not taken for adjacent (`LmbRegion.AddOk`).
-/

namespace UBoot

open Function

section

open Lib

namespace LmbAux

/-! ## The first loop of lmb_add_region -/

variable {b s : Nat} {p : LmbProperty}

/-- The range and the entry do not meet, also not at the ends of the address space. -/
def Apart (b s : Nat) (p : LmbProperty) : Prop := p.base ≠ add32 b s ∧ b ≠ add32 p.base p.size

theorem adjacent_pos_iff : 0 < lmbAddrsAdjacent b s p.base p.size ↔ p.base = add32 b s := by
  unfold lmbAddrsAdjacent
  split_ifs <;> simp_all

theorem adjacent_neg_iff : lmbAddrsAdjacent b s p.base p.size < 0 ↔ p.base ≠ add32 b s ∧ b = add32 p.base p.size := by
  unfold lmbAddrsAdjacent
  split_ifs <;> simp_all

theorem adjacent_eq_zero_iff : lmbAddrsAdjacent b s p.base p.size = 0 ↔ Apart b s p := by
  unfold lmbAddrsAdjacent Apart
  split_ifs <;> simp_all

/-- What the first loop of `lmb_add_region` finds, from `i` on. -/
theorem scan_spec (t : LmbRegion) (b s left i : Nat) :
    match t.scan b s left i with
    | .same => ∃ j, i ≤ j ∧ j < i + left ∧ t.region j = ⟨b, s⟩
    | .before j => i ≤ j ∧ j < i + left ∧ (t.region j).base = add32 b s ∧ ∀ k, i ≤ k → k < j → Apart b s (t.region k)
    | .after j => i ≤ j ∧ j < i + left ∧ (t.region j).base ≠ add32 b s ∧ b = add32 (t.region j).base (t.region j).size ∧
        ∀ k, i ≤ k → k < j → Apart b s (t.region k)
    | .nothing => ∀ k, i ≤ k → k < i + left → Apart b s (t.region k) := by
  induction left generalizing i with
  | zero =>
    simp only [LmbRegion.scan]
    omega
  | succ left ih =>
    rw [LmbRegion.scan]
    split_ifs with hsame hpos hneg
    · exact ⟨i, Nat.le_refl i, by omega, by rw [← hsame.1, ← hsame.2]⟩
    · exact ⟨Nat.le_refl i, by omega, adjacent_pos_iff.1 hpos, by omega⟩
    · obtain ⟨h1, h2⟩ := adjacent_neg_iff.1 hneg
      exact ⟨Nat.le_refl i, by omega, h1, h2, by omega⟩
    · have hapart : Apart b s (t.region i) := adjacent_eq_zero_iff.1 (by omega)
      have hcons {j : Nat} (h : ∀ k, i + 1 ≤ k → k < j → Apart b s (t.region k)) (k : Nat) (hk : i ≤ k) (hkj : k < j) :
          Apart b s (t.region k) := by
        rcases Nat.lt_or_eq_of_le hk with hlt | rfl
        · exact h k hlt hkj
        · exact hapart
      have ih' := ih (i + 1)
      cases hsc : t.scan b s left (i + 1) with
      | same =>
        rw [hsc] at ih'
        obtain ⟨j, h1, h2, h3⟩ := ih'
        exact ⟨j, by omega, by omega, h3⟩
      | before j =>
        rw [hsc] at ih'
        obtain ⟨h1, h2, h3, h4⟩ := ih'
        exact ⟨by omega, by omega, h3, hcons h4⟩
      | after j =>
        rw [hsc] at ih'
        obtain ⟨h1, h2, h3, h4, h5⟩ := ih'
        exact ⟨by omega, by omega, h3, h4, hcons h5⟩
      | nothing =>
        rw [hsc] at ih'
        exact hcons fun k hk hkj => ih' k hk (by omega)

end LmbAux

/-- The condition under which `lmb_add_region` adds a range. When entries are in use, the two ends of the address space are not taken
for adjacent: the range does not end at the top while an entry begins at 0, nor begin at 0 while an entry ends at the top
(unless it is first found adjacent to the first of three or more entries), nor extend the first of two entries of which
one begins at 0 and the other ends at the top. When none is in use, the entries left from before are not adjacent and
the first of them begins after the range or is the range. -/
def LmbRegion.AddOk (t : LmbRegion) (b s : Nat) : Prop :=
  (t.cnt = 0 → t.regionsAdjacent 0 1 = 0 ∧ (b < (t.region 0).base ∨ t.region 0 = ⟨b, s⟩)) ∧
    (0 < t.cnt → ¬(b + s = 2 ^ 32 ∧ (t.region 0).base = 0) ∧ (b = 0 → t.EndsAtTop → (t.region 0).base = s ∧ 3 ≤ t.cnt) ∧
      ¬(t.cnt = 2 ∧ (t.region 0).base = 0 ∧ t.EndsAtTop ∧ b = (t.region 0).size))

namespace LmbAux

theorem or_fill {p n m q : Prop} : (p ∨ n ∨ m) ∨ q ↔ (m ∨ p ∨ q) ∨ n := by tauto

section AddRegion

variable {t : LmbRegion} {b s : Nat}
variable {i : Nat}

theorem le_or_le_of_disjoint (hx : LmbProperty.Proper ⟨b, s⟩) (hdis : ∀ a, t.Covers a → ¬LmbProperty.Mem ⟨b, s⟩ a) (hw : t.WF) (hi : i < t.cnt) : (t.region i).base + (t.region i).size ≤ b ∨ b + s ≤ (t.region i).base := by
  have hpos := (hw.proper i hi).pos
  have hs := hx.pos
  have hmem (a : Nat) (h1 : (t.region i).base ≤ a) (h2 : a < (t.region i).base + (t.region i).size) :
      ¬(b ≤ a ∧ a < b + s) := hdis a ⟨i, hi, h1, h2⟩
  by_contra hno
  rcases Nat.le_total b (t.region i).base with hb | hb
  · exact hmem (t.region i).base (Nat.le_refl _) (by omega) ⟨hb, by omega⟩
  · exact hmem b hb (by omega) ⟨Nat.le_refl b, by simp only at hs; omega⟩

theorem eq_last_of_end (hw : t.WF) (hi : i < t.cnt) (h : (t.region i).base + (t.region i).size = 2 ^ 32) :
    i = t.cnt - 1 ∧ t.EndsAtTop := by
  have hlast : i = t.cnt - 1 := by
    by_contra hne
    have h1 := hw.ordered i (t.cnt - 1) (by omega) (by omega)
    have h2 := (hw.proper (t.cnt - 1) (by omega)).le_top
    have h3 := (hw.proper (t.cnt - 1) (by omega)).pos
    unfold LmbProperty.Before at h1
    omega
  exact ⟨hlast, by unfold LmbRegion.EndsAtTop; rw [← hlast]; exact h⟩

theorem eq_zero_of_base (hw : t.WF) (hi : i < t.cnt) (h : (t.region i).base = 0) : i = 0 := by
  by_contra hne
  have h1 := hw.ordered 0 i (by omega) hi
  unfold LmbProperty.Before at h1
  omega

theorem coalesceNext_none {c : Nat} (h : i < sub32 t.cnt 1 → t.regionsAdjacent i (i + 1) = 0) : t.coalesceNext i c = some (c, t) := by
  rw [LmbRegion.coalesceNext, if_neg]
  rintro ⟨h1, h2⟩
  exact h2 (h h1)

/-- The outcome of adding a range: success, a table in order, and the addresses of the range added. -/
def Added (t : LmbRegion) (b s : Nat) (o : Option (Int × LmbRegion)) : Prop :=
  ∃ r t', o = some (r, t') ∧ 0 ≤ r ∧ t'.WF ∧ ∀ a, t'.Covers a ↔ t.Covers a ∨ LmbProperty.Mem ⟨b, s⟩ a

theorem sub32_cnt (hw : t.WF) (hcnt : 1 ≤ t.cnt) : sub32 t.cnt 1 = t.cnt - 1 := by
  have h8 := hw.cnt_le
  unfold MAX_LMB_REGIONS at h8
  exact sub32_of_le hcnt (by omega)

/-- An entry that is replaced by one with the range added, and does not meet the next entry. -/
theorem added_grown (hw : t.WF) (hcnt : 1 ≤ t.cnt) (hi : i < t.cnt) {x : LmbProperty} (hxp : x.Proper)
    (hlo : ∀ j < i, (t.region j).Before x) (hhi : ∀ j, i < j → j < t.cnt → x.Before (t.region j))
    (hmem : ∀ a, x.Mem a ↔ (t.region i).Mem a ∨ LmbProperty.Mem ⟨b, s⟩ a)
    (htop : x.base = 0 → i + 1 < t.cnt → (t.region (i + 1)).base + (t.region (i + 1)).size ≠ 2 ^ 32) :
    Added t b s ((t.set i x).finish b s i 1) := by
  obtain ⟨hw', hcov⟩ := set_spec hw hi hxp hlo hhi
  refine ⟨1, t.set i x, ?_, by decide, hw', ?_⟩
  · rw [LmbRegion.finish, coalesceNext_none fun hlt => ?_]
    · rfl
    · have hi1 : i + 1 < t.cnt := by
        have hlt' : i < sub32 t.cnt 1 := hlt
        rw [sub32_cnt hw hcnt] at hlt'
        omega
      have hnext := hhi (i + 1) (Nat.lt_succ_self i) hi1
      obtain ⟨hn0, hns, hntop⟩ := hw.proper (i + 1) hi1
      unfold LmbProperty.Before at hnext
      rw [LmbRegion.regionsAdjacent, adjacent_eq_zero_iff]
      simp only [LmbRegion.set, update_self, update_of_ne (show i + 1 ≠ i by omega)]
      refine ⟨by rw [add32_of_lt (by omega)]; omega, fun hb => ?_⟩
      rcases add32_cases hntop with ⟨-, he⟩ | ⟨heq, he⟩
      · rw [he] at hb
        omega
      · rw [he] at hb
        exact htop hb hi1 heq
  · intro a
    have hany : t.Covers a ↔ (t.region i).Mem a ∨ ∃ j < t.cnt, j ≠ i ∧ (t.region j).Mem a := any_iff hi
    rw [hcov, hany, hmem]
    exact or_right_comm

section Cases

variable (hw : t.WF) (hcnt : 1 ≤ t.cnt) (hx : LmbProperty.Proper ⟨b, s⟩) (hdis : ∀ a, t.Covers a → ¬LmbProperty.Mem ⟨b, s⟩ a) (hok : t.AddOk b s)
variable {i : Nat}

include hw hcnt hx hdis hok

/-- The range is coalesced with the entry it comes before. -/
theorem added_before (hi : i < t.cnt) (hbase : (t.region i).base = add32 b s) (hapart : ∀ k < i, Apart b s (t.region k)) :
    Added t b s ((t.set i ⟨sub32 (t.region i).base s, add32 (t.region i).size s⟩).finish b s i 1) := by
  obtain ⟨hs0, hs, hbs⟩ := hx
  obtain ⟨hi0, his, hitop⟩ := hw.proper i hi
  obtain ⟨ok1, ok2, -⟩ := hok.2 hcnt
  simp only at hs0 hs hbs
  -- the entry begins where the range ends, not at 0 with the range ending at the top
  have hreal : (t.region i).base = b + s := by
    rcases add32_cases hbs with ⟨-, he⟩ | ⟨heq, he⟩
    · rw [hbase, he]
    · rw [he] at hbase
      obtain rfl := eq_zero_of_base hw hi hbase
      exact absurd ⟨heq, hbase⟩ ok1
  have hfirst : b = 0 → i = 0 := by
    intro hb
    by_contra hne
    have h1 := hw.ordered 0 i (by omega) hi
    rcases le_or_le_of_disjoint ⟨hs0, hs, hbs⟩ hdis hw (show 0 < t.cnt by omega) with h | h
    · have := (hw.proper 0 (by omega)).pos
      omega
    · unfold LmbProperty.Before at h1
      omega
  have hsize : (t.region i).size + s < 2 ^ 32 := by
    by_contra hge
    have hb : b = 0 := by omega
    obtain ⟨hlast, htop⟩ := eq_last_of_end hw hi (by omega)
    have := (ok2 hb htop).2
    have := hfirst hb
    omega
  have hnew : (⟨sub32 (t.region i).base s, add32 (t.region i).size s⟩ : LmbProperty) = ⟨b, (t.region i).size + s⟩ := by
    rw [add32_of_lt hsize, sub32_of_le (by omega) (by omega), hreal, Nat.add_sub_cancel]
  rw [hnew]
  refine added_grown hw hcnt hi ⟨?_, hsize, ?_⟩ ?_ ?_ ?_ ?_
  · exact Nat.add_pos_left hi0 s
  · show b + ((t.region i).size + s) ≤ 2 ^ 32
    omega
  · intro j hj
    have h1 := hw.ordered j i hj hi
    have h2 := (hapart j hj).2
    unfold LmbProperty.Before at h1 ⊢
    rw [add32_of_lt (by omega)] at h2
    simp only
    rcases le_or_le_of_disjoint ⟨hs0, hs, hbs⟩ hdis hw (show j < t.cnt by omega) with h | h
    · omega
    · omega
  · intro j hj hjn
    have h1 := hw.ordered i j hj hjn
    unfold LmbProperty.Before at h1 ⊢
    simp only
    omega
  · intro a
    unfold LmbProperty.Mem
    simp only
    omega
  · intro hb hi1 heq
    obtain ⟨hlast, htop⟩ := eq_last_of_end hw hi1 heq
    have := (ok2 hb htop).2
    have := hfirst hb
    omega

omit hdis in
/-- The range begins where the entry ends, not at 0 with the entry ending at the top, and the two together are not the
whole address space. -/
theorem after_real (hi : i < t.cnt) (hend : b = add32 (t.region i).base (t.region i).size) (hapart : ∀ k < i, Apart b s (t.region k)) :
    b = (t.region i).base + (t.region i).size ∧ (t.region i).size + s < 2 ^ 32 := by
  obtain ⟨hs0, hs, hbs⟩ := hx
  obtain ⟨hi0, his, hitop⟩ := hw.proper i hi
  obtain ⟨ok1, ok2, -⟩ := hok.2 hcnt
  simp only at hs0 hs hbs
  have hreal : b = (t.region i).base + (t.region i).size := by
    rcases add32_cases hitop with ⟨-, he⟩ | ⟨heq, he⟩
    · rw [hend, he]
    · rw [he] at hend
      obtain ⟨hlast, htop⟩ := eq_last_of_end hw hi heq
      obtain ⟨h0, h3⟩ := ok2 hend htop
      refine absurd ?_ (hapart 0 (by omega)).1
      rw [h0, hend, add32_of_lt (by omega), Nat.zero_add]
  refine ⟨hreal, ?_⟩
  by_contra hge
  have hb0 : (t.region i).base = 0 := by omega
  obtain rfl := eq_zero_of_base hw hi hb0
  exact ok1 ⟨by omega, hb0⟩

omit hdis in
/-- A range that fills the gap between two entries makes them one. -/
theorem added_fill (hi1 : i + 1 < t.cnt) (hreal : b = (t.region i).base + (t.region i).size)
    (hsize : (t.region i).size + s < 2 ^ 32) (hgap : (t.region (i + 1)).base = b + s) :
    Added t b s ((t.set i ⟨(t.region i).base, (t.region i).size + s⟩).finish b s i 1) := by
  have hi : i < t.cnt := Nat.lt_of_succ_lt hi1
  obtain ⟨hs0, hs, hbs⟩ := hx
  obtain ⟨hi0, his, hitop⟩ := hw.proper i hi
  obtain ⟨hn0, hns, hntop⟩ := hw.proper (i + 1) hi1
  obtain ⟨-, -, ok3⟩ := hok.2 hcnt
  simp only at hs0 hs hbs
  have hysize : (t.region i).size + s + (t.region (i + 1)).size < 2 ^ 32 := by
    by_contra hge
    have hb0 : (t.region i).base = 0 := by omega
    obtain rfl := eq_zero_of_base hw hi hb0
    obtain ⟨hlast, htop⟩ := eq_last_of_end hw hi1 (by omega)
    exact ok3 ⟨by omega, hb0, htop, by omega⟩
  -- the two entries become one, and the second is removed
  obtain ⟨y, hy⟩ : ∃ y : LmbProperty, y = ⟨(t.region i).base, (t.region i).size + s + (t.region (i + 1)).size⟩ := ⟨_, rfl⟩
  have hadj : (t.set i ⟨(t.region i).base, (t.region i).size + s⟩).regionsAdjacent i (i + 1) ≠ 0 := by
    rw [LmbRegion.regionsAdjacent, Ne, adjacent_eq_zero_iff]
    simp only [LmbRegion.set, update_self, update_of_ne (show i + 1 ≠ i by omega)]
    rintro ⟨h1, -⟩
    rw [add32_of_lt (by omega)] at h1
    omega
  have hset : (t.set i ⟨(t.region i).base, (t.region i).size + s⟩).set i y = t.set i y := by
    simp [LmbRegion.set]
  obtain ⟨t', hrem, hagree⟩ := removeRegion_eq (t := t.set i y) (by simpa [LmbRegion.set] using hw.cnt_le)
    (show i + 1 < (t.set i y).cnt from hi1)
  rw [drop_set] at hagree
  have hin : i < (drop t (i + 1)).cnt := by
    simp only [drop]
    omega
  have hyhi (j : Nat) (hj : i < j) (hjn : j < (drop t (i + 1)).cnt) : y.Before ((drop t (i + 1)).region j) := by
    simp only [drop] at hjn ⊢
    rw [removeAt_of_le (by omega), hy]
    have h1 := hw.ordered (i + 1) (j + 1) (by omega) (by omega)
    unfold LmbProperty.Before at h1 ⊢
    simp only
    omega
  have hylo (j : Nat) (hj : j < i) : ((drop t (i + 1)).region j).Before y := by
    simp only [drop]
    rw [removeAt_of_lt (by omega), hy]
    exact hw.ordered j i hj hi
  have hyp : y.Proper := by
    rw [hy]
    exact ⟨show 0 < (t.region i).size + s + (t.region (i + 1)).size by omega, hysize,
      show (t.region i).base + ((t.region i).size + s + (t.region (i + 1)).size) ≤ 2 ^ 32 by omega⟩
  obtain ⟨hw', hcov⟩ := set_spec (wf_drop hw (i + 1)) hin hyp hylo hyhi
  refine ⟨2, t', ?_, by decide, hagree.wf hw', ?_⟩
  · have hco : (t.set i ⟨(t.region i).base, (t.region i).size + s⟩).coalesceRegions i (i + 1) = some t' := by
      rw [LmbRegion.coalesceRegions, ← hrem, ← hset, hy]
      simp only [LmbRegion.set, update_self, update_of_ne (show i + 1 ≠ i by omega), add32_of_lt hysize]
    have hlt : i < sub32 (t.set i ⟨(t.region i).base, (t.region i).size + s⟩).cnt 1 := by
      show i < sub32 t.cnt 1
      rw [sub32_cnt hw hcnt]
      omega
    rw [LmbRegion.finish, LmbRegion.coalesceNext, if_pos ⟨hlt, hadj⟩, hco]
    rfl
  · intro a
    have h1 : t.Covers a ↔ (t.region (i + 1)).Mem a ∨ ∃ j < t.cnt, j ≠ i + 1 ∧ (t.region j).Mem a := any_iff hi1
    have h2 : (drop t (i + 1)).Covers a ↔ ∃ j < t.cnt, j ≠ i + 1 ∧ (t.region j).Mem a := any_removeAt hi1
    have h3 : (drop t (i + 1)).Covers a ↔ ((drop t (i + 1)).region i).Mem a ∨
        ∃ j < (drop t (i + 1)).cnt, j ≠ i ∧ ((drop t (i + 1)).region j).Mem a := any_iff hin
    have h4 : (drop t (i + 1)).region i = t.region i := removeAt_of_lt (by omega)
    have h5 : y.Mem a ↔ (t.region i).Mem a ∨ LmbProperty.Mem ⟨b, s⟩ a ∨ (t.region (i + 1)).Mem a := by
      rw [hy]
      unfold LmbProperty.Mem
      simp only
      omega
    rw [hagree.covers_iff, hcov, h5, h1, ← h2, h3, h4]
    exact or_fill

/-- The range is coalesced with the entry it comes after, and both with the next one if the range fills the gap. -/
theorem added_after (hi : i < t.cnt) (hend : b = add32 (t.region i).base (t.region i).size)
    (hapart : ∀ k < i, Apart b s (t.region k)) :
    Added t b s ((t.set i ⟨(t.region i).base, add32 (t.region i).size s⟩).finish b s i 1) := by
  obtain ⟨hreal, hsize⟩ := after_real hw hcnt hx hok hi hend hapart
  rw [add32_of_lt hsize]
  by_cases hfill : i + 1 < t.cnt ∧ (t.region (i + 1)).base = b + s
  · exact added_fill hw hcnt hx hok hfill.1 hreal hsize hfill.2
  obtain ⟨hi0, his, hitop⟩ := hw.proper i hi
  obtain ⟨-, -, ok3⟩ := hok.2 hcnt
  have hs0 : 0 < s := hx.pos
  have hbs : b + s ≤ 2 ^ 32 := hx.le_top
  -- the next entry begins behind the range
  have hnext (hi1 : i + 1 < t.cnt) : b + s < (t.region (i + 1)).base := by
    have h1 := hw.ordered i (i + 1) (Nat.lt_succ_self i) hi1
    have h2 : (t.region (i + 1)).base ≠ b + s := fun h => hfill ⟨hi1, h⟩
    unfold LmbProperty.Before at h1
    rcases le_or_le_of_disjoint hx hdis hw hi1 with h | h
    · have := (hw.proper (i + 1) hi1).pos
      omega
    · omega
  refine added_grown hw hcnt hi ⟨?_, hsize, ?_⟩ (fun j hj => hw.ordered j i hj hi) ?_ ?_ ?_
  · exact Nat.add_pos_left hi0 s
  · show (t.region i).base + ((t.region i).size + s) ≤ 2 ^ 32
    omega
  · intro j hj hjn
    have h1 := hnext (by omega)
    unfold LmbProperty.Before
    simp only
    rcases Nat.lt_or_eq_of_le (show i + 1 ≤ j from hj) with hlt | rfl
    · have h3 := hw.ordered (i + 1) j hlt hjn
      unfold LmbProperty.Before at h3
      omega
    · omega
  · intro a
    unfold LmbProperty.Mem
    simp only
    omega
  · intro hb hi1 heq
    have hb0 : (t.region i).base = 0 := hb
    obtain rfl := eq_zero_of_base hw hi hb0
    obtain ⟨hlast, htop⟩ := eq_last_of_end hw hi1 heq
    exact ok3 ⟨by omega, hb0, htop, by omega⟩

omit hok in
/-- The range is added to the sorted table when it meets no entry. -/
theorem added_nothing (h8 : t.cnt < MAX_LMB_REGIONS) (hapart : ∀ k < t.cnt, Apart b s (t.region k)) : Added t b s (t.finish b s t.cnt 0) := by
  obtain ⟨hs0, hs, hbs⟩ := hx
  simp only at hs0 hs hbs
  have hsep (i : Nat) (hi : i < t.cnt) : (t.region i).Before ⟨b, s⟩ ∨ LmbProperty.Before ⟨b, s⟩ (t.region i) := by
    obtain ⟨hi0, his, hitop⟩ := hw.proper i hi
    obtain ⟨h1, h2⟩ := hapart i hi
    unfold LmbProperty.Before
    simp only
    rcases le_or_le_of_disjoint ⟨hs0, hs, hbs⟩ hdis hw hi with h | h
    · rw [add32_of_lt (by omega)] at h2
      exact Or.inl (by omega)
    · rw [add32_of_lt (by omega)] at h1
      exact Or.inr (by omega)
  obtain ⟨t', hadd, hw', hcov⟩ := addSorted_spec hw hcnt h8 ⟨hs0, hs, hbs⟩ hsep
  refine ⟨0, t', ?_, by decide, hw', hcov⟩
  rw [LmbRegion.finish, coalesceNext_none fun hlt => ?_]
  · simp [hadd]
  · rw [sub32_of_le hcnt (by unfold MAX_LMB_REGIONS at h8; omega)] at hlt
    omega

end Cases

/-- `lmb_add_region` of a proper range that shares no address with the entries in use, into a table with room. -/
theorem addRegion_spec (hw : t.WF) (h8 : t.cnt < MAX_LMB_REGIONS) (hx : LmbProperty.Proper ⟨b, s⟩)
    (hdis : ∀ a, t.Covers a → ¬LmbProperty.Mem ⟨b, s⟩ a) (hok : t.AddOk b s) : Added t b s (t.addRegion b s) := by
  by_cases hcnt : t.cnt = 0
  · -- no entry in use: what is left in the array decides
    obtain ⟨hadj, hstale⟩ := hok.1 hcnt
    have hdummy : ¬(t.cnt = 1 ∧ (t.region 0).size = 0) := fun h => by omega
    have hregion : (if b < (t.region 0).base then Function.update t.region 0 ⟨b, s⟩ else t.region) 0 = ⟨b, s⟩ := by
      split_ifs with hlt
      · rw [update_self]
      · exact hstale.resolve_left hlt
    refine ⟨0, ⟨1, if b < (t.region 0).base then Function.update t.region 0 ⟨b, s⟩ else t.region⟩, ?_, by decide,
      ⟨show 1 ≤ MAX_LMB_REGIONS by decide, fun i hi => ?_, fun i j hij hj => ?_⟩, fun a => ?_⟩
    · rw [LmbRegion.addRegion, if_neg hdummy, hcnt]
      simp only [LmbRegion.scan, LmbRegion.finish]
      rw [coalesceNext_none fun _ => hadj]
      simp [LmbRegion.addSorted, hcnt, MAX_LMB_REGIONS, insertLoop]
    · obtain rfl : i = 0 := by simpa using hi
      simp only [hregion]
      exact hx
    · simp only at hj
      omega
    · have hno : ¬t.Covers a := by
        rintro ⟨i, hi, -⟩
        omega
      constructor
      · rintro ⟨i, hi, hm⟩
        obtain rfl : i = 0 := by simpa using hi
        simp only [hregion] at hm
        exact Or.inr hm
      · rintro (h | h)
        · exact absurd h hno
        · exact ⟨0, Nat.one_pos, by simpa only [hregion] using h⟩
  · have h1 : 1 ≤ t.cnt := by omega
    have hdummy : ¬(t.cnt = 1 ∧ (t.region 0).size = 0) := by
      rintro ⟨-, h0⟩
      have := (hw.proper 0 (by omega)).pos
      omega
    rw [LmbRegion.addRegion, if_neg hdummy]
    have hscan := scan_spec t b s t.cnt 0
    cases hsc : t.scan b s t.cnt 0 with
    | same =>
      rw [hsc] at hscan
      obtain ⟨j, -, hj, he⟩ := hscan
      have hs := hx.pos
      refine absurd ?_ (hdis b ⟨j, by omega, by rw [he]; exact ⟨Nat.le_refl b, by simp only at hs ⊢; omega⟩⟩)
      exact ⟨Nat.le_refl b, by simp only at hs ⊢; omega⟩
    | before i =>
      rw [hsc] at hscan
      obtain ⟨-, hi, hbase, hap⟩ := hscan
      exact added_before hw h1 hx hdis hok (by omega) hbase fun k hk => hap k (Nat.zero_le k) hk
    | after i =>
      rw [hsc] at hscan
      obtain ⟨-, hi, -, hend, hap⟩ := hscan
      exact added_after hw h1 hx hdis hok (by omega) hend fun k hk => hap k (Nat.zero_le k) hk
    | nothing =>
      rw [hsc] at hscan
      exact added_nothing hw h1 hx hdis h8 fun k hk => hscan k (Nat.zero_le k) (by omega)

end AddRegion

end LmbAux

end

/-!
## Freeing a range of the region table

`lmb_free` of a range of one entry in use: the entry is removed, shrunk at one end, or split, for which the part behind the range is
added as a range of its own.
-/

section

open Lib

/-- The condition under which `lmb_free` frees a range: a range that ends at the top is freed from the only entry, and an
empty range not out of two entries of which one begins at 0 and the other ends at the top. -/
def LmbRegion.FreeOk (t : LmbRegion) (b s : Nat) : Prop :=
  (b + s = 2 ^ 32 → t.cnt = 1) ∧ (s = 0 → ¬(t.cnt = 2 ∧ (t.region 0).base = 0 ∧ t.EndsAtTop))

namespace LmbAux

section Free

variable {t : LmbRegion} {b s k : Nat}
variable {e : Nat}

/-- The first loop of `lmb_free` stops at the first entry that passes its test. -/
theorem findRegion_eq_some (left i : Nat) (hi : i ≤ k) (hk : k < i + left)
    (hno : ∀ j, i ≤ j → j < k → ¬((t.region j).base ≤ b ∧ e ≤ (t.region j).end32))
    (hyes : (t.region k).base ≤ b ∧ e ≤ (t.region k).end32) : t.findRegion b e left i = some k := by
  induction left generalizing i with
  | zero => omega
  | succ left ih =>
    rw [LmbRegion.findRegion]
    rcases Nat.lt_or_eq_of_le hi with hlt | rfl
    · rw [if_neg (hno i (Nat.le_refl i) hlt)]
      exact ih (i + 1) hlt (by omega) fun j hj hjk => hno j (by omega) hjk
    · rw [if_pos hyes]

theorem findRegion_eq_none (left i : Nat) (hno : ∀ j, i ≤ j → j < i + left → ¬((t.region j).base ≤ b ∧ e ≤ (t.region j).end32)) :
    t.findRegion b e left i = none := by
  induction left generalizing i with
  | zero => rfl
  | succ left ih =>
    rw [LmbRegion.findRegion, if_neg (hno i (Nat.le_refl i) (by omega))]
    exact ih (i + 1) fun j hj hjn => hno j (by omega) (by omega)

/-- The outcome of freeing a range: a failure leaves the table alone, a success removes the addresses of the range. -/
def Freed (t : LmbRegion) (b s : Nat) (o : Option (Int × LmbRegion)) : Prop :=
  ∃ r t', o = some (r, t') ∧ t'.WF ∧ (r < 0 → t' = t) ∧ (0 ≤ r → ∀ a, t'.Covers a ↔ t.Covers a ∧ ¬LmbProperty.Mem ⟨b, s⟩ a)

theorem set_shrunk (hw : t.WF) (hk : k < t.cnt) {b' s' : Nat} (h0 : 0 < s') (hb' : (t.region k).base ≤ b')
    (hs' : b' + s' ≤ (t.region k).base + (t.region k).size) :
    (t.set k ⟨b', s'⟩).WF ∧ ∀ a, (t.set k ⟨b', s'⟩).Covers a ↔ LmbProperty.Mem ⟨b', s'⟩ a ∨ ∃ j < t.cnt, j ≠ k ∧ (t.region j).Mem a := by
  obtain ⟨hk0, hks, hktop⟩ := hw.proper k hk
  refine set_spec hw hk ⟨h0, show s' < 2 ^ 32 by omega, Nat.le_trans hs' hktop⟩ ?_ ?_
  · intro j hj
    exact Nat.lt_of_lt_of_le (hw.ordered j k hj hk) hb'
  · intro j hj hjn
    exact Nat.lt_of_le_of_lt hs' (hw.ordered k j hj hjn)

/-- The part behind the range can be added once the entry is shrunk to the part before it. -/
theorem addOk_split (hk : k < t.cnt) (hok : t.FreeOk b s) (hb : (t.region k).base < b)
    (he : b + s < (t.region k).base + (t.region k).size) (htop : (t.region k).base + (t.region k).size < 2 ^ 32) :
    (t.set k ⟨(t.region k).base, b - (t.region k).base⟩).AddOk (b + s) ((t.region k).base + (t.region k).size - (b + s)) := by
  refine ⟨?_, fun _ => ⟨?_, ?_, ?_⟩⟩
  · intro h0
    have : t.cnt = 0 := h0
    omega
  · intro h
    omega
  · intro h0
    omega
  · rintro ⟨h2, hz, hend, hbs⟩
    have h2' : t.cnt = 2 := h2
    unfold LmbRegion.EndsAtTop at hend
    simp only [LmbRegion.set, h2'] at hz hend hbs
    by_cases hk0 : k = 0
    · subst hk0
      simp only [update_self] at hz hbs
      rw [update_of_ne (by omega)] at hend
      refine hok.2 (by omega) ⟨h2', hz, ?_⟩
      unfold LmbRegion.EndsAtTop
      rw [h2']
      exact hend
    · obtain rfl : k = 1 := by omega
      simp only [update_self] at hend
      omega

variable (hw : t.WF) (hk : k < t.cnt) (hlo : (t.region k).base ≤ b) (hhi : b + s ≤ (t.region k).base + (t.region k).size)

include hw hk hlo hhi

/-- What is left of the entry, with the other entries, is what was there without the range. -/
theorem covers_sub {a : Nat} {p : Prop} (hp : p ↔ (t.region k).Mem a ∧ ¬LmbProperty.Mem ⟨b, s⟩ a) :
    (p ∨ ∃ j < t.cnt, j ≠ k ∧ (t.region j).Mem a) ↔ t.Covers a ∧ ¬LmbProperty.Mem ⟨b, s⟩ a := by
  have hany : t.Covers a ↔ (t.region k).Mem a ∨ ∃ j < t.cnt, j ≠ k ∧ (t.region j).Mem a := any_iff hk
  have hother (j : Nat) (hj : j < t.cnt) (hne : j ≠ k) (hm : (t.region j).Mem a) : ¬LmbProperty.Mem ⟨b, s⟩ a := by
    unfold LmbProperty.Mem at hm ⊢
    simp only
    rcases Nat.lt_or_gt_of_ne hne with hlt | hgt
    · have h1 := hw.ordered j k hlt hk
      unfold LmbProperty.Before at h1
      omega
    · have h1 := hw.ordered k j hgt hj
      unfold LmbProperty.Before at h1
      omega
  rw [hp, hany]
  constructor
  · rintro (⟨h1, h2⟩ | ⟨j, hj, hne, hm⟩)
    · exact ⟨Or.inl h1, h2⟩
    · exact ⟨Or.inr ⟨j, hj, hne, hm⟩, hother j hj hne hm⟩
  · rintro ⟨h1 | h1, h2⟩
    · exact Or.inl ⟨h1, h2⟩
    · exact Or.inr h1

theorem freed_set {b' s' : Nat} (h0 : 0 < s') (hb' : (t.region k).base ≤ b') (hs' : b' + s' ≤ (t.region k).base + (t.region k).size)
    (hmem : ∀ a, LmbProperty.Mem ⟨b', s'⟩ a ↔ (t.region k).Mem a ∧ ¬LmbProperty.Mem ⟨b, s⟩ a) :
    Freed t b s (some (0, t.set k ⟨b', s'⟩)) := by
  obtain ⟨hw', hcov⟩ := set_shrunk hw hk h0 hb' hs'
  refine ⟨0, _, rfl, hw', fun h => absurd h (by decide), ?_⟩
  intro _ a
  rw [hcov]
  exact covers_sub hw hk hlo hhi (hmem a)

theorem freed_remove (hb : (t.region k).base = b) (he : (t.region k).base + (t.region k).size = b + s) :
    Freed t b s ((t.removeRegion k).map fun t => (0, t)) := by
  obtain ⟨t', hrem, hagree⟩ := removeRegion_eq hw.cnt_le hk
  refine ⟨0, t', by rw [hrem]; rfl, hagree.wf (wf_drop hw k), fun h => absurd h (by decide), fun _ a => ?_⟩
  have hdrop : (drop t k).Covers a ↔ ∃ j < t.cnt, j ≠ k ∧ (t.region j).Mem a := any_removeAt hk
  have hp : False ↔ (t.region k).Mem a ∧ ¬LmbProperty.Mem ⟨b, s⟩ a := by
    refine ⟨False.elim, fun ⟨⟨h1, h2⟩, hno⟩ => hno ⟨?_, ?_⟩⟩
    · exact hb ▸ h1
    · exact he ▸ h2
  rw [hagree.covers_iff, hdrop, ← covers_sub hw hk hlo hhi hp, false_or]

/-- Splitting the entry, when the range has neither of its ends. -/
theorem freed_split (h8 : t.cnt < MAX_LMB_REGIONS) (hok : t.FreeOk b s) (hb : (t.region k).base < b)
    (he : b + s < (t.region k).base + (t.region k).size) (htop : (t.region k).base + (t.region k).size < 2 ^ 32) :
    Freed t b s ((t.set k ⟨(t.region k).base, b - (t.region k).base⟩).addRegion (b + s) ((t.region k).base + (t.region k).size - (b + s))) := by
  obtain ⟨hw', hcov⟩ := set_shrunk hw hk (show 0 < b - (t.region k).base by omega) (Nat.le_refl (t.region k).base) (by omega)
  -- the two parts of the entry
  have hparts (a : Nat) : LmbProperty.Mem ⟨(t.region k).base, b - (t.region k).base⟩ a ∨
      LmbProperty.Mem ⟨b + s, (t.region k).base + (t.region k).size - (b + s)⟩ a ↔
      (t.region k).Mem a ∧ ¬LmbProperty.Mem ⟨b, s⟩ a := by
    unfold LmbProperty.Mem
    simp only
    omega
  have hdis (a : Nat) (hc : (t.set k ⟨(t.region k).base, b - (t.region k).base⟩).Covers a) :
      ¬LmbProperty.Mem ⟨b + s, (t.region k).base + (t.region k).size - (b + s)⟩ a := by
    unfold LmbProperty.Mem
    simp only
    rcases (hcov a).1 hc with ⟨h1, h2⟩ | ⟨j, hj, hne, h1, h2⟩
    · simp only at h1 h2
      omega
    · rcases Nat.lt_or_gt_of_ne hne with hlt | hgt
      · have h3 := hw.ordered j k hlt hk
        unfold LmbProperty.Before at h3
        omega
      · have h3 := hw.ordered k j hgt hj
        unfold LmbProperty.Before at h3
        omega
  obtain ⟨r, t', hr, hr0, hwt', hcov'⟩ := addRegion_spec hw' h8 ⟨show 0 < (t.region k).base + (t.region k).size - (b + s) by omega,
      show (t.region k).base + (t.region k).size - (b + s) < 2 ^ 32 by omega,
      show b + s + ((t.region k).base + (t.region k).size - (b + s)) ≤ 2 ^ 32 by omega⟩ hdis
    (addOk_split hk hok hb he htop)
  refine ⟨r, t', hr, hwt', fun h => absurd h (by omega), ?_⟩
  intro _ a
  rw [hcov', hcov, or_right_comm]
  exact covers_sub hw hk hlo hhi (hparts a)

/-- `lmb_free` of a range of an entry in use. -/
theorem lmbFree_spec (h8 : t.cnt < MAX_LMB_REGIONS) (hok : t.FreeOk b s) (hb32 : b < 2 ^ 32) : Freed t b s (lmbFree t b s) := by
  obtain ⟨hk0, hks, hktop⟩ := hw.proper k hk
  rcases add32_cases (show b + s ≤ 2 ^ 32 by omega) with ⟨hlt, hend⟩ | ⟨heq, hend⟩
  · -- no entry before `k` passes the test of the loop
    have hno (j : Nat) (hj : j < k) : ¬((t.region j).base ≤ b ∧ b + s ≤ (t.region j).end32) := by
      have h1 := hw.ordered j k hj hk
      unfold LmbProperty.Before at h1
      rw [LmbProperty.end32, add32_of_lt (by omega)]
      omega
    unfold lmbFree
    simp only [hend]
    rcases add32_cases hktop with ⟨hklt, hkend⟩ | ⟨hkeq, hkend⟩
    · rw [findRegion_eq_some t.cnt 0 (Nat.zero_le k) (by omega) (fun j _ hj => hno j hj) ⟨hlo, by rw [LmbProperty.end32, hkend]; exact hhi⟩]
      simp only [LmbProperty.end32, hkend]
      split_ifs with hall hfront hback
      · exact freed_remove hw hk hlo hhi hall.1 hall.2
      · rw [sub32_of_le (by omega) (by omega)]
        have hne : (t.region k).base + (t.region k).size ≠ b + s := fun h => hall ⟨hfront, h⟩
        refine freed_set hw hk hlo hhi (by omega) (by omega) (by omega) ?_
        intro a
        unfold LmbProperty.Mem
        simp only
        omega
      · rw [sub32_of_le (by omega) (by omega)]
        refine freed_set hw hk hlo hhi (by omega) (Nat.le_refl _) (by omega) ?_
        intro a
        unfold LmbProperty.Mem
        simp only
        omega
      · rw [sub32_of_le hlo hb32, sub32_of_le (by omega) hklt]
        exact freed_split hw hk hlo hhi h8 hok (by omega) (by omega) hklt
    · -- an entry that ends at the top is not found
      have hnone : t.findRegion b (b + s) t.cnt 0 = none := by
        refine findRegion_eq_none t.cnt 0 ?_
        intro j _ hj
        rcases Nat.lt_or_ge j k with hjk | hjk
        · exact hno j hjk
        · have hlast := (eq_last_of_end hw hk hkeq).1
          obtain rfl : j = k := by omega
          rw [LmbProperty.end32, hkend]
          omega
      rw [hnone]
      exact ⟨-1, t, rfl, hw, fun _ => rfl, fun h => absurd h (by decide)⟩
  · -- a range that ends at the top, out of the only entry
    have hcnt := hok.1 heq
    obtain rfl : k = 0 := by omega
    have hkend : add32 (t.region 0).base (t.region 0).size = 0 := add32_of_eq (by omega)
    unfold lmbFree
    simp only [hend, hcnt]
    rw [findRegion_eq_some 1 0 (Nat.le_refl 0) (by omega) (by omega) ⟨hlo, Nat.zero_le _⟩]
    simp only [LmbProperty.end32, hkend, and_true, if_true]
    split_ifs with hall
    · exact freed_remove hw hk hlo hhi hall (by omega)
    · rw [sub32_of_le (by omega) (by omega)]
      refine freed_set hw hk hlo hhi (by omega) (Nat.le_refl _) (by omega) ?_
      intro a
      unfold LmbProperty.Mem
      simp only
      omega

end Free

end LmbAux

end

end UBoot
