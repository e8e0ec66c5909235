import UBoot.Lib.Table
import UBoot.Lmb

/-!
# The loops of the region table

What the loops of lib/lmb.c that query, remove and insert do to a table whose entries in use are in order, each before the next
with a gap between them (`LmbRegion.WF`).
-/

namespace UBoot

open Lib Function

/-- The addresses of an entry. -/
def LmbProperty.Mem (p : LmbProperty) (a : Nat) : Prop := p.base ≤ a ∧ a < p.base + p.size

/-- One entry ends before the next begins, with a gap between them. -/
def LmbProperty.Before (p q : LmbProperty) : Prop := p.base + p.size < q.base

/-- The range lies in the 32-bit address space and is not empty. -/
structure LmbProperty.Proper (p : LmbProperty) : Prop where
  pos : 0 < p.size
  size_lt : p.size < 2 ^ 32
  le_top : p.base + p.size ≤ 2 ^ 32

/-- The invariant of the table: the entries in use are proper and in order. -/
structure LmbRegion.WF (t : LmbRegion) : Prop where
  cnt_le : t.cnt ≤ MAX_LMB_REGIONS
  proper : ∀ i < t.cnt, (t.region i).Proper
  ordered : Ordered LmbProperty.Before t.region t.cnt

/-- The addresses of the entries in use. -/
def LmbRegion.Covers (t : LmbRegion) (a : Nat) : Prop := Any (fun p => p.Mem a) t.region t.cnt

/-- The last entry in use ends at the top of the address space. -/
def LmbRegion.EndsAtTop (t : LmbRegion) : Prop :=
  (t.region (t.cnt - 1)).base + (t.region (t.cnt - 1)).size = 2 ^ 32

namespace LmbAux

/-! ## Arithmetic in 32 bits -/

variable {p : Nat} {t : LmbRegion}

theorem add32_cases {a b : Nat} (h : a + b ≤ 2 ^ 32) : (a + b < 2 ^ 32 ∧ add32 a b = a + b) ∨ (a + b = 2 ^ 32 ∧ add32 a b = 0) := by
  rcases Nat.lt_or_eq_of_le h with hlt | heq
  · exact Or.inl ⟨hlt, add32_of_lt hlt⟩
  · exact Or.inr ⟨heq, add32_of_eq heq⟩

/-! ## The queries -/

theorem has_iff {p : LmbProperty} (hp : p.Proper) (a : Nat) : p.has a = true ↔ p.Mem a := by
  obtain ⟨hpos, -, htop⟩ := hp
  unfold LmbProperty.has LmbProperty.Mem
  rw [Bool.and_eq_true, decide_eq_true_eq, decide_eq_true_eq]
  exact and_congr_right fun _ => le_last_iff (Nat.add_pos_right _ hpos) htop

/-- `lmb_is_reserved` tells the addresses of the entries in use. -/
theorem lmbIsReserved_iff (hw : t.WF) (a : Nat) : lmbIsReserved t a = true ↔ t.Covers a := by
  unfold lmbIsReserved LmbRegion.Covers Any
  rw [List.any_eq_true]
  constructor
  · rintro ⟨i, hi, hh⟩
    have hi' := List.mem_range.1 hi
    exact ⟨i, hi', (has_iff (hw.proper i hi') a).1 hh⟩
  · rintro ⟨i, hi, hm⟩
    exact ⟨i, List.mem_range.2 hi, (has_iff (hw.proper i hi) a).2 hm⟩

/-! ## Removing an entry -/

theorem removeLoop_eq (bound : Nat) (hb : bound ≤ MAX_LMB_REGIONS) (fuel i : Nat) (hi : i ≤ bound) (hfuel : bound < i + fuel)
    (region : Nat → LmbProperty) :
    ∃ g, removeLoop bound fuel i region = some g ∧ ∀ j < bound, g j = removeAt region i j := by
  induction fuel generalizing i region with
  | zero => omega
  | succ fuel ih =>
    rw [removeLoop]
    by_cases hlt : i < bound
    · rw [if_pos hlt, if_pos (by omega)]
      obtain ⟨g, hg, hgj⟩ := ih (i + 1) hlt (by omega) (Function.update region i (region (i + 1)))
      refine ⟨g, hg, ?_⟩
      intro j hj
      rw [hgj j hj]
      rcases Nat.lt_trichotomy j i with hji | rfl | hji
      · rw [removeAt_of_lt (by omega), removeAt_of_lt hji, update_of_ne (by omega)]
      · rw [removeAt_of_lt (by omega), removeAt_of_le (Nat.le_refl j), update_self]
      · rw [removeAt_of_le (by omega), removeAt_of_le (by omega), update_of_ne (by omega)]
    · rw [if_neg hlt]
      exact ⟨region, rfl, fun j hj => by rw [removeAt_of_lt (by omega)]⟩

/-- The table without entry `p`. -/
def drop (t : LmbRegion) (p : Nat) : LmbRegion := ⟨t.cnt - 1, removeAt t.region p⟩

/-- The two tables have the same entries in use. -/
structure Agree (t t' : LmbRegion) : Prop where
  cnt_eq : t.cnt = t'.cnt
  region_eq : ∀ i < t'.cnt, t.region i = t'.region i

theorem Agree.wf {t' : LmbRegion} (h : Agree t t') (hw : t'.WF) : t.WF := by
  refine ⟨h.cnt_eq ▸ hw.cnt_le, ?_, ?_⟩
  · intro i hi
    rw [h.cnt_eq] at hi
    rw [h.region_eq i hi]
    exact hw.proper i hi
  · rw [h.cnt_eq]
    exact hw.ordered.congr h.region_eq

theorem Agree.covers_iff {t' : LmbRegion} (h : Agree t t') (a : Nat) : t.Covers a ↔ t'.Covers a := by
  unfold LmbRegion.Covers
  rw [h.cnt_eq]
  exact any_congr h.region_eq

theorem wf_drop (hw : t.WF) (p : Nat) : (drop t p).WF := by
  refine ⟨Nat.le_trans (Nat.sub_le _ _) hw.cnt_le, ?_, hw.ordered.removeAt p⟩
  intro i hi
  have hi' : i < t.cnt - 1 := hi
  show (removeAt t.region p i).Proper
  rcases Nat.lt_or_ge i p with hip | hip
  · rw [removeAt_of_lt hip]
    exact hw.proper i (by omega)
  · rw [removeAt_of_le hip]
    exact hw.proper (i + 1) (by omega)

theorem removeRegion_eq (hcnt : t.cnt ≤ MAX_LMB_REGIONS) (hp : p < t.cnt) :
    ∃ t', t.removeRegion p = some t' ∧ Agree t' (drop t p) := by
  unfold MAX_LMB_REGIONS at hcnt
  have hsub : sub32 t.cnt 1 = t.cnt - 1 := sub32_of_le (by omega) (by omega)
  obtain ⟨g, hg, hgj⟩ := removeLoop_eq (t.cnt - 1) (by unfold MAX_LMB_REGIONS; omega) (MAX_LMB_REGIONS + 1) p
    (by omega) (by unfold MAX_LMB_REGIONS; omega) t.region
  exact ⟨⟨t.cnt - 1, g⟩, by rw [LmbRegion.removeRegion, hsub, hg]; rfl, rfl, hgj⟩

/-! ## Replacing an entry -/

theorem set_spec (hw : t.WF) (hp : p < t.cnt) {x : LmbProperty} (hx : x.Proper)
    (hlo : ∀ j < p, (t.region j).Before x) (hhi : ∀ j, p < j → j < t.cnt → x.Before (t.region j)) :
    (t.set p x).WF ∧ ∀ a, (t.set p x).Covers a ↔ x.Mem a ∨ ∃ j < t.cnt, j ≠ p ∧ (t.region j).Mem a := by
  refine ⟨⟨hw.cnt_le, ?_, hw.ordered.update hlo hhi⟩, fun a => any_update hp⟩
  intro i hi
  by_cases he : i = p
  · subst he
    simpa [LmbRegion.set] using hx
  · simpa [LmbRegion.set, he] using hw.proper i hi

theorem drop_set (t : LmbRegion) (i : Nat) (y : LmbProperty) : drop (t.set i y) (i + 1) = (drop t (i + 1)).set i y := by
  simp only [drop, LmbRegion.set, LmbRegion.mk.injEq, true_and]
  funext j
  by_cases hji : j = i
  · subst hji
    rw [removeAt_of_lt (by omega), update_self, update_self]
  · rw [update_of_ne hji]
    rcases Nat.lt_or_ge j (i + 1) with hj | hj
    · rw [removeAt_of_lt hj, removeAt_of_lt hj, update_of_ne hji]
    · rw [removeAt_of_le hj, removeAt_of_le hj, update_of_ne (by omega)]

/-! ## Inserting an entry -/

/-- The loop that makes room moves up the entries from some place `p` on, which are the ones that begin after the new one. -/
theorem insertLoop_eq (new : LmbProperty) (n : Nat) (region : Nat → LmbProperty) :
    ∃ p ≤ n, (∀ j, p ≤ j → j < n → new.base < (region j).base) ∧ (0 < p → (region (p - 1)).base ≤ new.base) ∧
      (∀ j < p, insertLoop new n region j = region j) ∧ (0 < p → insertLoop new n region p = new) ∧
      (∀ j, p ≤ j → j < n → insertLoop new n region (j + 1) = region j) ∧
      (p = 0 → insertLoop new n region 0 = region 0) ∧ ∀ j, n < j → insertLoop new n region j = region j := by
  induction n generalizing region with
  | zero =>
    exact ⟨0, Nat.le_refl 0, by omega, by omega, by omega, by omega, by omega, fun _ => rfl, fun j _ => rfl⟩
  | succ n ih =>
    rw [insertLoop]
    by_cases hlt : new.base < (region n).base
    · rw [if_pos hlt]
      obtain ⟨p, hpn, hge, hlo, h1, h2, h3, h4, h5⟩ := ih (Function.update region (n + 1) (region n))
      have hne (j : Nat) (hj : j ≤ n) : Function.update region (n + 1) (region n) j = region j :=
        update_of_ne (by omega) _ _
      refine ⟨p, by omega, ?_, ?_, ?_, h2, ?_, ?_, ?_⟩
      · intro j hj hjn
        rcases Nat.lt_or_ge j n with hjn' | hjn'
        · have := hge j hj hjn'
          rwa [hne j (by omega)] at this
        · obtain rfl : j = n := by omega
          exact hlt
      · intro h0
        have := hlo h0
        rwa [hne (p - 1) (by omega)] at this
      · intro j hj
        rw [h1 j hj, hne j (by omega)]
      · intro j hj hjn
        rcases Nat.lt_or_ge j n with hjn' | hjn'
        · rw [h3 j hj hjn', hne j (by omega)]
        · obtain rfl : j = n := by omega
          rw [h5 (j + 1) (by omega), update_self]
      · intro h0
        rw [h4 h0, hne 0 (by omega)]
      · intro j hj
        rw [h5 j (by omega), update_of_ne (by omega)]
    · rw [if_neg hlt]
      exact ⟨n + 1, Nat.le_refl _, by omega, fun _ => by simpa using hlt,
        fun j hj => update_of_ne (by omega) _ _, fun _ => update_self _ _ _, by omega, by omega,
        fun j hj => update_of_ne (by omega) _ _⟩

/-- Adding a proper range at a distance from every entry keeps the table in order and adds the addresses of the range. -/
theorem addSorted_spec (hw : t.WF) (h1 : 1 ≤ t.cnt) (h8 : t.cnt < MAX_LMB_REGIONS) {b s : Nat} (hx : LmbProperty.Proper ⟨b, s⟩)
    (hsep : ∀ i < t.cnt, (t.region i).Before ⟨b, s⟩ ∨ LmbProperty.Before ⟨b, s⟩ (t.region i)) :
    ∃ t', t.addSorted b s = (0, t') ∧ t'.WF ∧ ∀ a, t'.Covers a ↔ t.Covers a ∨ LmbProperty.Mem ⟨b, s⟩ a := by
  obtain ⟨p, hpn, hge, hlo, g1, g2, g3, g4, -⟩ := insertLoop_eq ⟨b, s⟩ t.cnt t.region
  simp only at hge hlo
  -- the entries before the place begin before the range, the others after it
  have hbefore (j : Nat) (hj : j < p) : (t.region j).Before ⟨b, s⟩ := by
    refine (hsep j (by omega)).resolve_right ?_
    intro h
    have hb := hlo (by omega)
    have hpos := (hw.proper (p - 1) (by omega)).pos
    have hx0 := hx.pos
    unfold LmbProperty.Before at h
    simp only at h hx0
    rcases Nat.lt_or_ge j (p - 1) with hjp | hjp
    · have := hw.ordered j (p - 1) hjp (by omega)
      unfold LmbProperty.Before at this
      omega
    · obtain rfl : j = p - 1 := by omega
      omega
  have hafter (j : Nat) (hj : p ≤ j) (hjn : j < t.cnt) : LmbProperty.Before ⟨b, s⟩ (t.region j) := by
    refine (hsep j hjn).resolve_left ?_
    intro h
    have hb := hge j hj hjn
    unfold LmbProperty.Before at h
    simp only at h
    omega
  refine ⟨⟨t.cnt + 1, if b < (insertLoop ⟨b, s⟩ t.cnt t.region 0).base
    then Function.update (insertLoop ⟨b, s⟩ t.cnt t.region) 0 ⟨b, s⟩ else insertLoop ⟨b, s⟩ t.cnt t.region⟩, ?_, ?_⟩
  · rw [LmbRegion.addSorted, if_neg (by omega)]
  -- the table is the old one with the range inserted at the place
  have hregion (j : Nat) (hj : j < t.cnt + 1) : (if b < (insertLoop ⟨b, s⟩ t.cnt t.region 0).base
      then Function.update (insertLoop ⟨b, s⟩ t.cnt t.region) 0 ⟨b, s⟩ else insertLoop ⟨b, s⟩ t.cnt t.region) j =
      insertAt t.region p ⟨b, s⟩ j := by
    by_cases hp0 : p = 0
    · subst hp0
      rw [g4 rfl, if_pos (hge 0 (Nat.le_refl 0) (by omega))]
      cases j with
      | zero => rw [update_self, insertAt_self]
      | succ j => rw [update_of_ne (by omega), g3 j (Nat.zero_le j) (by omega), insertAt_of_le (Nat.zero_le j)]
    · have h0 := hbefore 0 (by omega)
      unfold LmbProperty.Before at h0
      simp only at h0
      rw [g1 0 (by omega), if_neg (by omega)]
      rcases Nat.lt_trichotomy j p with hjp | rfl | hjp
      · rw [g1 j hjp, insertAt_of_lt hjp]
      · rw [g2 (by omega), insertAt_self]
      · obtain ⟨i, rfl⟩ : ∃ i, j = i + 1 := ⟨j - 1, by omega⟩
        rw [g3 i (by omega) (by omega), insertAt_of_le (by omega)]
  refine ⟨⟨?_, ?_, (hw.ordered.insertAt hpn hbefore hafter).congr hregion⟩, ?_⟩
  · simp only
    omega
  · intro i hi
    simp only at hi ⊢
    rw [hregion i hi]
    rcases Nat.lt_trichotomy i p with hip | rfl | hip
    · rw [insertAt_of_lt hip]
      exact hw.proper i (by omega)
    · rw [insertAt_self]
      exact hx
    · obtain ⟨j, rfl⟩ : ∃ j, i = j + 1 := ⟨i - 1, by omega⟩
      rw [insertAt_of_le (by omega)]
      exact hw.proper j (by omega)
  · intro a
    unfold LmbRegion.Covers
    simp only
    rw [any_congr hregion, any_insertAt hpn]
    exact Or.comm

end LmbAux

end UBoot
