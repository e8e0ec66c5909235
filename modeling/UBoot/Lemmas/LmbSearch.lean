import UBoot.Lemmas.LmbUpdate
import Mathlib.Data.Nat.Bitwise
import Mathlib.Tactic.NormNum

/-!
# Adding a range to any region table

What `lmb_add_region` does to a table of which nothing is known but that `cnt` is at most `MAX_LMB_REGIONS`: the entries may overlap
and be in any order. It refuses a range exactly when the table is full and no entry is the range or adjacent to it; otherwise the
range becomes an entry of its own, or an entry grows by it, and then by the entry behind it if the two are adjacent.
-/

namespace UBoot

open Function

section

open Lib

/-- No entry in use is the range, or adjacent to it. -/
def LmbRegion.NoNeighbour (t : LmbRegion) (b s : Nat) : Prop :=
  ∀ j < t.cnt, t.region j ≠ ⟨b, s⟩ ∧ lmbAddrsAdjacent b s (t.region j).base (t.region j).size = 0

/-- What becomes of entry `i` that has grown to `e`: it takes in the next entry if the two are adjacent. -/
def LmbRegion.grown (t : LmbRegion) (i : Nat) (e : LmbProperty) : LmbProperty :=
  if i + 1 < t.cnt ∧ lmbAddrsAdjacent e.base e.size (t.region (i + 1)).base (t.region (i + 1)).size ≠ 0 then
    ⟨e.base, add32 e.size (t.region (i + 1)).size⟩
  else e

namespace LmbAux

variable {t : LmbRegion} {b s : Nat}

/-- The first loop of `lmb_add_region` finds nothing when the range has no neighbour. -/
theorem scan_eq_nothing_iff (left i : Nat) : t.scan b s left i = .nothing ↔
      ∀ k, i ≤ k → k < i + left → t.region k ≠ ⟨b, s⟩ ∧ lmbAddrsAdjacent b s (t.region k).base (t.region k).size = 0 := by
  induction left generalizing i with
  | zero => simp only [LmbRegion.scan, true_iff]; omega
  | succ left ih =>
    rw [LmbRegion.scan]
    split_ifs with hsame hpos hneg
    · simp only [false_iff]
      intro h
      exact (h i (Nat.le_refl i) (by omega)).1 (by rw [← hsame.1, ← hsame.2])
    · simp only [false_iff]
      intro h
      have := (h i (Nat.le_refl i) (by omega)).2
      omega
    · simp only [false_iff]
      intro h
      have := (h i (Nat.le_refl i) (by omega)).2
      omega
    · rw [ih (i + 1)]
      constructor
      · intro h k hk hkl
        rcases Nat.lt_or_eq_of_le hk with hlt | rfl
        · exact h k hlt (by omega)
        · exact ⟨fun he => hsame (by rw [he]; exact ⟨rfl, rfl⟩), by omega⟩
      · intro h k hk hkl
        exact h k (by omega) (by omega)

theorem removeLoop_none {bound : Nat} (hb : MAX_LMB_REGIONS < bound) (fuel i : Nat) (hi : i ≤ MAX_LMB_REGIONS)
    (region : Nat → LmbProperty) : removeLoop bound fuel i region = none := by
  induction fuel generalizing i region with
  | zero => rfl
  | succ fuel ih =>
    rw [removeLoop]
    by_cases hib : i < bound
    · rw [if_pos hib]
      split_ifs with hin
      · exact ih (i + 1) hin _
      · rfl
    · omega

theorem removeRegion_empty (hcnt : t.cnt = 0) {p : Nat} (hp : p ≤ MAX_LMB_REGIONS) : t.removeRegion p = none := by
  have hsub : sub32 t.cnt 1 = 2 ^ 32 - 1 := by rw [hcnt]; rfl
  rw [LmbRegion.removeRegion, hsub, removeLoop_none (by decide) _ _ hp]
  rfl

section Bounded

variable (hcnt : t.cnt ≤ MAX_LMB_REGIONS)
include hcnt

theorem sub32_cnt_of_pos (h : 0 < t.cnt) : sub32 t.cnt 1 = t.cnt - 1 := by
  unfold MAX_LMB_REGIONS at hcnt
  exact sub32_of_le h (by omega)

theorem coalesceNext_last (c : Nat) (h : t.cnt = 0 → t.regionsAdjacent 0 1 = 0) : t.coalesceNext t.cnt c = some (c, t) := by
  refine coalesceNext_none fun hlt => ?_
  rcases Nat.eq_zero_or_pos t.cnt with h0 | hpos
  · rw [h0]
    exact h h0
  · rw [sub32_cnt_of_pos hcnt hpos] at hlt
    omega

/-- With a neighbour found, an entry has grown: the result is positive, and the other entries are entries of the old table. -/
theorem finish_grown {i : Nat} (hi : i < t.cnt) (e : LmbProperty) :
    ∃ r t', (t.set i e).finish b s i 1 = some (r, t') ∧ 0 < r ∧ t'.cnt ≤ t.cnt ∧ (∃ k < t'.cnt, t'.region k = t.grown i e) ∧
      ∀ k < t'.cnt, t'.region k = t.grown i e ∨ ∃ j < t.cnt, t'.region k = t.region j := by
  have hsub : sub32 (t.set i e).cnt 1 = t.cnt - 1 := sub32_cnt_of_pos hcnt (Nat.zero_lt_of_lt hi)
  by_cases hadj : i + 1 < t.cnt ∧ lmbAddrsAdjacent e.base e.size (t.region (i + 1)).base (t.region (i + 1)).size ≠ 0
  · have hgrown : t.grown i e = ⟨e.base, add32 e.size (t.region (i + 1)).size⟩ := if_pos hadj
    have hreg : (t.set i e).regionsAdjacent i (i + 1) ≠ 0 := by
      simpa [LmbRegion.regionsAdjacent, LmbRegion.set] using hadj.2
    obtain ⟨t', hrem, hagree⟩ := removeRegion_eq (t := t.set i (t.grown i e)) hcnt (show i + 1 < t.cnt from hadj.1)
    have hco : (t.set i e).coalesceRegions i (i + 1) = some t' := by
      rw [LmbRegion.coalesceRegions, ← hrem, hgrown]
      simp [LmbRegion.set]
    have hc : t'.cnt = t.cnt - 1 := hagree.cnt_eq
    have hregion (k : Nat) (hk : k < t.cnt - 1) :
        t'.region k = removeAt (Function.update t.region i (t.grown i e)) (i + 1) k := hagree.region_eq k hk
    refine ⟨2, t', ?_, by decide, by omega, ⟨i, by omega, ?_⟩, fun k hk => ?_⟩
    · rw [LmbRegion.finish, LmbRegion.coalesceNext, if_pos ⟨by rw [hsub]; omega, hreg⟩, hco]
      rfl
    · rw [hregion i (by omega), removeAt_of_lt (by omega), update_self]
    · rw [hregion k (by omega)]
      rcases Nat.lt_trichotomy k i with hki | rfl | hki
      · rw [removeAt_of_lt (by omega), update_of_ne (by omega)]
        exact Or.inr ⟨k, by omega, rfl⟩
      · rw [removeAt_of_lt (by omega), update_self]
        exact Or.inl rfl
      · rw [removeAt_of_le (by omega), update_of_ne (by omega)]
        exact Or.inr ⟨k + 1, by omega, rfl⟩
  · have hgrown : t.grown i e = e := if_neg hadj
    refine ⟨1, t.set i e, ?_, by decide, Nat.le_refl _, ⟨i, hi, ?_⟩, fun k hk => ?_⟩
    · rw [LmbRegion.finish, coalesceNext_none fun hlt => ?_]
      · rfl
      · rw [hsub] at hlt
        by_contra hne
        exact hadj ⟨by omega, by simpa [LmbRegion.regionsAdjacent, LmbRegion.set] using hne⟩
    · rw [hgrown]
      simp [LmbRegion.set]
    · by_cases hki : k = i
      · subst hki
        rw [hgrown]
        exact Or.inl (by simp [LmbRegion.set])
      · exact Or.inr ⟨k, hk, by simp [LmbRegion.set, hki]⟩

/-- A range with no neighbour, in a table with an entry in use and room, becomes an entry of its own. -/
theorem finish_added (hpos : 0 < t.cnt) (hroom : t.cnt < MAX_LMB_REGIONS) :
    ∃ t', t.finish b s t.cnt 0 = some (0, t') ∧ t'.cnt = t.cnt + 1 ∧ ∃ k < t'.cnt, t'.region k = ⟨b, s⟩ := by
  obtain ⟨p, hpn, hge, -, -, g2, -, g4, -⟩ := insertLoop_eq ⟨b, s⟩ t.cnt t.region
  refine ⟨⟨t.cnt + 1, if b < (insertLoop ⟨b, s⟩ t.cnt t.region 0).base
    then Function.update (insertLoop ⟨b, s⟩ t.cnt t.region) 0 ⟨b, s⟩ else insertLoop ⟨b, s⟩ t.cnt t.region⟩, ?_, rfl, ?_⟩
  · rw [LmbRegion.finish, coalesceNext_last hcnt 0 (by omega)]
    simp [LmbRegion.addSorted, show ¬MAX_LMB_REGIONS ≤ t.cnt by omega]
  by_cases hp : p = 0
  · -- every entry begins after the range, which takes the place of the first
    subst hp
    refine ⟨0, Nat.succ_pos _, ?_⟩
    simp only [if_pos (show b < (insertLoop ⟨b, s⟩ t.cnt t.region 0).base by rw [g4 rfl]; exact hge 0 (Nat.le_refl 0) hpos), update_self]
  · refine ⟨p, by simp only; omega, ?_⟩
    simp only
    split_ifs
    · rw [update_of_ne hp]
      exact g2 (by omega)
    · exact g2 (by omega)

end Bounded
variable {r : Int} {t' : LmbRegion}


/-- What `lmb_add_region` can do. -/
inductive Outcome (t : LmbRegion) (b s : Nat) : Option (Int × LmbRegion) → Prop where
  | dummy (hone : t.cnt = 1) (hzero : (t.region 0).size = 0) : Outcome t b s (some (0, t.set 0 ⟨b, s⟩))
  | same (j : Nat) (hj : j < t.cnt) (he : t.region j = ⟨b, s⟩) : Outcome t b s (some (0, t))
  | grown (i : Nat) (hi : i < t.cnt) (e : LmbProperty) (r : Int) (t' : LmbRegion)
      (hscan : t.scan b s t.cnt 0 = .before i ∧ (t.region i).base = add32 b s ∧ e = ⟨sub32 (t.region i).base s, add32 (t.region i).size s⟩ ∨
        t.scan b s t.cnt 0 = .after i ∧ (t.region i).base ≠ add32 b s ∧ b = add32 (t.region i).base (t.region i).size ∧
          e = ⟨(t.region i).base, add32 (t.region i).size s⟩)
      (hr : 0 < r) (hle : t'.cnt ≤ t.cnt) (hgrown : ∃ k < t'.cnt, t'.region k = t.grown i e)
      (hold : ∀ k < t'.cnt, t'.region k = t.grown i e ∨ ∃ j < t.cnt, t'.region k = t.region j) : Outcome t b s (some (r, t'))
  | full (hno : t.NoNeighbour b s) (hfull : t.cnt = MAX_LMB_REGIONS) : Outcome t b s (some (-1, t))
  | added (hno : t.NoNeighbour b s) (hpos : 0 < t.cnt) (hroom : t.cnt < MAX_LMB_REGIONS) (t' : LmbRegion)
      (hc : t'.cnt = t.cnt + 1) (hk : ∃ k < t'.cnt, t'.region k = ⟨b, s⟩) : Outcome t b s (some (0, t'))
  | lost (h0 : t.cnt = 0) (hadj : t.regionsAdjacent 0 1 ≠ 0) : Outcome t b s none
  | first (h0 : t.cnt = 0) (hadj : t.regionsAdjacent 0 1 = 0) : Outcome t b s
      (some (0, ⟨1, if b < (t.region 0).base then Function.update t.region 0 ⟨b, s⟩ else t.region⟩))

theorem addRegion_outcome (hcnt : t.cnt ≤ MAX_LMB_REGIONS) : Outcome t b s (t.addRegion b s) := by
  by_cases hdummy : t.cnt = 1 ∧ (t.region 0).size = 0
  · rw [LmbRegion.addRegion, if_pos hdummy]
    exact Outcome.dummy hdummy.1 hdummy.2
  rw [LmbRegion.addRegion, if_neg hdummy]
  have hscan := scan_spec t b s t.cnt 0
  cases hsc : t.scan b s t.cnt 0 with
  | same =>
    rw [hsc] at hscan
    obtain ⟨j, -, hj, he⟩ := hscan
    exact Outcome.same j (by omega) he
  | before i =>
    rw [hsc] at hscan
    obtain ⟨-, hi, hbase, -⟩ := hscan
    obtain ⟨r, t', hfin, hr, hle, hgrown, hold⟩ := finish_grown (b := b) (s := s) hcnt (show i < t.cnt by omega)
      ⟨sub32 (t.region i).base s, add32 (t.region i).size s⟩
    simp only [hfin]
    exact Outcome.grown i (by omega) _ r t' (Or.inl ⟨hsc, hbase, rfl⟩) hr hle hgrown hold
  | after i =>
    rw [hsc] at hscan
    obtain ⟨-, hi, hne, hbase, -⟩ := hscan
    obtain ⟨r, t', hfin, hr, hle, hgrown, hold⟩ := finish_grown (b := b) (s := s) hcnt (show i < t.cnt by omega)
      ⟨(t.region i).base, add32 (t.region i).size s⟩
    simp only [hfin]
    exact Outcome.grown i (by omega) _ r t' (Or.inr ⟨hsc, hne, hbase, rfl⟩) hr hle hgrown hold
  | nothing =>
    have hno : t.NoNeighbour b s := fun j hj => (scan_eq_nothing_iff t.cnt 0).1 hsc j (Nat.zero_le j) (by omega)
    simp only
    rcases Nat.eq_zero_or_pos t.cnt with h0 | hpos
    · by_cases hadj : t.regionsAdjacent 0 1 = 0
      · rw [LmbRegion.finish, coalesceNext_last hcnt 0 fun _ => hadj]
        simpa [LmbRegion.addSorted, h0, MAX_LMB_REGIONS, insertLoop] using Outcome.first h0 hadj
      · have hco : t.coalesceNext t.cnt 0 = none := by
          rw [LmbRegion.coalesceNext, h0, if_pos ⟨by decide, hadj⟩, LmbRegion.coalesceRegions,
            removeRegion_empty (show (t.set 0 _).cnt = 0 from h0) (by decide)]
          rfl
        rw [LmbRegion.finish, hco]
        exact Outcome.lost h0 hadj
    · rcases Nat.lt_or_eq_of_le hcnt with hroom | hfull
      · obtain ⟨t', hfin, hc, hk⟩ := finish_added (b := b) (s := s) hcnt hpos hroom
        rw [hfin]
        exact Outcome.added hno hpos hroom t' hc hk
      · rw [LmbRegion.finish, coalesceNext_last hcnt 0 (by omega)]
        simpa [LmbRegion.addSorted, hfull] using Outcome.full hno hfull

theorem addRegion_cnt (hcnt : t.cnt ≤ MAX_LMB_REGIONS) (h : t.addRegion b s = some (r, t')) :
    t'.cnt ≤ MAX_LMB_REGIONS := by
  have hout := addRegion_outcome (b := b) (s := s) hcnt
  rw [h] at hout
  cases hout with
  | dummy => exact hcnt
  | same => exact hcnt
  | grown i hi e r t' hscan hr hle => omega
  | full => exact hcnt
  | added hno hpos hroom t' hc => omega
  | first =>
    show 1 ≤ MAX_LMB_REGIONS
    decide

theorem not_noNeighbour {i : Nat} (hi : i < t.cnt)
    (h : (t.region i).base = add32 b s ∨ b = add32 (t.region i).base (t.region i).size) : ¬t.NoNeighbour b s := by
  intro hno
  obtain ⟨h1, h2⟩ := adjacent_eq_zero_iff.1 (hno i hi).2
  exact h.elim h1 h2

/-- A range is refused exactly when the table is full and the range has no neighbour in it, and then the table stays as it was. -/
theorem addRegion_negative_iff (hcnt : t.cnt ≤ MAX_LMB_REGIONS) :
    t.addRegion b s = some (r, t') ∧ r < 0 ↔ r = -1 ∧ t' = t ∧ t.cnt = MAX_LMB_REGIONS ∧ t.NoNeighbour b s := by
  have hout := addRegion_outcome (b := b) (s := s) hcnt
  constructor
  · rintro ⟨h, hneg⟩
    rw [h] at hout
    cases hout with
    | full hno hfull => exact ⟨rfl, rfl, hfull, hno⟩
    | grown i hi e r t' hscan hr => omega
    | _ => omega
  · rintro ⟨rfl, rfl, hfull, hno⟩
    refine ⟨?_, by decide⟩
    generalize hg : t'.addRegion b s = o at hout
    unfold MAX_LMB_REGIONS at hfull
    cases hout with
    | full => rfl
    | dummy hone => omega
    | same j hj he => exact absurd he (hno j hj).1
    | grown i hi e r t₁ hscan =>
      rcases hscan with ⟨-, hbase, -⟩ | ⟨-, -, hbase, -⟩
      · exact absurd hno (not_noNeighbour hi (Or.inl hbase))
      · exact absurd hno (not_noNeighbour hi (Or.inr hbase))
    | added hno' hpos hroom =>
      unfold MAX_LMB_REGIONS at hroom
      omega
    | lost h0 => omega
    | first h0 => omega

end LmbAux

end

/-!
## The search of the allocator

The inner loop of `__lmb_alloc_base` finds the highest multiple of the alignment at which no reserved region overlaps (in 32 bits) with the
range, or that there is none, in at most as many rounds as its first address. The outer loop takes the last region of memory that has
such a place.
-/

section

open Lib

/-- The range at `b` could be taken in a region of memory that begins at `lmbbase`: no reserved region overlaps with it. -/
def LmbRegion.Free (reserved : LmbRegion) (lmbbase size align b : Nat) : Prop :=
  b ≠ 0 ∧ align ∣ b ∧ lmbbase ≤ b ∧ reserved.overlapsRegion b size = none

/-- A place for the search that begins at `start`. A search that begins so high that the range wraps around does not go on from there. -/
def LmbRegion.Place (reserved : LmbRegion) (lmbbase size align start b : Nat) : Prop :=
  reserved.Free lmbbase size align b ∧ b ≤ start ∧ (2 ^ 32 < start + size → b = start)

namespace LmbAux

/-! ## Alignment -/

theorem testBit_mask (k i : Nat) : (2 ^ 32 - 1 - (2 ^ k - 1)).testBit i = (decide (i < 32) && decide (k ≤ i)) := by
  rw [Nat.sub_sub, Nat.add_comm]
  rcases Nat.lt_or_ge k 33 with hk | hk
  · have hle : 2 ^ k - 1 < 2 ^ 32 := by
      have := Nat.pow_le_pow_right (show 0 < 2 by decide) (show k ≤ 32 by omega)
      have := Nat.two_pow_pos k
      omega
    rw [Nat.testBit_two_pow_sub_succ hle, Nat.testBit_two_pow_sub_one]
    by_cases hik : i < k
    · simp [hik, Nat.not_le.2 hik]
    · simp [hik, Nat.not_lt.1 hik]
  · have hge : 2 ^ 32 < 2 ^ k := Nat.pow_lt_pow_right (by decide) (by omega)
    rw [Nat.sub_eq_zero_of_le (by omega), Nat.zero_testBit]
    have : ¬(i < 32 ∧ k ≤ i) := by omega
    simpa using this

/-- Clearing the low `k` bits of a number of 32 bits. -/
theorem and_mask (a k : Nat) (ha : a < 2 ^ 32) : a &&& (2 ^ 32 - 1 - (2 ^ k - 1)) = a / 2 ^ k * 2 ^ k := by
  rw [← Nat.shiftRight_eq_div_pow, ← Nat.shiftLeft_eq]
  refine Nat.eq_of_testBit_eq fun i => ?_
  rw [Nat.testBit_and, testBit_mask, Nat.testBit_shiftLeft, Nat.testBit_shiftRight]
  by_cases hi : k ≤ i
  · rw [Nat.add_sub_cancel' hi]
    by_cases h32 : i < 32
    · simp [hi, h32]
    · have : a.testBit i = false := Nat.testBit_eq_false_of_lt (Nat.lt_of_lt_of_le ha (Nat.pow_le_pow_right (by decide) (by omega)))
      simp [this]
  · simp [hi]

section Aligned

variable {k : Nat} (hk : k < 32)
variable {a : Nat}
include hk

theorem sub32_align : sub32 (2 ^ k) 1 = 2 ^ k - 1 :=
  sub32_of_le (Nat.two_pow_pos k) (Nat.pow_lt_pow_right (by decide) hk)

theorem lmbAlignDown_eq (ha : a < 2 ^ 32) : lmbAlignDown a (2 ^ k) = a / 2 ^ k * 2 ^ k := by
  rw [lmbAlignDown, sub32_align hk, and_mask a k ha]

theorem lmbAlignDown_spec (ha : a < 2 ^ 32) :
    2 ^ k ∣ lmbAlignDown a (2 ^ k) ∧ lmbAlignDown a (2 ^ k) ≤ a ∧ ∀ b, 2 ^ k ∣ b → b ≤ a → b ≤ lmbAlignDown a (2 ^ k) := by
  rw [lmbAlignDown_eq hk ha]
  refine ⟨Nat.dvd_mul_left _ _, Nat.div_mul_le_self a (2 ^ k), ?_⟩
  rintro b ⟨c, rfl⟩ hb
  rw [Nat.mul_comm]
  exact Nat.mul_le_mul_right _ ((Nat.le_div_iff_mul_le (Nat.two_pow_pos k)).2 (by rwa [Nat.mul_comm]))

/-- The size that is reserved for a range at an aligned address in the address space: at least the size, and still in the address space. -/
theorem lmbAlignUp_spec {b size : Nat} (hb : 2 ^ k ∣ b) (hb0 : b ≠ 0) (htop : b + size ≤ 2 ^ 32) :
    size ≤ lmbAlignUp size (2 ^ k) ∧ b + lmbAlignUp size (2 ^ k) ≤ 2 ^ 32 := by
  have hpos := Nat.two_pow_pos k
  have hle : 2 ^ k ≤ b := Nat.le_of_dvd (Nat.pos_of_ne_zero hb0) hb
  have hsum : size + (2 ^ k - 1) < 2 ^ 32 := by omega
  obtain ⟨h1, h2, h3⟩ := lmbAlignDown_spec hk hsum
  have hup : lmbAlignUp size (2 ^ k) = lmbAlignDown (size + (2 ^ k - 1)) (2 ^ k) := by
    rw [lmbAlignUp, lmbAlignDown, sub32_align hk, add32_of_lt hsum]
  rw [hup, lmbAlignDown_eq hk hsum]
  have hmod := Nat.div_add_mod (size + (2 ^ k - 1)) (2 ^ k)
  have hlt := Nat.mod_lt (size + (2 ^ k - 1)) hpos
  rw [Nat.mul_comm] at hmod
  refine ⟨by omega, ?_⟩
  -- `2 ^ 32 - b` is a multiple too
  obtain ⟨c, hc⟩ : 2 ^ k ∣ 2 ^ 32 - b := Nat.dvd_sub (Nat.pow_dvd_pow 2 (by omega)) hb
  have hcle : (size + (2 ^ k - 1)) / 2 ^ k ≤ c := by
    refine Nat.le_of_lt_succ ((Nat.div_lt_iff_lt_mul hpos).2 ?_)
    rw [Nat.succ_mul, Nat.mul_comm c]
    omega
  have := Nat.mul_le_mul_right (2 ^ k) hcle
  rw [Nat.mul_comm c] at this
  omega

end Aligned

/-! ## The overlap test -/

variable {t : LmbRegion}

theorem lmbAddrsOverlap_iff {b s b' s' : Nat} : lmbAddrsOverlap b s b' s' = true ↔ b < add32 b' s' ∧ b' < add32 b s := by
  simp [lmbAddrsOverlap]

theorem overlapsRegion_eq_none_iff {b s : Nat} :
    t.overlapsRegion b s = none ↔ ∀ j < t.cnt, ¬(b < add32 (t.region j).base (t.region j).size ∧ (t.region j).base < add32 b s) := by
  simp only [LmbRegion.overlapsRegion, List.find?_eq_none, List.mem_range, lmbAddrsOverlap_iff]

theorem overlapsRegion_eq_some {b s j : Nat} (h : t.overlapsRegion b s = some j) :
    j < t.cnt ∧ b < add32 (t.region j).base (t.region j).size ∧ (t.region j).base < add32 b s := by
  have hfind := List.find?_some (p := fun i => lmbAddrsOverlap b s (t.region i).base (t.region i).size) h
  exact ⟨List.mem_range.1 (List.mem_of_find?_eq_some h), lmbAddrsOverlap_iff.1 hfind⟩

/-! ## The inner loop -/

/-- The outcome of the search from `start` on: the highest place, or none when there is none. -/
def Searched (reserved : LmbRegion) (lmbbase size align start : Nat) (o : Option (Option Nat)) : Prop :=
  ∃ found, o = some found ∧ (∀ b, found = some b → reserved.Place lmbbase size align start b) ∧
    ∀ b, reserved.Place lmbbase size align start b → ∃ b', found = some b' ∧ b ≤ b'

/-- The search ends within as many rounds as its first address, with the highest place. -/
theorem searchLoop_spec {reserved : LmbRegion} {k : Nat} (hk : k < 32) {lmbbase size : Nat} (hs : 0 < size) (hs' : size < 2 ^ 32)
    (fuel start : Nat) (hfuel : start < fuel) (hstart : start < 2 ^ 32) (hal : 2 ^ k ∣ start) :
    Searched reserved lmbbase size (2 ^ k) start (reserved.searchLoop lmbbase size (2 ^ k) fuel start) := by
  induction fuel generalizing start with
  | zero => omega
  | succ fuel ih =>
    rw [LmbRegion.searchLoop]
    by_cases hgo : start ≠ 0 ∧ lmbbase ≤ start
    · rw [if_pos hgo]
      cases hov : reserved.overlapsRegion start size with
      | none =>
        have hplace : reserved.Place lmbbase size (2 ^ k) start start :=
          ⟨⟨hgo.1, hal, hgo.2, hov⟩, Nat.le_refl _, fun _ => rfl⟩
        exact ⟨some start, rfl, fun b hb => Option.some.inj hb ▸ hplace, fun b hb => ⟨start, rfl, hb.2.1⟩⟩
      | some j =>
        obtain ⟨hj, h1, h2⟩ := overlapsRegion_eq_some hov
        simp only
        -- no place at or below `start` is above the region found to overlap, less the size
        have hbelow (b : Nat) (hb : reserved.Place lmbbase size (2 ^ k) start b) : b + size ≤ (reserved.region j).base := by
          by_contra hgt
          obtain ⟨⟨-, -, -, hfree⟩, hle, hwrap⟩ := hb
          have hno := overlapsRegion_eq_none_iff.1 hfree j hj
          rcases Nat.lt_or_ge (2 ^ 32) (start + size) with hw | hw
          · rw [hwrap hw] at hno
            exact hno ⟨h1, h2⟩
          · have hlt : start + size < 2 ^ 32 := by
              rcases Nat.lt_or_eq_of_le hw with hlt | heq
              · exact hlt
              · rw [add32_of_eq heq] at h2
                omega
            rw [add32_of_lt (show b + size < 2 ^ 32 by omega)] at hno
            exact hno ⟨by omega, by omega⟩
        by_cases hres : (reserved.region j).base < size
        · rw [if_pos hres]
          refine ⟨none, rfl, fun b hb => (by cases hb), fun b hb => ?_⟩
          have := hbelow b hb
          have := hb.1.1
          omega
        · rw [if_neg hres]
          -- the next address is below this one
          have hlt : start + size < 2 ^ 32 := by
            by_contra hge
            have : add32 start size < size := by
              unfold add32
              omega
            omega
          rw [add32_of_lt hlt] at h2
          have hsub : sub32 (reserved.region j).base size = (reserved.region j).base - size := sub32_of_le (by omega) (by omega)
          obtain ⟨d1, d2, d3⟩ := lmbAlignDown_spec hk (show (reserved.region j).base - size < 2 ^ 32 by omega)
          rw [hsub]
          obtain ⟨found, hfound, hsome, hall⟩ := ih (lmbAlignDown ((reserved.region j).base - size) (2 ^ k)) (by omega) (by omega) d1
          refine ⟨found, hfound, fun b hb => ?_, fun b hb => ?_⟩
          · obtain ⟨hfree, hle, -⟩ := hsome b hb
            exact ⟨hfree, by omega, by omega⟩
          · have := hbelow b hb
            exact hall b ⟨hb.1, d3 b hb.1.2.1 (by omega), by omega⟩
    · rw [if_neg hgo]
      refine ⟨none, rfl, fun b hb => (by cases hb), fun b hb => absurd ?_ hgo⟩
      obtain ⟨⟨h0, -, hlo, -⟩, hle, -⟩ := hb
      exact ⟨by omega, by omega⟩

end LmbAux

end

end UBoot
