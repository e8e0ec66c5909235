import UBoot.Lib.Exec
import UBoot.Lemmas.LmbSearch
import Mathlib.Data.Set.BooleanAlgebra
import Mathlib.Order.CompletePartialOrder

/-!
# The table of reserved regions is the set of reserved addresses

A run of `lmb_reserve` and `lmb_free` calls from `lmb_init`, with beside the table the set of addresses the calls stand for.
-/

namespace UBoot

open Option

section

open Lib LmbAux

/-- A call on the table. -/
inductive LmbOp where
  | reserve (base size : Nat)
  | free (base size : Nat)

/-- The table, and the set of addresses reserved and not freed since. -/
structure LmbSys where
  table : LmbRegion
  reserved : Set Nat

/-- The addresses of a range. -/
def lmbRange (base size : Nat) : Set Nat := {a | base ≤ a ∧ a < base + size}

/-- One call: a successful reservation adds its range to the set, a successful free removes it. -/
def lmbStep (s : LmbSys) : LmbOp → Option LmbSys
  | .reserve base size =>
    (lmbReserve s.table base size).map fun r => ⟨r.2, if 0 ≤ r.1 then s.reserved ∪ lmbRange base size else s.reserved⟩
  | .free base size =>
    (lmbFree s.table base size).map fun r => ⟨r.2, if 0 ≤ r.1 then s.reserved \ lmbRange base size else s.reserved⟩

/-- The calls that are made: with fewer than `MAX_LMB_REGIONS` regions in use, reserve a range that is not empty, does not wrap and
has no reserved address, or free a range of one reserved region. -/
def LmbCall (s : LmbSys) : LmbOp → Prop
  | .reserve base size =>
    s.table.cnt < MAX_LMB_REGIONS ∧ 0 < size ∧ size < 2 ^ 32 ∧ base + size ≤ 2 ^ 32 ∧ Disjoint s.reserved (lmbRange base size)
  | .free base size =>
    s.table.cnt < MAX_LMB_REGIONS ∧ base < 2 ^ 32 ∧ ∃ i < s.table.cnt, 0 < (s.table.region i).size ∧
      (s.table.region i).base ≤ base ∧ base + size ≤ (s.table.region i).base + (s.table.region i).size

/-- The table is the one `lmb_init` makes, with its dummy region. -/
def LmbRegion.IsDummy (t : LmbRegion) : Prop := t.cnt = 1 ∧ (t.region 0).size = 0

/-- The condition on a call. -/
def LmbOk (s : LmbSys) : LmbOp → Prop
  | .reserve base size => s.table.IsDummy ∨ s.table.AddOk base size
  | .free base size => s.table.FreeOk base size

/-- The table is in order and has the reserved addresses. -/
structure LmbSys.Represents (s : LmbSys) : Prop where
  wf : s.table.WF
  covers_iff : ∀ a, s.table.Covers a ↔ a ∈ s.reserved

namespace LmbAux

/-- The first reservation replaces the dummy region. -/
theorem reserve_dummy {s : LmbSys} (hd : s.table.IsDummy) (hempty : s.reserved = ∅) {base size : Nat} (hx : LmbProperty.Proper ⟨base, size⟩) :
    ∃ s', lmbStep s (.reserve base size) = some s' ∧ s'.Represents := by
  have hadd : lmbReserve s.table base size = some (0, s.table.set 0 ⟨base, size⟩) := by
    rw [lmbReserve, LmbRegion.addRegion, if_pos ⟨hd.1, hd.2⟩]
  refine ⟨_, by rw [lmbStep, hadd]; rfl, ⟨?_, fun i hi => ?_, fun i j hij hj => ?_⟩, fun a => ?_⟩
  · show s.table.cnt ≤ MAX_LMB_REGIONS
    rw [hd.1]
    decide
  · have hi' : i < s.table.cnt := hi
    obtain rfl : i = 0 := by have := hd.1; omega
    simpa [LmbRegion.set] using hx
  · have hj' : j < s.table.cnt := hj
    have := hd.1
    omega
  · simp only [Int.le_refl, if_true, hempty, Set.empty_union]
    constructor
    · rintro ⟨i, hi, hm⟩
      have hi' : i < s.table.cnt := hi
      obtain rfl : i = 0 := by have := hd.1; omega
      simpa [LmbRegion.set, LmbProperty.Mem, lmbRange] using hm
    · intro ha
      exact ⟨0, by show 0 < s.table.cnt; rw [hd.1]; exact Nat.one_pos, by simpa [LmbRegion.set, LmbProperty.Mem, lmbRange] using ha⟩

/-- A call in a table that represents the set is defined and leaves one that does. -/
theorem represents_step {s : LmbSys} (hs : s.Represents) (op : LmbOp) (hcall : LmbCall s op) (hok : LmbOk s op) :
    ∃ s', lmbStep s op = some s' ∧ s'.Represents := by
  cases op with
  | reserve base size =>
    obtain ⟨h8, h0, hsize, htop, hdis⟩ := hcall
    have hx : LmbProperty.Proper ⟨base, size⟩ := ⟨h0, hsize, htop⟩
    have hno (a : Nat) (hc : s.table.Covers a) : ¬LmbProperty.Mem ⟨base, size⟩ a := by
      intro hm
      exact Set.disjoint_left.1 hdis ((hs.covers_iff a).1 hc) hm
    have hadd : s.table.AddOk base size := by
      refine hok.resolve_left ?_
      intro hd
      have h1 := (hs.wf.proper 0 (by rw [hd.1]; exact Nat.one_pos)).pos
      have h2 := hd.2
      omega
    obtain ⟨r, t', hr, hr0, hw', hcov⟩ := addRegion_spec hs.wf h8 hx hno hadd
    refine ⟨_, by rw [lmbStep, lmbReserve, hr]; rfl, hw', fun a => ?_⟩
    simp only [hr0, if_true]
    rw [hcov, hs.covers_iff]
    rfl
  | free base size =>
    obtain ⟨h8, hb, k, hk, -, hlo, hhi⟩ := hcall
    obtain ⟨r, t', hr, hw', hfail, hcov⟩ := lmbFree_spec hs.wf hk hlo hhi h8 hok hb
    refine ⟨_, by rw [lmbStep, hr]; rfl, hw', fun a => ?_⟩
    simp only
    by_cases hr0 : 0 ≤ r
    · rw [if_pos hr0, hcov hr0, hs.covers_iff]
      rfl
    · rw [if_neg hr0, hfail (by omega), hs.covers_iff]

/-- What every state of a run satisfies: it is the first one, or its table represents the set. -/
def LmbInv (s : LmbSys) : Prop := (s.table.IsDummy ∧ s.reserved = ∅) ∨ s.Represents

theorem inv_step {s : LmbSys} (hs : LmbInv s) (op : LmbOp) (hcall : LmbCall s op) (hok : LmbOk s op) :
    ∃ s', lmbStep s op = some s' ∧ s'.Represents := by
  rcases hs with ⟨hd, hempty⟩ | hs
  · cases op with
    | reserve base size =>
      obtain ⟨-, h0, hsize, htop, -⟩ := hcall
      exact reserve_dummy hd hempty ⟨h0, hsize, htop⟩
    | free base size =>
      obtain ⟨-, -, i, hi, hpos, -⟩ := hcall
      obtain rfl : i = 0 := by have := hd.1; omega
      have := hd.2
      omega
  · exact represents_step hs op hcall hok

theorem represents_of_exec {s s' : LmbSys} {ops : List LmbOp}
    (h : Exec (Guarded (fun s op => LmbCall s op ∧ LmbOk s op) (stepOf lmbStep)) s ops s') (hs : LmbInv s) (hne : ops ≠ []) :
    s'.Represents := by
  have hstep (s : LmbSys) (op : LmbOp) (s' : LmbSys) (hs : LmbInv s)
      (hst : Guarded (fun s op => LmbCall s op ∧ LmbOk s op) (stepOf lmbStep) s op s') : s'.Represents := by
    obtain ⟨⟨hcall, hok⟩, heq⟩ := hst
    obtain ⟨u, hu, hr⟩ := inv_step hs op hcall hok
    obtain rfl : u = s' := some.inj (hu.symm.trans heq)
    exact hr
  cases h with
  | nil => exact absurd rfl hne
  | cons hfirst hrest =>
    exact hrest.invariant (fun s op s' hs => hstep s op s' (Or.inr hs)) (hstep _ _ _ hs hfirst)

end LmbAux

/-- The table represents the reserved addresses: over every run of any length of calls from `lmb_init`, at least one, that meet
`LmbOk`, the entries in use are in order and share no address, `lmb_is_reserved` tells exactly the addresses reserved and not
freed since, and a further such call is defined. -/
theorem lmb_reserved_set (before : Nat → LmbProperty) (ops : List LmbOp) (hne : ops ≠ []) (s : LmbSys)
    (hrun : Exec (Guarded (fun s op => LmbCall s op ∧ LmbOk s op) (stepOf lmbStep)) ⟨lmbInit before, ∅⟩ ops s) :
    (∀ i j, i < j → j < s.table.cnt → (s.table.region i).base + (s.table.region i).size ≤ (s.table.region j).base) ∧
    (∀ a < 2 ^ 32, lmbIsReserved s.table a = true ↔ a ∈ s.reserved) ∧
    ∀ op, LmbCall s op → LmbOk s op → (lmbStep s op).isSome := by
  have hinit : LmbInv ⟨lmbInit before, ∅⟩ := Or.inl ⟨⟨rfl, by simp [lmbInit]⟩, rfl⟩
  have hs := represents_of_exec hrun hinit hne
  refine ⟨?_, ?_, ?_⟩
  · intro i j hij hj
    exact Nat.le_of_lt (hs.wf.ordered i j hij hj)
  · intro a _
    rw [lmbIsReserved_iff hs.wf a, hs.covers_iff]
  · intro op hcall hok
    obtain ⟨s', hstep, -⟩ := represents_step hs op hcall hok
    rw [hstep]
    rfl

/-- The table with the one region `[0x1000, 0x1100)`. -/
def oneRegion : LmbRegion := (lmbInit fun _ => ⟨0, 0⟩).set 0 ⟨0x1000, 0x100⟩

theorem lmbStep_reserve {t : LmbRegion} {b n : Nat} {r : Int × LmbRegion} (h : lmbReserve t b n = some r) (hr : 0 ≤ r.1) (reserved : Set Nat) :
    lmbStep ⟨t, reserved⟩ (.reserve b n) = some ⟨r.2, reserved ∪ lmbRange b n⟩ := by
  simp [lmbStep, h, hr]

theorem lmbStep_free {t : LmbRegion} {b n : Nat} {r : Int × LmbRegion} (h : lmbFree t b n = some r) (hr : 0 ≤ r.1) (reserved : Set Nat) :
    lmbStep ⟨t, reserved⟩ (.free b n) = some ⟨r.2, reserved \ lmbRange b n⟩ := by
  simp [lmbStep, h, hr]

theorem addOk_of_lt {t : LmbRegion} {b n : Nat} (hcnt : 0 < t.cnt) (hb : 0 < b) (hend : b + n < 2 ^ 32) (hfirst : 0 < (t.region 0).base) :
    t.AddOk b n :=
  ⟨fun h => absurd h (by omega), fun _ => ⟨fun h => by omega, fun h => by omega, fun h => by omega⟩⟩

/-- The region grows by a range behind it, a second one is reserved, and the first one is split. -/
def grown : Int × LmbRegion := (lmbReserve oneRegion 0x1100 0x100).get (by decide)
def twoRegions : Int × LmbRegion := (lmbReserve grown.2 0x3000 0x100).get (by decide)
def splitRegion : Int × LmbRegion := (lmbFree twoRegions.2 0x1080 0x100).get (by decide)

theorem lmb_reserved_set_split : ∃ s, Exec (Guarded (fun s op => LmbCall s op ∧ LmbOk s op) (stepOf lmbStep)) ⟨lmbInit fun _ => ⟨0, 0⟩, ∅⟩
      [.reserve 0x1000 0x100, .reserve 0x1100 0x100, .reserve 0x3000 0x100, .free 0x1080 0x100] s ∧
    ∀ a < 2 ^ 32, lmbIsReserved s.table a = true ↔ (0x1000 ≤ a ∧ a < 0x1080) ∨ (0x1180 ≤ a ∧ a < 0x1200) ∨ (0x3000 ≤ a ∧ a < 0x3100) := by
  have h1 : lmbStep ⟨lmbInit fun _ => ⟨0, 0⟩, ∅⟩ (.reserve 0x1000 0x100) = some ⟨oneRegion, ∅ ∪ lmbRange 0x1000 0x100⟩ := rfl
  have h2 := lmbStep_reserve (Option.some_get _ : some grown = _).symm (by decide) (∅ ∪ lmbRange 0x1000 0x100)
  have h3 := lmbStep_reserve (Option.some_get _ : some twoRegions = _).symm (by decide) (∅ ∪ lmbRange 0x1000 0x100 ∪ lmbRange 0x1100 0x100)
  have h4 := lmbStep_free (Option.some_get _ : some splitRegion = _).symm (by decide)
    (∅ ∪ lmbRange 0x1000 0x100 ∪ lmbRange 0x1100 0x100 ∪ lmbRange 0x3000 0x100)
  have hrun : Exec (Guarded (fun s op => LmbCall s op ∧ LmbOk s op) (stepOf lmbStep)) ⟨lmbInit fun _ => ⟨0, 0⟩, ∅⟩
      [.reserve 0x1000 0x100, .reserve 0x1100 0x100, .reserve 0x3000 0x100, .free 0x1080 0x100] _ :=
    Exec.cons ⟨⟨⟨by decide, by decide, by decide, by decide, Set.empty_disjoint _⟩, Or.inl ⟨rfl, rfl⟩⟩, h1⟩ <|
    Exec.cons ⟨⟨⟨by decide, by decide, by decide, by decide, by simp [Set.disjoint_left, lmbRange]; omega⟩,
      Or.inr (addOk_of_lt (by decide) (by decide) (by decide) (by decide))⟩, h2⟩ <|
    Exec.cons ⟨⟨⟨by decide, by decide, by decide, by decide, by simp [Set.disjoint_left, lmbRange]; omega⟩,
      Or.inr (addOk_of_lt (by decide) (by decide) (by decide) (by decide))⟩, h3⟩ <|
    Exec.single ⟨⟨⟨by decide, by decide, 0, by decide, by decide, by decide, by decide⟩, fun h => absurd h (by decide), fun h => absurd h (by decide)⟩, h4⟩
  refine ⟨_, hrun, fun a ha => ((lmb_reserved_set _ _ (by simp) _ hrun).2.1 a ha).trans ?_⟩
  simp only [lmbRange, Set.empty_union, Set.mem_sdiff, Set.mem_union, Set.mem_ofPred_eq]
  omega

/-- Without the condition the table does not represent the set: after `[0x1000, 0x1100)` was reserved and freed and
`[0x2000, 0x2100)` reserved, `lmb_is_reserved` tells the address `0x1000` and not the address `0x2000`. And in the table of
`lmb_init`, with nothing reserved, it tells the address 0. -/
theorem lmb_reserved_set_false : (∃ s, Exec (Guarded LmbCall (stepOf lmbStep)) ⟨lmbInit fun _ => ⟨0, 0⟩, ∅⟩
      [.reserve 0x1000 0x100, .free 0x1000 0x100, .reserve 0x2000 0x100] s ∧
      0x2000 ∈ s.reserved ∧ lmbIsReserved s.table 0x2000 = false ∧
      0x1000 ∉ s.reserved ∧ lmbIsReserved s.table 0x1000 = true) ∧
    lmbIsReserved (lmbInit fun _ => ⟨0, 0⟩) 0 = true := by
  have h1 : lmbStep ⟨lmbInit fun _ => ⟨0, 0⟩, ∅⟩ (.reserve 0x1000 0x100) = some ⟨oneRegion, ∅ ∪ lmbRange 0x1000 0x100⟩ := rfl
  have h2 : lmbStep ⟨oneRegion, ∅ ∪ lmbRange 0x1000 0x100⟩ (.free 0x1000 0x100) =
      some ⟨⟨0, oneRegion.region⟩, (∅ ∪ lmbRange 0x1000 0x100) \ lmbRange 0x1000 0x100⟩ := by
    simp [lmbStep, lmbFree, LmbRegion.findRegion, oneRegion, LmbRegion.set, lmbInit, LmbProperty.end32, add32,
      LmbRegion.removeRegion, sub32, removeLoop]
  have h3 : lmbStep ⟨⟨0, oneRegion.region⟩, (∅ ∪ lmbRange 0x1000 0x100) \ lmbRange 0x1000 0x100⟩ (.reserve 0x2000 0x100) =
      some ⟨⟨1, oneRegion.region⟩, (∅ ∪ lmbRange 0x1000 0x100) \ lmbRange 0x1000 0x100 ∪ lmbRange 0x2000 0x100⟩ := rfl
  refine ⟨⟨_, Exec.cons ⟨⟨by decide, by decide, by decide, by decide, Set.empty_disjoint _⟩, h1⟩
    (Exec.cons ⟨⟨by decide, by decide, 0, by decide, by decide, by decide, by decide⟩, h2⟩
      (Exec.single ⟨⟨by decide, by decide, by decide, by decide, ?_⟩, h3⟩)), ?_, by decide, ?_, by decide⟩, by decide⟩
  · simp [Set.disjoint_left, lmbRange]
  · simp [lmbRange]
  · simp [lmbRange]

end

/-!
## A failing call on the region table

`lmb_free` of a range inside an entry first cuts the entry off and then adds the part behind the range, which a full table can refuse.
-/

section

open Lib LmbAux

/-- A call on the `struct lmb`. -/
inductive LmbFn where
  | add (base size : Nat)
  | reserve (base size : Nat)
  | free (base size : Nat)
  | alloc (size align maxAddr : Nat)

/-- What a call leaves. -/
def Lmb.call (fuel : Nat) (lmb : Lmb) : LmbFn → Option Lmb
  | .add base size => (lmbAdd lmb.memory base size).map fun r => { lmb with memory := r.2 }
  | .reserve base size => (lmbReserve lmb.reserved base size).map fun r => { lmb with reserved := r.2 }
  | .free base size => (lmbFree lmb.reserved base size).map fun r => { lmb with reserved := r.2 }
  | .alloc size align maxAddr => (lmbAllocBase lmb size align maxAddr fuel).map fun r => { lmb with reserved := r.2 }

/-- The `struct lmb` that `lmb_init` makes, over what its arrays held before. -/
def Lmb.init (memory reserved : Nat → LmbProperty) : Lmb := ⟨lmbInit memory, lmbInit reserved⟩

/-- The same addresses are reserved in both tables. -/
def SameReserved (t t' : LmbRegion) : Prop := ∀ a < 2 ^ 32, lmbIsReserved t' a = lmbIsReserved t a

/-- A call of `lmb_reserve` or `lmb_free` on the range that returns a negative value leaves the reserved addresses as they were. -/
def FailureKeeps (t : LmbRegion) (base size : Nat) : Prop :=
  (∀ r t', lmbReserve t base size = some (r, t') → r < 0 → SameReserved t t') ∧
    ∀ r t', lmbFree t base size = some (r, t') → r < 0 → SameReserved t t'

/-- The condition: when `lmb_free` has to split the entry `i` that its search finds, the table is not full, or the part of the entry behind
the range has a neighbour once the entry is cut, or the addresses that the cut changes are those of other entries too. -/
def SplitOk (t : LmbRegion) (base size : Nat) : Prop :=
  ∀ i, t.findRegion base (add32 base size) t.cnt 0 = some i → (t.region i).base ≠ base → (t.region i).end32 ≠ add32 base size →
      let cut : LmbProperty := ⟨(t.region i).base, sub32 base (t.region i).base⟩
      t.cnt < MAX_LMB_REGIONS ∨ ¬(t.set i cut).NoNeighbour (add32 base size) (sub32 (t.region i).end32 (add32 base size)) ∨
        ∀ a < 2 ^ 32, (t.region i).has a ≠ cut.has a → ∃ j < t.cnt, j ≠ i ∧ (t.region j).has a = true

namespace LmbFailureAux

/-- The entry the search of `lmb_free` finds is in use. -/
theorem findRegion_lt {t : LmbRegion} {base e k : Nat} (left i : Nat) (h : t.findRegion base e left i = some k) : k < i + left := by
  induction left generalizing i with
  | zero => cases h
  | succ left ih =>
    rw [LmbRegion.findRegion] at h
    split_ifs at h with hc
    · obtain rfl : i = k := some.inj h
      omega
    · have := ih (i + 1) h
      omega

theorem removeRegion_cnt {t t' : LmbRegion} {p : Nat} (hcnt : t.cnt ≤ MAX_LMB_REGIONS) (hp : p < t.cnt)
    (h : t.removeRegion p = some t') : t'.cnt ≤ MAX_LMB_REGIONS := by
  obtain ⟨t₁, hrem, hagree⟩ := removeRegion_eq hcnt hp
  obtain rfl : t₁ = t' := some.inj (hrem.symm.trans h)
  have hc : t₁.cnt = t.cnt - 1 := hagree.cnt_eq
  omega

theorem lmbFree_cnt {t t' : LmbRegion} {base size : Nat} {r : Int} (hcnt : t.cnt ≤ MAX_LMB_REGIONS)
    (h : lmbFree t base size = some (r, t')) : t'.cnt ≤ MAX_LMB_REGIONS := by
  unfold lmbFree at h
  cases hf : t.findRegion base (add32 base size) t.cnt 0 with
  | none =>
    simp only [hf, some.injEq, Prod.mk.injEq] at h
    exact h.2 ▸ hcnt
  | some i =>
    have hi : i < t.cnt := by simpa using findRegion_lt t.cnt 0 hf
    simp only [hf] at h
    split_ifs at h
    · obtain ⟨t₁, hrem, he⟩ := map_eq_some_iff.1 h
      obtain ⟨-, rfl⟩ := Prod.mk.inj he
      exact removeRegion_cnt hcnt hi hrem
    · obtain ⟨-, rfl⟩ := Prod.mk.inj (some.inj h)
      exact hcnt
    · obtain ⟨-, rfl⟩ := Prod.mk.inj (some.inj h)
      exact hcnt
    · exact addRegion_cnt (t := t.set i _) hcnt h

theorem allocLoop_cnt {lmb : Lmb} {size align maxAddr fuel n : Nat} {r : Nat × LmbRegion} (hcnt : lmb.reserved.cnt ≤ MAX_LMB_REGIONS)
    (h : lmb.allocLoop size align maxAddr fuel n = some r) : r.2.cnt ≤ MAX_LMB_REGIONS := by
  induction n with
  | zero =>
    rw [Lmb.allocLoop, some.injEq] at h
    rw [← h]
    exact hcnt
  | succ n ih =>
    rw [Lmb.allocLoop] at h
    split at h
    · exact ih h
    · split at h
      · cases h
      · exact ih h
      · obtain ⟨r₁, hadd, he⟩ := map_eq_some_iff.1 h
        have hc := addRegion_cnt hcnt (show _ = some (r₁.1, r₁.2) from hadd)
        rw [← he]
        split_ifs <;> exact hc

/-- In every state of a run the table of reserved regions has room for its entries. -/
theorem cnt_of_exec {fuel : Nat} {lmb lmb' : Lmb} {fns : List LmbFn} (h : Exec (stepOf (Lmb.call fuel)) lmb fns lmb')
    (hcnt : lmb.reserved.cnt ≤ MAX_LMB_REGIONS) : lmb'.reserved.cnt ≤ MAX_LMB_REGIONS := by
  have hstep (l : Lmb) (fn : LmbFn) (l' : Lmb) (hl : l.reserved.cnt ≤ MAX_LMB_REGIONS) (hstep : l.call fuel fn = some l') :
      l'.reserved.cnt ≤ MAX_LMB_REGIONS := by
    cases fn with
    | add base size =>
      obtain ⟨r, -, rfl⟩ := map_eq_some_iff.1 hstep
      exact hl
    | reserve base size =>
      obtain ⟨r, hr, rfl⟩ := map_eq_some_iff.1 hstep
      exact addRegion_cnt hl (show _ = some (r.1, r.2) from hr)
    | free base size =>
      obtain ⟨r, hr, rfl⟩ := map_eq_some_iff.1 hstep
      exact lmbFree_cnt hl (show _ = some (r.1, r.2) from hr)
    | alloc size align maxAddr =>
      obtain ⟨r, hr, rfl⟩ := map_eq_some_iff.1 hstep
      exact allocLoop_cnt hl hr
  exact h.invariant hstep hcnt

theorem lmbIsReserved_set {t : LmbRegion} {i : Nat} (hi : i < t.cnt) (p : LmbProperty) (a : Nat) :
    lmbIsReserved (t.set i p) a = true ↔ p.has a = true ∨ ∃ j < t.cnt, j ≠ i ∧ (t.region j).has a = true := by
  have hany : lmbIsReserved (t.set i p) a = true ↔ Any (fun q => q.has a = true) (Function.update t.region i p) t.cnt := by
    simp only [lmbIsReserved, List.any_eq_true, List.mem_range, Any]
    rfl
  rw [hany, any_update hi]

theorem or_same_iff {o p q : Prop} : (p ∨ q ↔ o ∨ q) ↔ (¬(o ↔ p) → q) := by tauto

theorem sameReserved_set_iff {t : LmbRegion} {i : Nat} (hi : i < t.cnt) (p : LmbProperty) : SameReserved t (t.set i p) ↔
      ∀ a < 2 ^ 32, (t.region i).has a ≠ p.has a → ∃ j < t.cnt, j ≠ i ∧ (t.region j).has a = true := by
  have hself : t.set i (t.region i) = t := by simp [LmbRegion.set]
  have key (a : Nat) : lmbIsReserved (t.set i p) a = lmbIsReserved t a ↔
      ((t.region i).has a ≠ p.has a → ∃ j < t.cnt, j ≠ i ∧ (t.region j).has a = true) := by
    have h₁ := lmbIsReserved_set hi p a
    have h₂ := lmbIsReserved_set hi (t.region i) a
    rw [hself] at h₂
    have hiff : lmbIsReserved (t.set i p) a = lmbIsReserved t a ↔
        (lmbIsReserved (t.set i p) a = true ↔ lmbIsReserved t a = true) := Bool.eq_iff_iff
    rw [hiff, h₁, h₂, or_same_iff, ← Bool.eq_iff_iff]
  exact ⟨fun h a ha => (key a).1 (h a ha), fun h a ha => (key a).2 (h a ha)⟩

/-- A free fails when no entry has the range, which changes nothing, or when the part behind the range is refused, which leaves the entry cut. -/
theorem lmbFree_negative_iff {t t' : LmbRegion} {base size : Nat} {r : Int} (hcnt : t.cnt ≤ MAX_LMB_REGIONS) :
    lmbFree t base size = some (r, t') ∧ r < 0 ↔ r = -1 ∧ (t.findRegion base (add32 base size) t.cnt 0 = none ∧ t' = t ∨
        ∃ i, t.findRegion base (add32 base size) t.cnt 0 = some i ∧ (t.region i).base ≠ base ∧
          (t.region i).end32 ≠ add32 base size ∧ t' = t.set i ⟨(t.region i).base, sub32 base (t.region i).base⟩ ∧
          t.cnt = MAX_LMB_REGIONS ∧ t'.NoNeighbour (add32 base size) (sub32 (t.region i).end32 (add32 base size))) := by
  simp only [lmbFree]
  cases hf : t.findRegion base (add32 base size) t.cnt 0 with
  | none =>
    simp only [some.injEq, Prod.mk.injEq, reduceCtorEq, false_and, exists_false, or_false, true_and]
    constructor
    · rintro ⟨⟨rfl, rfl⟩, -⟩
      exact ⟨rfl, rfl⟩
    · rintro ⟨rfl, rfl⟩
      exact ⟨⟨rfl, rfl⟩, by decide⟩
  | some i =>
    simp only [some.injEq, reduceCtorEq, false_and, false_or, exists_eq_left']
    by_cases hb : (t.region i).base = base
    · -- the whole entry or its front is freed
      have hnot (o : Option (Int × LmbRegion)) (ho : ∀ x, o = some x → x.1 = 0) : ¬(o = some (r, t') ∧ r < 0) := by
        rintro ⟨h, hr⟩
        have := ho _ h
        simp only at this
        omega
      simp only [hb, ne_eq, not_true_eq_false, false_and, and_false, iff_false, true_and, if_true]
      refine hnot _ ?_
      intro x hx
      split_ifs at hx
      · obtain ⟨t₁, -, rfl⟩ := map_eq_some_iff.1 hx
        rfl
      · rw [← some.inj hx]
    · by_cases he : (t.region i).end32 = add32 base size
      · simp only [hb, he, false_and, if_false, if_true, ne_eq, not_true_eq_false, and_false, iff_false, not_and, some.injEq, Prod.mk.injEq]
        omega
      · simp only [hb, he, false_and, if_false, ne_eq, not_false_eq_true, true_and]
        rw [addRegion_negative_iff (t := t.set i ⟨(t.region i).base, sub32 base (t.region i).base⟩) hcnt]
        constructor
        · rintro ⟨rfl, rfl, hfull, hno⟩
          exact ⟨rfl, rfl, hfull, hno⟩
        · rintro ⟨rfl, rfl, hfull, hno⟩
          exact ⟨rfl, rfl, hfull, hno⟩

end LmbFailureAux

open LmbFailureAux

/-- For every state reached from `lmb_init` by any calls, and every range: a call of `lmb_reserve` or `lmb_free` that fails leaves the reserved
addresses as they were, exactly under the condition on what `lmb_free` has to split. -/
theorem lmb_failure_keeps_iff (fuel : Nat) (memory reserved : Nat → LmbProperty) (fns : List LmbFn) (lmb : Lmb)
    (hrun : Exec (stepOf (Lmb.call fuel)) (Lmb.init memory reserved) fns lmb) (base size : Nat) :
    FailureKeeps lmb.reserved base size ↔ SplitOk lmb.reserved base size := by
  have hcnt : lmb.reserved.cnt ≤ MAX_LMB_REGIONS := cnt_of_exec hrun (by decide : 1 ≤ MAX_LMB_REGIONS)
  constructor
  · rintro ⟨-, hfree⟩ i hf hb he
    by_cases hroom : lmb.reserved.cnt < MAX_LMB_REGIONS
    · exact Or.inl hroom
    refine Or.inr (or_iff_not_imp_left.2 fun hno => ?_)
    -- the table is full and the part behind the range has no neighbour: the call fails with the entry cut
    have hfail := (lmbFree_negative_iff hcnt).2 ⟨rfl, Or.inr ⟨i, hf, hb, he, rfl, Nat.le_antisymm hcnt (Nat.le_of_not_lt hroom), not_not.1 hno⟩⟩
    have hi : i < lmb.reserved.cnt := by simpa using findRegion_lt _ 0 hf
    exact (sameReserved_set_iff hi _).1 (hfree _ _ hfail.1 hfail.2)
  · intro hok
    refine ⟨?_, ?_⟩
    · intro r t' h hr
      obtain ⟨-, rfl, -⟩ := (addRegion_negative_iff hcnt).1 ⟨h, hr⟩
      exact fun a _ => rfl
    · intro r t' h hr
      obtain ⟨-, ⟨-, rfl⟩ | ⟨i, hf, hb, he, rfl, hfull, hno⟩⟩ := (lmbFree_negative_iff hcnt).1 ⟨h, hr⟩
      · exact fun a _ => rfl
      · have hi : i < lmb.reserved.cnt := by simpa using findRegion_lt _ 0 hf
        rcases hok i hf hb he with hroom | hnb | hother
        · omega
        · exact absurd hno hnb
        · exact (sameReserved_set_iff hi _).2 hother

/-- Eight regions of `0x800` bytes, reserved after `lmb_init`. -/
def eightReserved : List LmbFn :=
  [.reserve 0x10000 0x800, .reserve 0x20000 0x800, .reserve 0x30000 0x800, .reserve 0x40000 0x800, .reserve 0x50000 0x800,
    .reserve 0x60000 0x800, .reserve 0x70000 0x800, .reserve 0x80000 0x800]

/-- With eight regions reserved, both calls on a range that is not reserved fail. -/
theorem lmb_failure_keeps_full : ∃ lmb, Exec (stepOf (Lmb.call 0)) (Lmb.init (fun _ => ⟨0, 0⟩) fun _ => ⟨0, 0⟩) eightReserved lmb ∧
    (lmbReserve lmb.reserved 0x90000 0x800).map Prod.fst = some (-1) ∧ (lmbFree lmb.reserved 0x90000 0x800).map Prod.fst = some (-1) ∧
    FailureKeeps lmb.reserved 0x90000 0x800 := by
  have hrun : ((eightReserved.foldlM (Lmb.call 0) (Lmb.init (fun _ => ⟨0, 0⟩) fun _ => ⟨0, 0⟩)).map fun lmb =>
      ((lmbReserve lmb.reserved 0x90000 0x800).map Prod.fst, (lmbFree lmb.reserved 0x90000 0x800).map Prod.fst,
        lmb.reserved.findRegion 0x90000 (add32 0x90000 0x800) lmb.reserved.cnt 0)) = some (some (-1), some (-1), none) := by decide
  obtain ⟨lmb, hlmb, hmap⟩ := map_eq_some_iff.1 hrun
  simp only [Prod.mk.injEq] at hmap
  obtain ⟨hreserve, hfree, hnone⟩ := hmap
  refine ⟨lmb, Exec.of_foldlM hlmb, hreserve, hfree, (lmb_failure_keeps_iff 0 _ _ _ _ (Exec.of_foldlM hlmb) 0x90000 0x800).2 ?_⟩
  intro i hi
  cases hnone.symm.trans hi

/-- With eight regions reserved, `lmb_free` of the range from `0x10200` to `0x10300` returns `-1`, and the address `0x10400` is no longer
reserved. -/
theorem lmb_failure_keeps_false : ∃ lmb t', Exec (stepOf (Lmb.call 0)) (Lmb.init (fun _ => ⟨0, 0⟩) fun _ => ⟨0, 0⟩)
    eightReserved lmb ∧ lmbFree lmb.reserved 0x10200 0x100 = some (-1, t') ∧
    lmbIsReserved lmb.reserved 0x10400 = true ∧ lmbIsReserved t' 0x10400 = false ∧
    ¬FailureKeeps lmb.reserved 0x10200 0x100 := by
  have hrun : ((eightReserved.foldlM (Lmb.call 0) (Lmb.init (fun _ => ⟨0, 0⟩) fun _ => ⟨0, 0⟩)).bind fun lmb =>
      (lmbFree lmb.reserved 0x10200 0x100).map fun r =>
        (r.1, lmbIsReserved lmb.reserved 0x10400, lmbIsReserved r.2 0x10400)) = some (-1, true, false) := by decide
  obtain ⟨lmb, hlmb, hmap⟩ := bind_eq_some_iff.1 hrun
  obtain ⟨⟨r, t'⟩, hfree, he⟩ := map_eq_some_iff.1 hmap
  simp only [Prod.mk.injEq] at he
  obtain ⟨rfl, hbefore, hafter⟩ := he
  refine ⟨lmb, t', Exec.of_foldlM hlmb, hfree, hbefore, hafter, ?_⟩
  intro hkeeps
  have hsame := hkeeps.2 _ _ hfree (by decide) 0x10400 (by omega)
  rw [hbefore, hafter] at hsame
  cases hsame

end

end UBoot
