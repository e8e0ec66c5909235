import UBoot.Pci
import Mathlib

/-!
# Allocation of PCI addresses

Over a run of allocations and alignments, the ranges that are given lie in the region, are aligned to their size and do not overlap, as long
as neither the sum of the room check nor the rounding up passes the end of the 32 bits.
-/

namespace UBoot

open List

section

/-- A call of the allocator. -/
inductive PciCall where
  | allocate (size : Nat)
  | align (size : Nat)

/-- The size that a call is made with. -/
def PciCall.size : PciCall → Nat
  | .allocate size => size
  | .align size => size

/-- The region, and what was given of it: addresses with their sizes. -/
structure PciState where
  region : PciRegion
  given : List (Nat × Nat)

def PciState.call (st : PciState) : PciCall → PciState
  | .align size => ⟨pciautoRegionAlign st.region size, st.given⟩
  | .allocate size =>
    ⟨(pciautoRegionAllocate st.region size).2, ((pciautoRegionAllocate st.region size).1.map fun addr => (addr, size)).toList ++ st.given⟩

/-- A sequence of calls. -/
def PciState.run (st : PciState) (calls : List PciCall) : PciState := calls.foldl PciState.call st

/-- What is given is aligned to its size, lies in the region, and does not overlap; a failed allocation leaves `bus_lower` as it is. -/
structure PciState.Sound (st : PciState) (start size : Nat) : Prop where
  aligned : ∀ g ∈ st.given, g.2 ∣ g.1
  inside : ∀ g ∈ st.given, start ≤ g.1 ∧ g.1 + g.2 ≤ start + size
  disjoint : st.given.Pairwise fun g g' => g.1 + g.2 ≤ g'.1 ∨ g'.1 + g'.2 ≤ g.1
  failed : ∀ s, (pciautoRegionAllocate st.region s).1 = none → (pciautoRegionAllocate st.region s).2.busLower = st.region.busLower

/-! ## The condition -/

/-- The least multiple of a size from a number on. -/
def roundUp (n size : Nat) : Nat := (n + size - 1) / size * size

/-- Where the allocator is; behind the last address, `bus_lower` is 0. -/
def PciRegion.lower (res : PciRegion) : Nat := if res.busLower = 0 then 2 ^ 32 else res.busLower

/-- Where the end of the range would be, from the start of the region. -/
def PciRegion.room (res : PciRegion) (size : Nat) : Nat := roundUp res.lower size - res.busStart + size

/-- The sum of the room check does not fit in 32 bits only if what is left of it is too large as well; rounding up does not come to the end of
the address space in a region that begins at 0. -/
def PciRegion.Fits (res : PciRegion) : PciCall → Prop
  | .allocate size => ¬(2 ^ 32 ≤ res.room size ∧ res.room size ≤ 2 ^ 32 + res.size)
  | .align size => roundUp res.lower size - res.busStart < 2 ^ 32

/-- Each call of a run meets the condition. -/
def PciState.Fit (st : PciState) : List PciCall → Prop
  | [] => True
  | call :: calls => st.region.Fits call ∧ (st.call call).Fit calls

namespace Pci

variable {n k size start : Nat} {res : PciRegion} {st : PciState} {call : PciCall}
variable {m s : Nat}

theorem or_mask (n k : Nat) : n ||| (2 ^ k - 1) = n / 2 ^ k * 2 ^ k + (2 ^ k - 1) := by
  have hlt : 2 ^ k - 1 < 2 ^ k := Nat.sub_one_lt (Nat.two_pow_pos k).ne'
  rw [Nat.mul_comm, Nat.two_pow_add_eq_or_of_lt hlt]
  apply Nat.eq_of_testBit_eq
  intro i
  rw [Nat.testBit_or, Nat.testBit_or, Nat.testBit_two_pow_mul, Nat.testBit_two_pow_sub_one, Nat.testBit_div_two_pow]
  by_cases hi : i < k
  · simp [hi]
  · simp [hi, Nat.le_of_not_lt hi, Nat.sub_add_cancel (Nat.le_of_not_lt hi)]

theorem roundUp_spec (hn : 0 < n) (hsize : 0 < size) : n ≤ roundUp n size ∧ size ∣ roundUp n size := by
  refine ⟨?_, Dvd.intro_left _ rfl⟩
  have hdiv := Nat.div_add_mod (n + size - 1) size
  have hmod := Nat.mod_lt (n + size - 1) hsize
  unfold roundUp
  rw [Nat.mul_comm]
  omega

theorem roundUp_le (hn : 0 < n) (hsize : 0 < size) (hnm : n ≤ m) (hm : size ∣ m) : roundUp n size ≤ m := by
  obtain ⟨q, rfl⟩ := hm
  have hdiv : (n + size - 1) / size ≤ q := by
    rw [← Nat.lt_succ_iff, Nat.div_lt_iff_lt_mul hsize, Nat.succ_mul, Nat.mul_comm]
    omega
  unfold roundUp
  rw [Nat.mul_comm size q]
  exact Nat.mul_le_mul_right size hdiv

theorem lower_pos (res : PciRegion) : 0 < res.lower := by
  unfold PciRegion.lower
  split <;> omega

/-- The word that the allocator computes is the multiple of the size. -/
theorem aligned_eq (hlower : res.busLower < 2 ^ 32) (hk : k < 32) : res.aligned (2 ^ k) = roundUp res.lower (2 ^ k) % 2 ^ 32 := by
  have hpos := Nat.two_pow_pos k
  have hlt : 2 ^ k < 2 ^ 32 := Nat.pow_lt_pow_right (by decide) hk
  have hone : sub32 res.busLower 1 = res.lower - 1 := by
    unfold PciRegion.lower
    split
    next h0 => rw [h0, sub32_zero (by decide) (by decide)]
    next h0 => exact sub32_of_le (Nat.pos_of_ne_zero h0) hlower
  have hround : roundUp res.lower (2 ^ k) = (res.lower - 1) / 2 ^ k * 2 ^ k + 2 ^ k := by
    have hn := lower_pos res
    unfold roundUp
    rw [show res.lower + 2 ^ k - 1 = res.lower - 1 + 2 ^ k by omega, Nat.add_div_right _ hpos, Nat.succ_mul]
  unfold PciRegion.aligned
  rw [hone, sub32_of_le hpos hlt, or_mask, hround]
  unfold add32
  rw [Nat.add_assoc, Nat.sub_add_cancel hpos]

theorem allocate_none (h : res.size < add32 (sub32 (res.aligned s) res.busStart) s) :
    pciautoRegionAllocate res s = (none, res) := if_pos h

theorem allocate_some (h : ¬res.size < add32 (sub32 (res.aligned s) res.busStart) s) :
    pciautoRegionAllocate res s = (some (res.aligned s), { res with busLower := add32 (res.aligned s) s }) := if_neg h

/-! ## Runs -/

/-- What a run keeps. -/
structure Kept (st : PciState) (start size : Nat) : Prop where
  busStart : st.region.busStart = start
  regionSize : st.region.size = size
  busLower : st.region.busLower < 2 ^ 32
  ne_zero : start = 0 → st.region.busLower ≠ 0
  lower : start ≤ st.region.lower
  aligned : ∀ g ∈ st.given, g.2 ∣ g.1
  inside : ∀ g ∈ st.given, start ≤ g.1 ∧ g.1 + g.2 ≤ start + size
  disjoint : st.given.Pairwise fun g g' => g.1 + g.2 ≤ g'.1 ∨ g'.1 + g'.2 ≤ g.1
  below : ∀ g ∈ st.given, g.1 + g.2 ≤ st.region.lower

theorem Kept.sound (h : Kept st start size) : st.Sound start size := by
  refine ⟨h.aligned, h.inside, h.disjoint, ?_⟩
  intro s hnone
  by_cases hfull : st.region.size < add32 (sub32 (st.region.aligned s) st.region.busStart) s
  · rw [allocate_none hfull]
  · rw [allocate_some hfull] at hnone
    cases hnone

theorem kept_init (hsize : 0 < res.size) (hend : res.busStart + res.size ≤ 2 ^ 32) : Kept ⟨pciautoRegionInit res, []⟩ res.busStart res.size := by
  refine ⟨rfl, rfl, ?_, ?_, ?_, nofun, nofun, List.Pairwise.nil, nofun⟩
  · change (if res.busStart ≠ 0 then res.busStart else 0x1000) < 2 ^ 32
    split <;> omega
  · intro h0
    change (if res.busStart ≠ 0 then res.busStart else 0x1000) ≠ 0
    rw [if_neg (not_not.2 h0)]
    decide
  · change res.busStart ≤
      if (if res.busStart ≠ 0 then res.busStart else 0x1000) = 0 then 2 ^ 32 else if res.busStart ≠ 0 then res.busStart else 0x1000
    by_cases h0 : res.busStart = 0
    · rw [h0]
      exact Nat.zero_le _
    · rw [if_pos h0, if_neg h0]

theorem lower_le (h : Kept st start size) : st.region.lower ≤ 2 ^ 32 := by
  have hlt := h.busLower
  unfold PciRegion.lower
  split <;> omega

theorem lower_of {x : Nat} (hx : x = m % 2 ^ 32) (hpos : 0 < m) (hle : m ≤ 2 ^ 32) : ({ res with busLower := x } : PciRegion).lower = m := by
  unfold PciRegion.lower
  simp only
  split <;> omega

theorem Kept.move {x : Nat} (h : Kept st start size) (hx : x = m % 2 ^ 32) (hge : st.region.lower ≤ m) (hle : m ≤ 2 ^ 32)
    (hzero : start = 0 → m < 2 ^ 32) : Kept ⟨{ st.region with busLower := x }, st.given⟩ start size := by
  have hpos := Nat.lt_of_lt_of_le (lower_pos st.region) hge
  have hlower : ({ st.region with busLower := x } : PciRegion).lower = m := lower_of hx hpos hle
  refine ⟨h.busStart, h.regionSize, ?_, ?_, ?_, h.aligned, h.inside, h.disjoint, ?_⟩
  · change x < 2 ^ 32
    omega
  · intro h0
    have hlt := hzero h0
    change x ≠ 0
    omega
  · rw [hlower]
    exact Nat.le_trans h.lower hge
  · intro g hg
    rw [hlower]
    exact Nat.le_trans (h.below g hg) hge

theorem Kept.give {a : Nat} (h : Kept st start size) (ha : a + s ≤ st.region.lower) (hdvd : s ∣ a) (hstart : start ≤ a)
    (hend : a + s ≤ start + size) (hbehind : ∀ g ∈ st.given, g.1 + g.2 ≤ a) : Kept ⟨st.region, (a, s) :: st.given⟩ start size := by
  refine ⟨h.busStart, h.regionSize, h.busLower, h.ne_zero, h.lower, ?_, ?_, ?_, ?_⟩
  · exact forall_mem_cons.2 ⟨hdvd, h.aligned⟩
  · exact forall_mem_cons.2 ⟨⟨hstart, hend⟩, h.inside⟩
  · exact pairwise_cons.2 ⟨fun g hg => Or.inr (hbehind g hg), h.disjoint⟩
  · exact forall_mem_cons.2 ⟨ha, h.below⟩

theorem kept_align (h : Kept st start size) (hk : k < 32) (hs : s = 2 ^ k) (hfits : st.region.Fits (.align s)) :
    Kept (st.call (.align s)) start size := by
  subst hs
  have hpos := lower_pos st.region
  obtain ⟨hge, -⟩ := roundUp_spec hpos (Nat.two_pow_pos k)
  have hle := roundUp_le hpos (Nat.two_pow_pos k) (lower_le h) (Nat.pow_dvd_pow 2 (Nat.le_of_lt hk))
  have hcall : st.call (.align (2 ^ k)) = ⟨{ st.region with busLower := st.region.aligned (2 ^ k) }, st.given⟩ := rfl
  have hroom : roundUp st.region.lower (2 ^ k) - st.region.busStart < 2 ^ 32 := hfits
  rw [hcall]
  refine h.move (aligned_eq h.busLower hk) hge hle fun h0 => ?_
  rwa [h.busStart, h0, Nat.sub_zero] at hroom

theorem room_check {a : Nat} (hend : start + size ≤ 2 ^ 32) (hs : 0 < s) (hs31 : s ≤ 2 ^ 31) (hbase : start ≤ a) (hle : a ≤ 2 ^ 32)
    (hroom : ¬(2 ^ 32 ≤ a - start + s ∧ a - start + s ≤ 2 ^ 32 + size)) (hfull : ¬size < add32 (sub32 (a % 2 ^ 32) start) s) :
    a + s ≤ start + size ∧ a - start + s < 2 ^ 32 := by
  unfold add32 sub32 at hfull
  omega

theorem kept_allocate (h : Kept st start size) (hend : start + size ≤ 2 ^ 32) (hk : k < 32) (hs : s = 2 ^ k)
    (hfits : st.region.Fits (.allocate s)) : Kept (st.call (.allocate s)) start size := by
  have haligned := hs ▸ aligned_eq h.busLower hk
  have hspos : 0 < s := hs ▸ Nat.two_pow_pos k
  have hs31 : s ≤ 2 ^ 31 := hs ▸ Nat.pow_le_pow_right (by decide) (Nat.le_of_lt_succ hk)
  have hpos := lower_pos st.region
  obtain ⟨hge, hdvd⟩ := roundUp_spec hpos hspos
  have hle : roundUp st.region.lower s ≤ 2 ^ 32 := roundUp_le hpos hspos (lower_le h) (hs ▸ Nat.pow_dvd_pow 2 (Nat.le_of_lt hk))
  have hroom : ¬(2 ^ 32 ≤ st.region.room s ∧ st.region.room s ≤ 2 ^ 32 + st.region.size) := hfits
  unfold PciRegion.room at hroom
  rw [h.busStart, h.regionSize] at hroom
  unfold PciState.call
  simp only
  by_cases hfull : st.region.size < add32 (sub32 (st.region.aligned s) st.region.busStart) s
  · rw [allocate_none hfull]
    exact h
  · rw [allocate_some hfull]
    rw [haligned, h.busStart, h.regionSize] at hfull
    generalize roundUp st.region.lower s = a at *
    obtain ⟨hinside, hfit⟩ := room_check hend hspos hs31 (Nat.le_trans h.lower hge) hle hroom hfull
    have haddr : st.region.aligned s = a := haligned.trans (Nat.mod_eq_of_lt (by omega))
    rw [haddr]
    have hx : add32 a s = (a + s) % 2 ^ 32 := rfl
    generalize add32 a s = x at *
    have hmove : Kept ⟨{ st.region with busLower := x }, st.given⟩ start size :=
      h.move hx (Nat.le_trans hge (Nat.le_add_right a s)) (Nat.le_trans hinside hend) fun h0 => by omega
    have hlower : ({ st.region with busLower := x } : PciRegion).lower = a + s := lower_of hx (by omega) (Nat.le_trans hinside hend)
    exact hmove.give (Nat.le_of_eq hlower.symm) hdvd (Nat.le_trans h.lower hge) hinside fun g hg => Nat.le_trans (h.below g hg) hge

theorem kept_run {calls : List PciCall} (h : Kept st start size) (hend : start + size ≤ 2 ^ 32)
    (hcalls : ∀ c ∈ calls, ∃ k < 32, c.size = 2 ^ k) (hfit : st.Fit calls) : Kept (st.run calls) start size := by
  induction calls generalizing st with
  | nil => exact h
  | cons call calls ih =>
    obtain ⟨k, hk, hsize⟩ := hcalls call mem_cons_self
    obtain ⟨hfits, hrest⟩ := hfit
    refine ih ?_ (fun c hc => hcalls c (mem_cons_of_mem call hc)) hrest
    cases call with
    | align s => exact kept_align h hk hsize hfits
    | allocate s => exact kept_allocate h hend hk hsize hfits

end Pci

/-- Every run whose calls fit gives ranges that lie in the region, are aligned and do not overlap. -/
theorem pci_allocate_sound (res : PciRegion) (hsize : 0 < res.size) (hend : res.busStart + res.size ≤ 2 ^ 32) (calls : List PciCall)
    (hcalls : ∀ c ∈ calls, ∃ k < 32, c.size = 2 ^ k) (hfit : (PciState.mk (pciautoRegionInit res) []).Fit calls) :
    ((PciState.mk (pciautoRegionInit res) []).run calls).Sound res.busStart res.size :=
  (Pci.kept_run (Pci.kept_init hsize hend) hend hcalls hfit).sound

/-- Pages of two sizes in 256 MiB at `0x80000000`, an alignment in front of the last one, and a request for more than is left. -/
def pageCalls : List PciCall := [.allocate 0x1000, .allocate 0x100000, .align 0x200000, .allocate 0x10000000, .allocate 0x1000]

/-- The three pages lie in the region and apart from each other. -/
theorem pci_allocate_page :
    ((PciState.mk (pciautoRegionInit ⟨0x80000000, 0, 0x10000000, 0, 0⟩) []).run pageCalls).Sound 0x80000000 0x10000000 ∧
    ((PciState.mk (pciautoRegionInit ⟨0x80000000, 0, 0x10000000, 0, 0⟩) []).run pageCalls).given =
      [(0x80200000, 0x1000), (0x80100000, 0x100000), (0x80000000, 0x1000)] := by
  refine ⟨pci_allocate_sound ⟨0x80000000, 0, 0x10000000, 0, 0⟩ (by decide) (by decide) pageCalls ?_ ?_, by decide⟩
  · intro c hc
    simp only [pageCalls, mem_cons, not_mem_nil, or_false] at hc
    rcases hc with rfl | rfl | rfl | rfl | rfl
    · exact ⟨12, by decide, rfl⟩
    · exact ⟨20, by decide, rfl⟩
    · exact ⟨21, by decide, rfl⟩
    · exact ⟨28, by decide, rfl⟩
    · exact ⟨12, by decide, rfl⟩
  · simp only [pageCalls, PciState.Fit, PciRegion.Fits]
    decide

/-- Two requests for the whole of the upper 2 GiB. -/
theorem pci_allocate_twice :
    ¬((PciState.mk (pciautoRegionInit ⟨0x80000000, 0, 0x80000000, 0, 0⟩) []).run [.allocate 0x80000000, .allocate 0x80000000]).Sound
      0x80000000 0x80000000 := by
  intro h
  have hgiven : ((PciState.mk (pciautoRegionInit ⟨0x80000000, 0, 0x80000000, 0, 0⟩) []).run
      [.allocate 0x80000000, .allocate 0x80000000]).given = [(0, 0x80000000), (0x80000000, 0x80000000)] := by decide
  have hinside := h.inside (0, 0x80000000) (by rw [hgiven]; exact mem_cons_self)
  exact absurd hinside.1 (by decide)

end

/-!
## Translation of PCI addresses

With regions of a type that overlap neither on the bus nor in memory, the translations are inverse to each other just if no region of the
type goes up to the end of the address space on the bus.
-/

section

def PciRegion.OfType (res : PciRegion) (flags : Nat) : Prop := (res.flags ^^^ flags) &&& PCI_REGION_TYPE = 0

/-- The address is in the region, on the bus. -/
def PciRegion.HasBus (res : PciRegion) (addr : Nat) : Prop := res.busStart ≤ addr ∧ addr < res.busStart + res.size

/-- The address is in the region, in memory. -/
def PciRegion.HasPhys (res : PciRegion) (addr : Nat) : Prop := res.physStart ≤ addr ∧ addr < res.physStart + res.size

/-- The fields have 32 bits, and the region ends in the address space or at its end. -/
structure PciRegion.Within (res : PciRegion) : Prop where
  busStart : res.busStart < 2 ^ 32
  physStart : res.physStart < 2 ^ 32
  size : res.size < 2 ^ 32
  bus : res.busStart + res.size ≤ 2 ^ 32
  phys : res.physStart + res.size ≤ 2 ^ 32

/-- The regions of a type are in the address space, and do not overlap. -/
structure PciDisjoint (regions : List PciRegion) (flags : Nat) : Prop where
  within : ∀ res ∈ regions, res.OfType flags → res.Within
  bus : ∀ res ∈ regions, ∀ res' ∈ regions, res.OfType flags → res'.OfType flags → ∀ addr, res.HasBus addr → res'.HasBus addr → res = res'
  phys : ∀ res ∈ regions, ∀ res' ∈ regions, res.OfType flags → res'.OfType flags → ∀ addr, res.HasPhys addr → res'.HasPhys addr → res = res'

/-- Each translation takes back what the other one does with an address in a region of the type. -/
structure PciInverse (regions : List PciRegion) (flags : Nat) : Prop where
  phys : ∀ res ∈ regions, res.OfType flags → ∀ addr, res.HasPhys addr →
    pciHoseBusToPhys regions (pciHosePhysToBus regions addr flags) flags = addr
  bus : ∀ res ∈ regions, res.OfType flags → ∀ addr, res.HasBus addr → pciHosePhysToBus regions (pciHoseBusToPhys regions addr flags) flags = addr

namespace Pci

variable {regions : List PciRegion} {res : PciRegion} {flags addr : Nat}

/-! ## The search -/

theorem not_passed_zero : res.passed flags 0 = false ↔ res.OfType flags := by
  unfold PciRegion.passed PciRegion.OfType
  simp

theorem ofType_of_not_passed {skipMask : Nat} (h : res.passed flags skipMask = false) : res.OfType flags :=
  not_not.1 (not_or.1 (of_decide_eq_false h)).1

section

variable {g : PciRegion → Option Nat}
variable {skipMask : Nat}

def pass (g : PciRegion → Option Nat) (regions : List PciRegion) (flags skipMask : Nat) : Option Nat :=
  regions.findSome? fun res => if res.passed flags skipMask then none else g res

theorem pass_eq_none (h : ∀ res ∈ regions, res.OfType flags → g res = none) : pass g regions flags skipMask = none := by
  unfold pass
  rw [findSome?_eq_none_iff]
  intro res hres
  split
  · rfl
  next hpassed => exact h res hres (ofType_of_not_passed (Bool.eq_false_iff.2 hpassed))

theorem exists_of_pass {v : Nat} (h : pass g regions flags skipMask = some v) : ∃ res ∈ regions, res.OfType flags ∧ g res = some v := by
  obtain ⟨res, hres, hv⟩ := exists_of_findSome?_eq_some h
  split at hv
  · cases hv
  next hpassed => exact ⟨res, hres, ofType_of_not_passed (Bool.eq_false_iff.2 hpassed), hv⟩

theorem twoPasses_none (h : ∀ res ∈ regions, res.OfType flags → g res = none) : twoPasses flags (pass g regions flags) = 0 := by
  unfold twoPasses
  rw [pass_eq_none h, pass_eq_none h, ite_self]
  rfl

/-- Where one region of the type gives something, that is found, in whichever pass. -/
theorem twoPasses_some {v : Nat} (hres : res ∈ regions) (htype : res.OfType flags) (hg : g res = some v)
    (hone : ∀ res' ∈ regions, res'.OfType flags → g res' ≠ none → res' = res) : twoPasses flags (pass g regions flags) = v := by
  have hfound {skipMask w : Nat} (hw : pass g regions flags skipMask = some w) : w = v := by
    obtain ⟨res', hres', htype', hg'⟩ := exists_of_pass hw
    rw [hone res' hres' htype' (by rw [hg']; nofun), hg] at hg'
    exact (Option.some.inj hg').symm
  have hsecond : pass g regions flags 0 ≠ none := by
    unfold pass
    rw [ne_eq, findSome?_eq_none_iff]
    intro hnone
    have hno := hnone res hres
    rw [not_passed_zero.2 htype, if_neg (by decide), hg] at hno
    cases hno
  obtain ⟨w, hw⟩ := Option.ne_none_iff_exists'.1 hsecond
  unfold twoPasses
  rw [if_pos (show flags &&& PCI_REGION_MEM = PCI_REGION_MEM from Nat.and_zero flags), hw]
  match hfirst : pass g regions flags PCI_REGION_SYS_MEMORY with
  | some w' => exact hfound hfirst
  | none => exact hfound hw

end

/-! ## Regions -/

/-- The region ends before the end of the address space, on the bus. -/
def EndsOnBus (res : PciRegion) : Prop := res.busStart + res.size < 2 ^ 32

theorem onBus_iff (hwithin : res.Within) : res.onBus addr = true ↔ res.HasBus addr ∧ EndsOnBus res := by
  have hbus := hwithin.bus
  unfold PciRegion.onBus PciRegion.HasBus EndsOnBus
  rw [decide_eq_true_iff]
  rcases Nat.lt_or_eq_of_le hbus with hlt | heq
  · rw [add32_of_lt hlt]
    exact ⟨fun h => ⟨h, hlt⟩, fun h => h.1⟩
  · rw [add32_of_eq heq]
    omega

/-- The bus address of a physical address, as a region has it. -/
def toBus (res : PciRegion) (addr : Nat) : Nat := add32 (sub32 addr res.physStart) res.busStart

/-- The physical address of a bus address, as a region has it. -/
def toPhys (res : PciRegion) (addr : Nat) : Nat := add32 (sub32 addr res.busStart) res.physStart

theorem toBus_eq (hwithin : res.Within) (h : res.HasPhys addr) :
    res.HasBus (toBus res addr) ∧ toBus res addr + res.physStart = addr + res.busStart := by
  obtain ⟨hle, hlt⟩ := h
  have hbus := hwithin.bus
  have hphys := hwithin.phys
  have heq : toBus res addr = addr - res.physStart + res.busStart := by
    unfold toBus
    rw [sub32_of_le hle (by omega), add32_of_lt (by omega)]
  unfold PciRegion.HasBus
  rw [heq]
  omega

theorem toPhys_eq (hwithin : res.Within) (h : res.HasBus addr) :
    res.HasPhys (toPhys res addr) ∧ toPhys res addr + res.busStart = addr + res.physStart := by
  obtain ⟨hle, hlt⟩ := h
  have hbus := hwithin.bus
  have hphys := hwithin.phys
  have heq : toPhys res addr = addr - res.busStart + res.physStart := by
    unfold toPhys
    rw [sub32_of_le hle (by omega), add32_of_lt (by omega)]
  unfold PciRegion.HasPhys
  rw [heq]
  omega

theorem hasPhys_of_toBus (hwithin : res.Within) (hends : EndsOnBus res) (haddr : addr < 2 ^ 32) (h : res.HasBus (toBus res addr)) :
    res.HasPhys addr := by
  obtain ⟨hle, hlt⟩ := h
  have hphys := hwithin.phys
  unfold EndsOnBus at hends
  unfold toBus add32 sub32 at hle hlt
  unfold PciRegion.HasPhys
  omega

/-! ## Translations -/

/-- What a region gives for a physical address. -/
def busOf (addr : Nat) (res : PciRegion) : Option Nat := if res.onBus (toBus res addr) then some (toBus res addr) else none

/-- What a region gives for a bus address. -/
def physOf (addr : Nat) (res : PciRegion) : Option Nat := if res.onBus addr then some (toPhys res addr) else none

theorem physToBus_eq : pciHosePhysToBus regions addr flags = twoPasses flags (pass (busOf addr) regions flags) := rfl

theorem busToPhys_eq : pciHoseBusToPhys regions addr flags = twoPasses flags (pass (physOf addr) regions flags) := rfl

theorem busOf_ne_none (hwithin : res.Within) (haddr : addr < 2 ^ 32) : busOf addr res ≠ none ↔ res.HasPhys addr ∧ EndsOnBus res := by
  unfold busOf
  rw [ite_ne_right_iff, onBus_iff hwithin]
  constructor
  · rintro ⟨⟨hbus, hends⟩, -⟩
    exact ⟨hasPhys_of_toBus hwithin hends haddr hbus, hends⟩
  · rintro ⟨hphys, hends⟩
    exact ⟨⟨(toBus_eq hwithin hphys).1, hends⟩, nofun⟩

theorem physOf_ne_none (hwithin : res.Within) : physOf addr res ≠ none ↔ res.HasBus addr ∧ EndsOnBus res := by
  unfold physOf
  rw [ite_ne_right_iff, onBus_iff hwithin]
  exact and_iff_left nofun

variable (h : PciDisjoint regions flags)

include h

theorem physToBus_some (hres : res ∈ regions) (htype : res.OfType flags) (haddr : res.HasPhys addr) (hends : EndsOnBus res) :
    pciHosePhysToBus regions addr flags = toBus res addr := by
  have hwithin := h.within res hres htype
  have hlt : addr < 2 ^ 32 := Nat.lt_of_lt_of_le haddr.2 hwithin.phys
  rw [physToBus_eq]
  refine twoPasses_some hres htype (if_pos ((onBus_iff hwithin).2 ⟨(toBus_eq hwithin haddr).1, hends⟩)) ?_
  intro res' hres' htype' hfound
  exact h.phys res' hres' res hres htype' htype addr ((busOf_ne_none (h.within res' hres' htype') hlt).1 hfound).1 haddr

theorem busToPhys_some (hres : res ∈ regions) (htype : res.OfType flags) (haddr : res.HasBus addr) (hends : EndsOnBus res) :
    pciHoseBusToPhys regions addr flags = toPhys res addr := by
  have hwithin := h.within res hres htype
  rw [busToPhys_eq]
  refine twoPasses_some hres htype (if_pos ((onBus_iff hwithin).2 ⟨haddr, hends⟩)) ?_
  intro res' hres' htype' hfound
  exact h.bus res' hres' res hres htype' htype addr ((physOf_ne_none (h.within res' hres' htype')).1 hfound).1 haddr

theorem busToPhys_zero (hres : res ∈ regions) (htype : res.OfType flags) (haddr : res.HasBus addr) (hends : ¬EndsOnBus res) :
    pciHoseBusToPhys regions addr flags = 0 := by
  rw [busToPhys_eq]
  refine twoPasses_none fun res' hres' htype' => ?_
  by_contra hfound
  obtain ⟨hbus, hends'⟩ := (physOf_ne_none (h.within res' hres' htype')).1 hfound
  exact hends (h.bus res' hres' res hres htype' htype addr hbus haddr ▸ hends')

/-- A bus address of such a region does not come back. -/
theorem physToBus_zero_ne (hres : res ∈ regions) (htype : res.OfType flags) (haddr : res.HasBus addr) (hends : ¬EndsOnBus res) :
    pciHosePhysToBus regions 0 flags ≠ addr := by
  by_cases hfound : ∃ res' ∈ regions, res'.OfType flags ∧ busOf 0 res' ≠ none
  · obtain ⟨res', hres', htype', hsome⟩ := hfound
    have hwithin' := h.within res' hres' htype'
    obtain ⟨hphys, hends'⟩ := (busOf_ne_none hwithin' (by decide)).1 hsome
    rw [physToBus_some h hres' htype' hphys hends']
    rintro rfl
    exact hends (h.bus res' hres' res hres htype' htype _ (toBus_eq hwithin' hphys).1 haddr ▸ hends')
  · have hzero : pciHosePhysToBus regions 0 flags = 0 := by
      rw [physToBus_eq]
      exact twoPasses_none fun res' hres' htype' => by_contra fun hsome => hfound ⟨res', hres', htype', hsome⟩
    have hsize := (h.within res hres htype).size
    unfold EndsOnBus at hends
    have hlower := haddr.1
    omega

omit h in
theorem pciDisjoint_single (hwithin : res.Within) : PciDisjoint [res] flags := by
  refine ⟨?_, ?_, ?_⟩
  · intro res' hres' _
    rwa [mem_singleton.1 hres']
  · intro a ha b hb _ _ _ _ _
    rw [mem_singleton.1 ha, mem_singleton.1 hb]
  · intro a ha b hb _ _ _ _ _
    rw [mem_singleton.1 ha, mem_singleton.1 hb]

end Pci

open Pci in
/-- The translations are inverse to each other just if no region of the type goes up to the end of the address space on the bus. -/
theorem pci_translate_iff (regions : List PciRegion) (flags : Nat) (h : PciDisjoint regions flags) :
    PciInverse regions flags ↔ ∀ res ∈ regions, res.OfType flags → res.busStart + res.size < 2 ^ 32 := by
  constructor
  · intro hinverse res hres htype
    by_contra hends
    have hwithin := h.within res hres htype
    have haddr : res.HasBus res.busStart := by
      have hlt := hwithin.busStart
      unfold PciRegion.HasBus
      omega
    have hback := hinverse.bus res hres htype res.busStart haddr
    rw [busToPhys_zero h hres htype haddr hends] at hback
    exact physToBus_zero_ne h hres htype haddr hends hback
  · intro hends
    constructor
    · intro res hres htype addr haddr
      have hwithin := h.within res hres htype
      obtain ⟨hbus, heq⟩ := toBus_eq hwithin haddr
      rw [physToBus_some h hres htype haddr (hends res hres htype), busToPhys_some h hres htype hbus (hends res hres htype)]
      have hback := (toPhys_eq hwithin hbus).2
      omega
    · intro res hres htype addr haddr
      have hwithin := h.within res hres htype
      obtain ⟨hphys, heq⟩ := toPhys_eq hwithin haddr
      rw [busToPhys_some h hres htype haddr (hends res hres htype), physToBus_some h hres htype hphys (hends res hres htype)]
      have hback := (toBus_eq hwithin hphys).2
      omega

/-- Two regions of 256 MiB behind each other on the bus, the second one first in memory, and an I/O region at the addresses of the first. -/
def threeRegions : List PciRegion :=
  [⟨0x80000000, 0x40000000, 0x10000000, PCI_REGION_MEM, 0⟩, ⟨0x80000000, 0, 0x10000000, 1, 0⟩,
    ⟨0x90000000, 0, 0x10000000, PCI_REGION_MEM, 0⟩]

theorem mem_threeRegions {res : PciRegion} (h : res ∈ threeRegions) (htype : res.OfType PCI_REGION_MEM) :
    res = ⟨0x80000000, 0x40000000, 0x10000000, PCI_REGION_MEM, 0⟩ ∨ res = ⟨0x90000000, 0, 0x10000000, PCI_REGION_MEM, 0⟩ := by
  simp only [threeRegions, mem_cons, not_mem_nil, or_false] at h
  rcases h with h | rfl | h
  · exact Or.inl h
  · exact absurd htype (by unfold PciRegion.OfType; decide)
  · exact Or.inr h

/-- The translations of their memory addresses are inverse to each other. -/
theorem pci_translate_memory : PciInverse threeRegions PCI_REGION_MEM := by
  refine (pci_translate_iff _ _ ⟨?_, ?_, ?_⟩).2 ?_
  · intro res h htype
    rcases mem_threeRegions h htype with rfl | rfl
    · exact ⟨by decide, by decide, by decide, by decide, by decide⟩
    · exact ⟨by decide, by decide, by decide, by decide, by decide⟩
  · rintro res h res' h' htype htype' addr ⟨hge, hlt⟩ ⟨hge', hlt'⟩
    rcases mem_threeRegions h htype with rfl | rfl <;> rcases mem_threeRegions h' htype' with rfl | rfl <;> first | rfl | (simp only at *; omega)
  · rintro res h res' h' htype htype' addr ⟨hge, hlt⟩ ⟨hge', hlt'⟩
    rcases mem_threeRegions h htype with rfl | rfl <;> rcases mem_threeRegions h' htype' with rfl | rfl <;> first | rfl | (simp only at *; omega)
  · intro res h htype
    rcases mem_threeRegions h htype with rfl | rfl
    · decide
    · decide

/-- 2 GiB at `0x80000000`, from address 0 on in memory. -/
theorem pci_translate_to_the_end : PciDisjoint [⟨0x80000000, 0, 0x80000000, 0, 0⟩] PCI_REGION_MEM ∧
      ¬PciInverse [⟨0x80000000, 0, 0x80000000, 0, 0⟩] PCI_REGION_MEM := by
  constructor
  · exact Pci.pciDisjoint_single ⟨by decide, by decide, by decide, by decide, by decide⟩
  · intro h
    have hback := h.phys _ (mem_singleton_self _) rfl 0x1000 ⟨by decide, by decide⟩
    revert hback
    decide

end

end UBoot
