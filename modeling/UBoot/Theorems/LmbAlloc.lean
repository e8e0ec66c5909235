import UBoot.Theorems.LmbReserved

/-!
# What the allocator gives is free memory

Three sums lose the address `2 ^ 32`, and `lmb_add_region` may let an entry grow around the top, or meet what was left in an emptied table.
-/

namespace UBoot

open Lib LmbAux Option

/-- The addresses of an entry do not wrap around, above or below: its last address is `base + size - 1`. -/
def LmbProperty.NoWrap (p : LmbProperty) : Prop :=
  p.base < 2 ^ 32 ∧ p.size < 2 ^ 32 ∧ p.base + p.size ≤ 2 ^ 32 ∧ 0 < p.base + p.size

/-- The regions do not wrap around; the table of reserved regions may also be the one of `lmb_init`. -/
structure Lmb.NoWrap (lmb : Lmb) : Prop where
  memory : ∀ i < lmb.memory.cnt, (lmb.memory.region i).base < 2 ^ 32 ∧ (lmb.memory.region i).size < 2 ^ 32 ∧
    (lmb.memory.region i).base + (lmb.memory.region i).size ≤ 2 ^ 32
  cnt_le : lmb.reserved.cnt ≤ MAX_LMB_REGIONS
  reserved : lmb.reserved.IsDummy ∨ ∀ j < lmb.reserved.cnt, (lmb.reserved.region j).NoWrap

/-- The range `[r, r + size)` was allocated: aligned, inside one region of memory and below `maxAddr`, free before and reserved after. -/
structure Allocated (lmb : Lmb) (size align maxAddr r : Nat) (t' : LmbRegion) : Prop where
  aligned : align ∣ r
  top : r + size ≤ 2 ^ 32
  inside : ∃ i < lmb.memory.cnt, (lmb.memory.region i).base ≤ r ∧ r + size ≤ (lmb.memory.region i).base + (lmb.memory.region i).size
  below : maxAddr ≠ 0 → r + size ≤ maxAddr
  free : ∀ j < lmb.reserved.cnt, ∀ a, (lmb.reserved.region j).Mem a → ¬LmbProperty.Mem ⟨r, size⟩ a
  reserved : ∀ a, LmbProperty.Mem ⟨r, size⟩ a → lmbIsReserved t' a = true

/-- The call returns, with an allocated range or with 0 and the reserved addresses as they were. -/
def AllocSound (lmb : Lmb) (size align maxAddr : Nat) (o : Option (Nat × LmbRegion)) : Prop :=
  ∃ r t', o = some (r, t') ∧ (r ≠ 0 → Allocated lmb size align maxAddr r t') ∧ (r = 0 → SameReserved lmb.reserved t')

/-! ## The condition -/

/-- `b` is a place for the search in region `i` of memory. -/
def Lmb.PlaceIn (lmb : Lmb) (size align maxAddr i b : Nat) : Prop :=
  ∃ start, lmbSearchBase (lmb.memory.region i).base (lmb.memory.region i).size size align maxAddr = some start ∧
    lmb.reserved.Place (lmb.memory.region i).base size align start b

/-- `b` is the highest place of region `i`, and the regions behind it have none. -/
structure Lmb.HighestPlace (lmb : Lmb) (size align maxAddr i b : Nat) : Prop where
  lt : i < lmb.memory.cnt
  place : lmb.PlaceIn size align maxAddr i b
  highest : ∀ b', lmb.PlaceIn size align maxAddr i b' → b' ≤ b
  last : ∀ k, i < k → k < lmb.memory.cnt → ∀ b', ¬lmb.PlaceIn size align maxAddr k b'

/-- The entry that grows when a range is added next to it, if there is one. -/
def LmbRegion.growth (t : LmbRegion) (b s : Nat) : Option LmbProperty :=
  match t.scan b s t.cnt 0 with
  | .before i => some (t.grown i ⟨sub32 (t.region i).base s, add32 (t.region i).size s⟩)
  | .after i => some (t.grown i ⟨(t.region i).base, add32 (t.region i).size s⟩)
  | _ => none

/-- Adding the range `[b, b + s)` reserves `size` bytes at `b`: with no entry in use, the two entries left from before are not adjacent, and the
first begins behind the range or has it; otherwise the entry that grows, if there is one, does not lose them by wrapping around. -/
def LmbRegion.AddKeeps (t : LmbRegion) (b s size : Nat) : Prop :=
  (t.cnt = 0 → t.regionsAdjacent 0 1 = 0 ∧ (b < (t.region 0).base ∨ ∀ a, LmbProperty.Mem ⟨b, size⟩ a → (t.region 0).has a = true)) ∧
  (¬t.IsDummy → ∀ g, t.growth b s = some g → ∀ a, LmbProperty.Mem ⟨b, size⟩ a → g.has a = true)

/-- The condition on the place: the table is full and the range has no neighbour in it, so that it is refused; or `maxAddr` is at least the size
and, if the region of memory ends at the top, the place is below it, the range shares nothing with a reserved region where one of the two
ends at the top, and adding it reserves it. -/
def Lmb.PlaceOk (lmb : Lmb) (size align maxAddr i b : Nat) : Prop :=
  (lmb.reserved.cnt = MAX_LMB_REGIONS ∧ lmb.reserved.NoNeighbour b (lmbAlignUp size align)) ∨ (maxAddr ≠ 0 → size ≤ maxAddr ∧
      ((lmb.memory.region i).base + (lmb.memory.region i).size = 2 ^ 32 → b + size ≤ maxAddr)) ∧
    (∀ j < lmb.reserved.cnt, 0 < (lmb.reserved.region j).size →
      ((lmb.reserved.region j).base + (lmb.reserved.region j).size = 2 ^ 32 → b + size ≤ (lmb.reserved.region j).base) ∧
      (b + size = 2 ^ 32 → (lmb.reserved.region j).base + (lmb.reserved.region j).size ≤ b)) ∧
    lmb.reserved.AddKeeps b (lmbAlignUp size align) size

namespace LmbAllocAux

/-! ## The search over the regions of memory -/

section Search

variable {lmb : Lmb} {size k maxAddr : Nat}

/-- A search begins at a multiple of the alignment, in a region of at least the size. -/
theorem searchBase_spec (hk : k < 32) {i start : Nat}
    (h : lmbSearchBase (lmb.memory.region i).base (lmb.memory.region i).size size (2 ^ k) maxAddr = some start) :
    size ≤ (lmb.memory.region i).size ∧ 2 ^ k ∣ start ∧ start < 2 ^ 32 ∧
      (maxAddr = 0 → start ≤ sub32 (add32 (lmb.memory.region i).base (lmb.memory.region i).size) size) ∧
      (maxAddr ≠ 0 → start ≤ sub32 (min (add32 (lmb.memory.region i).base (lmb.memory.region i).size) maxAddr) size) := by
  have hlt (x : Nat) : sub32 x size < 2 ^ 32 := Nat.mod_lt _ (by decide)
  unfold lmbSearchBase at h
  split_ifs at h with h1 h2 h3
  · obtain ⟨d1, d2, -⟩ := lmbAlignDown_spec hk (hlt (add32 (lmb.memory.region i).base (lmb.memory.region i).size))
    have := hlt (add32 (lmb.memory.region i).base (lmb.memory.region i).size)
    rw [some.injEq] at h
    rw [← h]
    exact ⟨by omega, d1, by omega, fun _ => d2, fun hne => absurd h2 hne⟩
  · obtain ⟨d1, d2, -⟩ := lmbAlignDown_spec hk (hlt (min (add32 (lmb.memory.region i).base (lmb.memory.region i).size) maxAddr))
    have := hlt (min (add32 (lmb.memory.region i).base (lmb.memory.region i).size) maxAddr)
    rw [some.injEq] at h
    rw [← h]
    exact ⟨by omega, d1, by omega, fun he => absurd he h2, fun _ => d2⟩

/-- What the outer loop does over the regions below `n`: it takes the highest place of the last region with one, or returns 0. -/
theorem allocLoop_spec (hk : k < 32) (hs : 0 < size) (hs' : size < 2 ^ 32) {fuel : Nat} (hfuel : 2 ^ 32 ≤ fuel) (n : Nat) :
    ((∀ i < n, ∀ b, ¬lmb.PlaceIn size (2 ^ k) maxAddr i b) ∧ lmb.allocLoop size (2 ^ k) maxAddr fuel n = some (0, lmb.reserved)) ∨
      ∃ i < n, ∃ b, lmb.PlaceIn size (2 ^ k) maxAddr i b ∧ (∀ b', lmb.PlaceIn size (2 ^ k) maxAddr i b' → b' ≤ b) ∧
        (∀ j, i < j → j < n → ∀ b', ¬lmb.PlaceIn size (2 ^ k) maxAddr j b') ∧
        lmb.allocLoop size (2 ^ k) maxAddr fuel n =
          (lmb.reserved.addRegion b (lmbAlignUp size (2 ^ k))).map fun r => if r.1 < 0 then (0, r.2) else (b, r.2) := by
  induction n with
  | zero => exact Or.inl ⟨by omega, rfl⟩
  | succ n ih =>
    rw [Lmb.allocLoop]
    -- a region without a place is passed over
    have hpass (hno : ∀ b, ¬lmb.PlaceIn size (2 ^ k) maxAddr n b) (o : Option (Nat × LmbRegion))
        (ho : o = lmb.allocLoop size (2 ^ k) maxAddr fuel n) :
        ((∀ i < n + 1, ∀ b, ¬lmb.PlaceIn size (2 ^ k) maxAddr i b) ∧ o = some (0, lmb.reserved)) ∨
          ∃ i < n + 1, ∃ b, lmb.PlaceIn size (2 ^ k) maxAddr i b ∧ (∀ b', lmb.PlaceIn size (2 ^ k) maxAddr i b' → b' ≤ b) ∧
            (∀ j, i < j → j < n + 1 → ∀ b', ¬lmb.PlaceIn size (2 ^ k) maxAddr j b') ∧
            o = (lmb.reserved.addRegion b (lmbAlignUp size (2 ^ k))).map fun r => if r.1 < 0 then (0, r.2) else (b, r.2) := by
      have hlast {j : Nat} (hj : j < n + 1) (hn : ¬j < n) : ∀ b, ¬lmb.PlaceIn size (2 ^ k) maxAddr j b := by
        obtain rfl : j = n := by omega
        exact hno
      rw [ho]
      rcases ih with ⟨hnone, heq⟩ | ⟨i, hi, b, hplace, hhigh, hback, heq⟩
      · refine Or.inl ⟨fun i hi => ?_, heq⟩
        by_cases hin : i < n
        · exact hnone i hin
        · exact hlast hi hin
      · refine Or.inr ⟨i, by omega, b, hplace, hhigh, fun j hj hjn => ?_, heq⟩
        by_cases hin : j < n
        · exact hback j hj hin
        · exact hlast hjn hin
    cases hbase : lmbSearchBase (lmb.memory.region n).base (lmb.memory.region n).size size (2 ^ k) maxAddr with
    | none =>
      refine hpass ?_ _ rfl
      rintro b ⟨start, hst, -⟩
      rw [hbase] at hst
      cases hst
    | some start =>
      obtain ⟨-, hal, hlt, -⟩ := searchBase_spec hk hbase
      have hsearch : Searched lmb.reserved (lmb.memory.region n).base size (2 ^ k) start _ :=
        searchLoop_spec hk hs hs' fuel start (by omega) hlt hal
      obtain ⟨found, hfound, hsome, hall⟩ := hsearch
      have hiff (b : Nat) : lmb.PlaceIn size (2 ^ k) maxAddr n b ↔ lmb.reserved.Place (lmb.memory.region n).base size (2 ^ k) start b := by
        simp [Lmb.PlaceIn, hbase]
      simp only [hfound]
      cases found with
      | none =>
        refine hpass ?_ _ rfl
        intro b hb
        obtain ⟨b', hb', -⟩ := hall b ((hiff b).1 hb)
        cases hb'
      | some b =>
        refine Or.inr ⟨n, Nat.lt_succ_self n, b, (hiff b).2 (hsome b rfl), fun b' hb' => ?_, fun j hj hjn => by omega, rfl⟩
        obtain ⟨b₁, hb₁, hle⟩ := hall b' ((hiff b').1 hb')
        obtain rfl : b = b₁ := some.inj hb₁
        exact hle

end Search

/-! ## The place found -/

section Place

variable {lmb : Lmb} {size k maxAddr i b : Nat}
variable {a up : Nat} {t : LmbRegion}

/-- A place is aligned and in the address space; it is in its region and below `maxAddr` exactly when the condition on `maxAddr` holds. -/
theorem place_spec (hk : k < 32) (hs : 0 < size) (hs' : size < 2 ^ 32)
    (hw : (lmb.memory.region i).base < 2 ^ 32 ∧ (lmb.memory.region i).size < 2 ^ 32 ∧
      (lmb.memory.region i).base + (lmb.memory.region i).size ≤ 2 ^ 32)
    (h : lmb.PlaceIn size (2 ^ k) maxAddr i b) (hlim : maxAddr ≠ 0 → size ≤ maxAddr) :
    2 ^ k ∣ b ∧ b ≠ 0 ∧ (lmb.memory.region i).base ≤ b ∧ b + size ≤ (lmb.memory.region i).base + (lmb.memory.region i).size ∧
      (maxAddr ≠ 0 → (lmb.memory.region i).base + (lmb.memory.region i).size < 2 ^ 32 → b + size ≤ maxAddr) := by
  obtain ⟨start, hst, ⟨hb0, hal, hlo, -⟩, hle, -⟩ := h
  obtain ⟨hsize, -, -, hany, hbelow⟩ := searchBase_spec hk hst
  obtain ⟨hbase, hsz, htop⟩ := hw
  refine ⟨hal, hb0, hlo, ?_⟩
  rcases add32_cases htop with ⟨hlt, hend⟩ | ⟨heq, hend⟩
  · by_cases h0 : maxAddr = 0
    · have := hany h0
      rw [hend, sub32_of_le (by omega) hlt] at this
      omega
    · have hle' := hbelow h0
      have := hlim h0
      rw [hend, sub32_of_le (by omega) (by omega)] at hle'
      omega
  · have hzero : start ≤ 2 ^ 32 - size := by
      rw [← sub32_zero hs hs']
      by_cases h0 : maxAddr = 0
      · have := hany h0
        rwa [hend] at this
      · have := hbelow h0
        rwa [hend, Nat.zero_min] at this
    omega

/-- A place whose range does not wrap shares nothing with a reserved region, exactly when it does not where the overlap test is wrong. -/
theorem free_iff (hs : 0 < size) (htop : b + size ≤ 2 ^ 32) (hr : lmb.reserved.IsDummy ∨ ∀ j < lmb.reserved.cnt,
    (lmb.reserved.region j).NoWrap) (hfree : lmb.reserved.overlapsRegion b size = none) :
    (∀ j < lmb.reserved.cnt, ∀ a, (lmb.reserved.region j).Mem a → ¬LmbProperty.Mem ⟨b, size⟩ a) ↔
      ∀ j < lmb.reserved.cnt, 0 < (lmb.reserved.region j).size →
        ((lmb.reserved.region j).base + (lmb.reserved.region j).size = 2 ^ 32 → b + size ≤ (lmb.reserved.region j).base) ∧
        (b + size = 2 ^ 32 → (lmb.reserved.region j).base + (lmb.reserved.region j).size ≤ b) := by
  refine forall_congr' fun j => forall_congr' fun hj => ?_
  have hno := overlapsRegion_eq_none_iff.1 hfree j hj
  generalize hp : lmb.reserved.region j = p at hno
  rcases Nat.eq_zero_or_pos p.size with hzero | hpos
  · simp only [LmbProperty.Mem, hzero]
    constructor
    · intro _ h
      omega
    · intro _ a h
      omega
  have hpw : p.base + p.size ≤ 2 ^ 32 := by
    rcases hr with hd | hall
    · have hj0 : j = 0 := by have := hd.1; omega
      have := hd.2
      rw [← hj0, hp] at this
      omega
    · rw [← hp]
      exact (hall j hj).2.2.1
  -- two ranges are disjoint when one ends before the other begins
  have hdis : (∀ a, p.Mem a → ¬LmbProperty.Mem ⟨b, size⟩ a) ↔ b + size ≤ p.base ∨ p.base + p.size ≤ b := by
    simp only [LmbProperty.Mem]
    constructor
    · intro h
      have := h (max p.base b)
      omega
    · intro h a ha
      omega
  rw [hdis]
  rcases add32_cases hpw with ⟨h1, e1⟩ | ⟨h1, e1⟩ <;> rcases add32_cases htop with ⟨h2, e2⟩ | ⟨h2, e2⟩ <;>
    rw [e1, e2] at hno <;> omega

theorem mem_of_has {p : LmbProperty} (hp : p.NoWrap) (h : p.has a = true) : p.Mem a := by
  obtain ⟨hb, hsz, htop, hpos⟩ := hp
  unfold LmbProperty.has at h
  rw [Bool.and_eq_true, decide_eq_true_eq, decide_eq_true_eq] at h
  exact ⟨h.1, (le_last_iff hpos htop).1 h.2⟩

theorem has_of_mem (hup : size ≤ up) (htop : b + up ≤ 2 ^ 32) (h : LmbProperty.Mem ⟨b, size⟩ a) :
    LmbProperty.has ⟨b, up⟩ a = true := by
  obtain ⟨h1, h2⟩ : b ≤ a ∧ a < b + size := h
  rw [LmbProperty.has, Bool.and_eq_true, decide_eq_true_eq, decide_eq_true_eq]
  exact ⟨h1, (le_last_iff (by omega) htop).2 (by omega)⟩

theorem lmbIsReserved_of {j : Nat} (hj : j < t.cnt) (h : (t.region j).has a = true) : lmbIsReserved t a = true :=
  List.any_eq_true.2 ⟨j, List.mem_range.2 hj, h⟩

theorem exists_of_lmbIsReserved (h : lmbIsReserved t a = true) : ∃ j < t.cnt, (t.region j).has a = true := by
  obtain ⟨j, hj, h⟩ := List.any_eq_true.1 h
  exact ⟨j, List.mem_range.1 hj, h⟩

/-- Adding a free range that is not refused reserves it exactly when the condition on the table holds. -/
theorem addKeeps_iff (hcnt : t.cnt ≤ MAX_LMB_REGIONS) (hr : t.IsDummy ∨ ∀ j < t.cnt, (t.region j).NoWrap)
    (hs : 0 < size) (hup : size ≤ up) (htop : b + up ≤ 2 ^ 32)
    (hfree : ∀ j < t.cnt, ∀ a, (t.region j).Mem a → ¬LmbProperty.Mem ⟨b, size⟩ a)
    (hnot : ¬(t.cnt = MAX_LMB_REGIONS ∧ t.NoNeighbour b up)) :
    (∃ r t', t.addRegion b up = some (r, t') ∧ ∀ a, LmbProperty.Mem ⟨b, size⟩ a → lmbIsReserved t' a = true) ↔
      t.AddKeeps b up size := by
  have hnothing (hno : t.NoNeighbour b up) : t.growth b up = none := by
    rw [LmbRegion.growth, (scan_eq_nothing_iff t.cnt 0).2 fun j _ hj => hno j (by omega)]
  have hb0 : LmbProperty.Mem ⟨b, size⟩ b := ⟨Nat.le_refl b, by simpa using hs⟩
  by_cases hd : t.IsDummy
  · obtain ⟨hone, hzero⟩ := hd
    refine iff_of_true ⟨0, t.set 0 ⟨b, up⟩, by rw [LmbRegion.addRegion, if_pos ⟨hone, hzero⟩], fun a ha => ?_⟩
      ⟨fun h0 => by omega, fun h => absurd ⟨hone, hzero⟩ h⟩
    refine lmbIsReserved_of (j := 0) (show 0 < t.cnt by omega) ?_
    simpa [LmbRegion.set] using has_of_mem hup htop ha
  have hout := addRegion_outcome (b := b) (s := up) hcnt
  generalize t.addRegion b up = o at hout
  cases hout with
  | dummy hone hzero => exact absurd ⟨hone, hzero⟩ hd
  | same j hj he =>
    refine iff_of_true ⟨_, _, rfl, fun a ha => lmbIsReserved_of hj ?_⟩ ⟨fun h0 => by omega, fun _ g hg => ?_⟩
    · rw [he]
      exact has_of_mem hup htop ha
    · -- the range itself is an entry, which is not free
      refine absurd hb0 (hfree j hj b ?_)
      rw [he]
      exact ⟨Nat.le_refl b, by show b < b + up; omega⟩
  | grown i hi e r t' hscan hr' hle hgrown hold =>
    have hg : t.growth b up = some (t.grown i e) := by
      rw [LmbRegion.growth]
      rcases hscan with ⟨hsc, -, rfl⟩ | ⟨hsc, -, -, rfl⟩ <;> rw [hsc]
    obtain ⟨m, hm, hme⟩ := hgrown
    constructor
    · rintro ⟨r₁, t₁, heq, hres⟩
      obtain ⟨-, rfl⟩ := Prod.mk.inj (some.inj heq)
      refine ⟨fun h0 => by omega, fun _ g hg' a ha => ?_⟩
      rw [hg, some.injEq] at hg'
      rw [← hg']
      obtain ⟨j, hj, hhas⟩ := exists_of_lmbIsReserved (hres a ha)
      rcases hold j hj with he | ⟨j', hj', he⟩
      · rwa [he] at hhas
      · rw [he] at hhas
        exact absurd ha (hfree j' hj' a (mem_of_has (hr.resolve_left hd j' hj') hhas))
    · rintro ⟨-, hkeep⟩
      refine ⟨r, t', rfl, fun a ha => lmbIsReserved_of hm ?_⟩
      rw [hme]
      exact hkeep hd _ hg a ha
  | full hno hfull => exact absurd ⟨hfull, hno⟩ hnot
  | added hno hpos hroom t' hc hk' =>
    obtain ⟨j, hj, he⟩ := hk'
    refine iff_of_true ⟨_, _, rfl, fun a ha => lmbIsReserved_of hj ?_⟩ ⟨fun h0 => by omega, fun _ g hg => ?_⟩
    · rw [he]
      exact has_of_mem hup htop ha
    · rw [hnothing hno] at hg
      cases hg
  | lost h0 hadj =>
    refine iff_of_false ?_ fun h => hadj (h.1 h0).1
    rintro ⟨r, t', h, -⟩
    cases h
  | first h0 hadj =>
    have hscan : t.growth b up = none := hnothing fun j hj => by omega
    constructor
    · rintro ⟨r₁, t₁, heq, hres⟩
      obtain ⟨-, rfl⟩ := Prod.mk.inj (some.inj heq)
      refine ⟨fun _ => ⟨hadj, ?_⟩, fun _ g hg => ?_⟩
      · by_cases hlt : b < (t.region 0).base
        · exact Or.inl hlt
        · refine Or.inr fun a ha => ?_
          obtain ⟨j, hj, hhas⟩ := exists_of_lmbIsReserved (hres a ha)
          obtain rfl : j = 0 := by simpa using hj
          simpa [hlt] using hhas
      · rw [hscan] at hg
        cases hg
    · rintro ⟨hzero, -⟩
      refine ⟨_, _, rfl, fun a ha => lmbIsReserved_of (j := 0) Nat.one_pos ?_⟩
      by_cases hlt : b < (t.region 0).base
      · simpa [hlt] using has_of_mem hup htop ha
      · simpa [hlt] using (hzero h0).2.resolve_left hlt a ha

/-- With a place `b` found, the call is sound exactly when the condition on the place holds. -/
theorem allocSound_iff (hw : lmb.NoWrap) (hk : k < 32) (hs : 0 < size) (hs' : size < 2 ^ 32) (hi : i < lmb.memory.cnt)
    (h : lmb.PlaceIn size (2 ^ k) maxAddr i b) :
    AllocSound lmb size (2 ^ k) maxAddr ((lmb.reserved.addRegion b (lmbAlignUp size (2 ^ k))).map fun r =>
      if r.1 < 0 then (0, r.2) else (b, r.2)) ↔ lmb.PlaceOk size (2 ^ k) maxAddr i b := by
  obtain ⟨start, -, ⟨-, -, -, hnone⟩, -, -⟩ := id h
  by_cases hfull : lmb.reserved.cnt = MAX_LMB_REGIONS ∧ lmb.reserved.NoNeighbour b (lmbAlignUp size (2 ^ k))
  · -- the range is refused, which changes nothing
    have hadd := ((addRegion_negative_iff hw.cnt_le).2 ⟨rfl, rfl, hfull.1, hfull.2⟩).1
    refine iff_of_true ⟨0, lmb.reserved, ?_, fun h0 => absurd rfl h0, fun _ a _ => rfl⟩ (Or.inl hfull)
    rw [hadd]
    rfl
  have hpos (r : Int) (t' : LmbRegion) (hadd : lmb.reserved.addRegion b (lmbAlignUp size (2 ^ k)) = some (r, t')) : ¬r < 0 := by
    intro hneg
    exact hfull ((addRegion_negative_iff hw.cnt_le).1 ⟨hadd, hneg⟩).2.2
  constructor
  · rintro ⟨r, t', heq, hsound, -⟩
    obtain ⟨⟨r₁, t₁⟩, hadd, he⟩ := map_eq_some_iff.1 heq
    simp only [hpos r₁ t₁ hadd, if_false, Prod.mk.injEq] at he
    obtain ⟨rfl, rfl⟩ := he
    have hb0 : b ≠ 0 := h.choose_spec.2.1.1
    have hall := hsound hb0
    obtain ⟨hup, hend⟩ := lmbAlignUp_spec hk hall.aligned hb0 hall.top
    refine Or.inr ⟨fun h0 => ⟨by have := hall.below h0; omega, fun _ => hall.below h0⟩, (free_iff hs hall.top hw.reserved hnone).1 hall.free, ?_⟩
    exact (addKeeps_iff hw.cnt_le hw.reserved hs hup hend hall.free hfull).1 ⟨r₁, t₁, hadd, hall.reserved⟩
  · rintro (hf | ⟨hlim, hdis, hkeep⟩)
    · exact absurd hf hfull
    obtain ⟨hal, hb0, hlo, hhi, hbelow⟩ := place_spec hk hs hs' (hw.memory i hi) h fun h0 => (hlim h0).1
    have htop := (hw.memory i hi).2.2
    have hfree := (free_iff hs (by omega) hw.reserved hnone).2 hdis
    obtain ⟨hup, hend⟩ := lmbAlignUp_spec hk hal hb0 (show b + size ≤ 2 ^ 32 by omega)
    obtain ⟨r, t', hadd, hres⟩ := (addKeeps_iff hw.cnt_le hw.reserved hs hup hend hfree hfull).2 hkeep
    refine ⟨b, t', ?_, fun _ => ?_, fun h0 => absurd h0 hb0⟩
    · rw [hadd, map_some, if_neg (hpos r t' hadd)]
    · refine ⟨hal, by omega, ⟨i, hi, hlo, hhi⟩, fun h0 => ?_, hfree, hres⟩
      rcases Nat.lt_or_eq_of_le htop with hlt | heq
      · exact hbelow h0 hlt
      · exact (hlim h0).2 heq

end Place

end LmbAllocAux

open LmbAllocAux

/-- The search ends, and what `__lmb_alloc_base` gives is an aligned free range of memory below `maxAddr` that is reserved from then on, exactly
when the highest place, if there is one, meets the condition. -/
theorem lmb_alloc_sound_iff (lmb : Lmb) (hw : lmb.NoWrap) (size k maxAddr fuel : Nat) (hk : k < 32) (hs : 0 < size) (hs' : size < 2 ^ 32)
    (hfuel : 2 ^ 32 ≤ fuel) :
    (∀ i < lmb.memory.cnt, ∀ start, lmbSearchBase (lmb.memory.region i).base (lmb.memory.region i).size size (2 ^ k) maxAddr = some start →
        (lmb.reserved.searchLoop (lmb.memory.region i).base size (2 ^ k) fuel start).isSome = true) ∧
    (AllocSound lmb size (2 ^ k) maxAddr (lmbAllocBase lmb size (2 ^ k) maxAddr fuel) ↔
      ∀ i b, lmb.HighestPlace size (2 ^ k) maxAddr i b → lmb.PlaceOk size (2 ^ k) maxAddr i b) := by
  refine ⟨fun i _ start hst => ?_, ?_⟩
  · obtain ⟨-, hal, hlt, -⟩ := searchBase_spec hk hst
    have hsearch : Searched lmb.reserved (lmb.memory.region i).base size (2 ^ k) start _ :=
      searchLoop_spec hk hs hs' fuel start (by omega) hlt hal
    obtain ⟨found, hfound, -⟩ := hsearch
    rw [hfound]
    rfl
  · rcases @allocLoop_spec lmb size k maxAddr hk hs hs' fuel hfuel lmb.memory.cnt with
      ⟨hnone, heq⟩ | ⟨i, hi, b, hplace, hhigh, hlast, heq⟩
    · rw [lmbAllocBase, heq]
      exact iff_of_true ⟨0, lmb.reserved, rfl, fun h0 => absurd rfl h0, fun _ a _ => rfl⟩ fun i b h => absurd h.place (hnone i h.lt b)
    · rw [lmbAllocBase, heq, allocSound_iff hw hk hs hs' hi hplace]
      refine ⟨fun hok i' b' h => ?_, fun h => h i b ⟨hi, hplace, hhigh, hlast⟩⟩
      -- there is one highest place
      obtain rfl : i' = i := by
        rcases Nat.lt_trichotomy i' i with hlt | heq' | hgt
        · exact absurd hplace (h.last i hlt hi b)
        · exact heq'
        · exact absurd h.place (hlast i' hgt h.lt b')
      obtain rfl : b' = b := Nat.le_antisymm (hhigh b' h.place) (h.highest b hplace)
      exact hok

/-- One region of memory with a part of it reserved. -/
def oneBank : Lmb := ⟨⟨1, fun _ => ⟨0, 0x2000⟩⟩, ⟨1, fun _ => ⟨0x1800, 0x400⟩⟩⟩

theorem oneBank_noWrap : oneBank.NoWrap :=
  ⟨fun i _ => by simp [oneBank], by decide, Or.inr fun j _ => by simp [oneBank, LmbProperty.NoWrap]⟩

theorem oneBank_highest {i b : Nat} (h : oneBank.HighestPlace 0x600 (2 ^ 8) 0 i b) : i = 0 ∧ b = 0x1200 := by
  obtain rfl : i = 0 := by simpa [oneBank] using h.lt
  have hplace : oneBank.PlaceIn 0x600 (2 ^ 8) 0 0 0x1200 :=
    ⟨0x1a00, by decide, ⟨by decide, by decide, by decide, by decide⟩, by decide, by decide⟩
  have hge := h.highest _ hplace
  obtain ⟨start, hst, ⟨-, ⟨c, rfl⟩, -, hfree⟩, hle, -⟩ := h.place
  obtain rfl : start = 0x1a00 := some.inj (hst.symm.trans (by decide))
  have hno := overlapsRegion_eq_none_iff.1 hfree 0 (by decide)
  simp only [oneBank, add32] at hno
  omega

theorem lmb_alloc_sound_oneBank : AllocSound oneBank 0x600 (2 ^ 8) 0 (lmbAllocBase oneBank 0x600 (2 ^ 8) 0 (2 ^ 32)) := by
  refine (lmb_alloc_sound_iff oneBank oneBank_noWrap 0x600 8 0 (2 ^ 32) (by decide) (by decide) (by decide) (Nat.le_refl _)).2.2 ?_
  intro i b h
  obtain ⟨rfl, rfl⟩ := oneBank_highest h
  refine Or.inr ⟨fun h0 => absurd rfl h0, by decide, fun h0 => absurd h0 (by decide), fun _ g hg a ha => ?_⟩
  have hgrow : oneBank.reserved.growth 0x1200 (lmbAlignUp 0x600 (2 ^ 8)) = some ⟨0x1200, 0xa00⟩ := by decide
  rw [hgrow, some.injEq] at hg
  rw [← hg]
  exact has_of_mem (show 0x600 ≤ 0xa00 by decide) (by decide) ha

/-- With `max_addr` below the size, the address given is not in memory at all. -/
theorem lmb_alloc_sound_false :
    oneBank.NoWrap ∧ ¬AllocSound oneBank 0x200 (2 ^ 0) 0x100 (lmbAllocBase oneBank 0x200 (2 ^ 0) 0x100 (2 ^ 32)) := by
  refine ⟨oneBank_noWrap, ?_⟩
  rintro ⟨r, t', h, hsound, -⟩
  have hr : (lmbAllocBase oneBank 0x200 (2 ^ 0) 0x100 (2 ^ 32)).map Prod.fst = some 0xffffff00 := by decide
  rw [h, map_some, some.injEq] at hr
  obtain rfl : r = 0xffffff00 := hr
  have hbelow := (hsound (by decide)).below (by decide)
  omega

end UBoot
