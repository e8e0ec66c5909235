import UBoot.Hashtable
import Mathlib.Tactic.Ring

/-!
# The invariant of the hash table, and where a search ends

`Htab.Valid` is the invariant of a table in use: every slot is never used, deleted or live; a live slot holds the hash of its
key and is reached by the probing of its key over slots that are not "never used"; and a key is live in at most one
slot. `Htab.WF` adds that `filled` counts the live slots. `Valid.locate_of_holds` and `Valid.locate_of_absent` say where
the search for a key ends in such a table, and every later proof uses these two and never unfolds the probing.
-/

namespace UBoot

section

open Lib

namespace Htab

/-- Slot `i` is live with key `k` and value `v`. -/
def Holds (h : Htab) (i : Nat) (k v : CString) : Prop :=
  1 ≤ i ∧ i ≤ h.size ∧ h.table i = ⟨h.hval k, some k, some v⟩

/-- The `n`-th slot tried for key `k`. -/
def path (h : Htab) (k : CString) (n : Nat) : Nat := (back h.size (h.hval2 (h.hval k)))^[n] (h.hval k)

/-- The slots in use: those with `used > 0`. -/
def liveSlots (h : Htab) : Finset Nat := (Finset.Icc 1 h.size).filter fun i => 0 < (h.table i).used

/-- Slot `i` is reached in the search for `k` over slots none of which was never used. -/
def Reached (h : Htab) (k : CString) (i : Nat) : Prop :=
  ∃ n < h.size, h.path k n = i ∧ ∀ m < n, (h.table (h.path k m)).used ≠ 0

/-- The invariant of a table in use. -/
structure Valid (h : Htab) : Prop where
  prime : h.size.Prime
  five_le : 5 ≤ h.size
  slots : ∀ i, 1 ≤ i → i ≤ h.size → (h.table i).used = 0 ∨ (h.table i).used = -1 ∨ ∃ k v, h.table i = ⟨h.hval k, some k, some v⟩
  reached : ∀ i k v, h.Holds i k v → h.Reached k i
  unique : ∀ i j k v w, h.Holds i k v → h.Holds j k w → i = j

/-- The invariant with the count of the live slots. -/
structure WF (h : Htab) : Prop extends h.Valid where
  filled_eq : h.filled = h.liveSlots.card

/-! ## The hash functions -/

theorem hval_pos (h : Htab) (k : CString) : 1 ≤ h.hval k := by
  unfold hval
  split <;> omega

theorem hval_lt (h : Htab) (h5 : 5 ≤ h.size) (k : CString) : h.hval k < h.size := by
  unfold hval
  split
  · omega
  · exact Nat.mod_lt _ (by omega)

theorem hval2_pos (h : Htab) (v : Nat) : 0 < h.hval2 v := by
  unfold hval2
  omega

theorem hval2_lt (h : Htab) (h5 : 5 ≤ h.size) (v : Nat) : h.hval2 v < h.size := by
  unfold hval2
  have := Nat.mod_lt v (show 0 < h.size - 2 by omega)
  omega

theorem hval2_coprime (h : Htab) (hp : h.size.Prime) (h5 : 5 ≤ h.size) (v : Nat) : Nat.Coprime (h.hval2 v) h.size := by
  rw [Nat.coprime_comm]
  exact (Nat.Prime.coprime_iff_not_dvd hp).2 fun hd =>
    absurd (Nat.le_of_dvd (h.hval2_pos v) hd) (by have := h.hval2_lt h5 v; omega)

theorem path_zero (h : Htab) (k : CString) : h.path k 0 = h.hval k := rfl

theorem path_succ (h : Htab) (k : CString) (n : Nat) : h.path k (n + 1) = back h.size (h.hval2 (h.hval k)) (h.path k n) := by
  unfold path
  rw [Function.iterate_succ_apply']

namespace Valid

variable {h : Htab}
variable {i : Nat} {k : CString}

theorem path_mem (hw : h.Valid) (k : CString) (n : Nat) : 1 ≤ h.path k n ∧ h.path k n ≤ h.size :=
  back_iterate_mem (h.hval2_lt hw.five_le _) (h.hval_pos k) (h.hval_lt hw.five_le k).le n

theorem exists_path (hw : h.Valid) (k : CString) (hi : 1 ≤ i) (hi' : i ≤ h.size) : ∃ n < h.size, h.path k n = i :=
  exists_back_iterate (h.hval2_lt hw.five_le _) (h.hval2_coprime hw.prime hw.five_le _) (h.hval_pos k) (h.hval_lt hw.five_le k).le hi hi'

theorem path_eq_hval_iff (hw : h.Valid) (k : CString) {n : Nat} (h0 : 0 < n) (hn : n ≤ h.size) : h.path k n = h.hval k ↔ n = h.size := by
  constructor
  · intro he
    by_contra hne
    exact back_iterate_ne_start (h.hval2_lt hw.five_le _) (h.hval2_coprime hw.prime hw.five_le _) h0 (by omega : n < h.size) he
  · rintro rfl
    exact back_iterate_period (h.hval2_lt hw.five_le _) (h.hval_pos k) (h.hval_lt hw.five_le k).le

/-- A live slot has a positive `used`; no other slot has. -/
theorem used_pos_iff (hw : h.Valid) (hi : 1 ≤ i) (hi' : i ≤ h.size) : 0 < (h.table i).used ↔ ∃ k v, h.Holds i k v := by
  constructor
  · intro hu
    rcases hw.slots i hi hi' with h0 | h1 | ⟨k, v, hs⟩
    · omega
    · omega
    · exact ⟨k, v, hi, hi', hs⟩
  · rintro ⟨k, v, -, -, hs⟩
    rw [hs]
    have := h.hval_pos k
    show (0 : Int) < (h.hval k : Int)
    omega

/-- The test for the entry of a key never meets a `NULL` string, and succeeds exactly at the key's live slot. -/
theorem isEntryOf_eq (hw : h.Valid) (k : CString) (hi : 1 ≤ i) (hi' : i ≤ h.size) :
    ((h.table i).isEntryOf (h.hval k) k = some true ∧ ∃ v, h.Holds i k v) ∨
      ((h.table i).isEntryOf (h.hval k) k = some false ∧ ∀ v, ¬h.Holds i k v) := by
  have hpos := h.hval_pos k
  have none_held (hu : (h.table i).used ≠ h.hval k) : (h.table i).isEntryOf (h.hval k) k = some false ∧ ∀ v, ¬h.Holds i k v := by
    refine ⟨by unfold Slot.isEntryOf; rw [if_neg hu], ?_⟩
    rintro v ⟨-, -, hs⟩
    exact hu (by rw [hs])
  rcases hw.slots i hi hi' with h0 | h1 | ⟨k', v, hs⟩
  · exact Or.inr (none_held (by omega))
  · exact Or.inr (none_held (by omega))
  · by_cases hk : k = k'
    · subst hk
      exact Or.inl ⟨by simp [Slot.isEntryOf, hs], v, hi, hi', hs⟩
    · refine Or.inr ⟨by simp [Slot.isEntryOf, hs, hk], ?_⟩
      rintro w ⟨-, -, hs'⟩
      rw [hs] at hs'
      exact hk (by simpa using (congrArg Slot.key hs').symm)

/-! ## Where the search ends -/

/-- The probing from the `n`-th slot on: it finds the key, or stops at a slot never used, or has tried every slot. The
fuel is the number of slots left to try, and is never exhausted. -/
theorem probe_spec (hw : h.Valid) (k : CString) (fuel n : Nat) (hfuel : n + fuel = h.size) (h0 : 0 < fuel)
    (hused : ∀ m ≤ n, (h.table (h.path k m)).used ≠ 0) (hno : ∀ m ≤ n, ∀ v, ¬h.Holds (h.path k m) k v) :
    (∃ i v, h.probe k (h.hval k) fuel (h.path k n) = some (.found i) ∧ h.Holds i k v) ∨
      (∃ m < h.size, h.probe k (h.hval k) fuel (h.path k n) = some (.stopped (h.path k m)) ∧
        (h.table (h.path k m)).used = 0 ∧ (∀ l < m, (h.table (h.path k l)).used ≠ 0) ∧
        ∀ l < m, ∀ v, ¬h.Holds (h.path k l) k v) ∨
      (h.probe k (h.hval k) fuel (h.path k n) = some (.stopped (h.hval k)) ∧
        ∀ l < h.size, (h.table (h.path k l)).used ≠ 0 ∧ ∀ v, ¬h.Holds (h.path k l) k v) := by
  induction fuel generalizing n with
  | zero => omega
  | succ fuel ih =>
    have hstep := h.path_succ k n
    simp only [probe, ← hstep]
    by_cases hback : h.path k (n + 1) = h.hval k
    · have hn : n + 1 = h.size := (hw.path_eq_hval_iff k (by omega) (by omega)).1 hback
      rw [if_pos hback, hback]
      exact Or.inr (Or.inr ⟨rfl, fun l hl => ⟨hused l (by omega), hno l (by omega)⟩⟩)
    · rw [if_neg hback]
      have hn : n + 1 < h.size := by
        rcases Nat.lt_or_ge (n + 1) h.size with hlt | hge
        · exact hlt
        · exact absurd ((hw.path_eq_hval_iff k (by omega) (by omega)).2 (by omega)) hback
      have hmem := hw.path_mem k (n + 1)
      rcases hw.isEntryOf_eq k hmem.1 hmem.2 with ⟨he, v, hv⟩ | ⟨he, hv⟩
      · rw [he]
        exact Or.inl ⟨_, v, rfl, hv⟩
      · rw [he]
        by_cases hu : (h.table (h.path k (n + 1))).used = 0
        · simp only [hu, ne_eq, not_true_eq_false, if_false]
          exact Or.inr (Or.inl ⟨n + 1, hn, rfl, hu, fun l hl => hused l (by omega), fun l hl => hno l (by omega)⟩)
        · simp only [hu, ne_eq, not_false_eq_true, if_true]
          refine ih (n + 1) (by omega) (by omega) ?_ ?_
          · intro m hm
            rcases Nat.lt_or_ge m (n + 1) with hlt | hge
            · exact hused m (by omega)
            · rw [show m = n + 1 by omega]
              exact hu
          · intro m hm
            rcases Nat.lt_or_ge m (n + 1) with hlt | hge
            · exact hno m (by omega)
            · rw [show m = n + 1 by omega]
              exact hv

/-- How a search for an absent key ends: at a slot never used that the key's probing reaches, or, when no such slot is left,
back at the first slot. -/
structure Absent (h : Htab) (k : CString) (idx fd : Nat) : Prop where
  not_held : ∀ i v, ¬h.Holds i k v
  fd_eq : fd = if (h.table (h.hval k)).used = -1 then h.hval k else 0
  slot : (h.table idx).used = 0 ∧ h.Reached k idx ∨ idx = h.hval k ∧ ∀ i, 1 ≤ i → i ≤ h.size → (h.table i).used ≠ 0

/-- The search ends at the live slot of the key, or as `Absent` says. -/
theorem locate_cases (hw : h.Valid) (k : CString) : (∃ i v, h.locate k = some (.found i) ∧ h.Holds i k v) ∨
      ∃ idx fd, h.locate k = some (.absent idx fd) ∧ Absent h k idx fd := by
  have hmem := hw.path_mem k 0
  rw [path_zero] at hmem
  -- a key whose first slots up to one never used do not hold it is not held at all
  have not_held_of_zero (m : Nat) (hz : (h.table (h.path k m)).used = 0)
      (hno : ∀ l < m, ∀ v, ¬h.Holds (h.path k l) k v) : ∀ i v, ¬h.Holds i k v := by
    intro i v hv
    obtain ⟨n, -, rfl, hn⟩ := hw.reached i k v hv
    rcases Nat.lt_trichotomy n m with hlt | rfl | hgt
    · exact hno n hlt v hv
    · have := (hw.used_pos_iff hv.1 hv.2.1).2 ⟨k, v, hv⟩
      omega
    · exact hn m hgt hz
  unfold locate
  by_cases hu : (h.table (h.hval k)).used = 0
  · simp only [hu, ne_eq, not_true_eq_false, if_false]
    refine Or.inr ⟨h.hval k, 0, rfl, not_held_of_zero 0 hu (fun l hl => by omega), by simp [hu], Or.inl ⟨hu, 0, ?_, rfl, ?_⟩⟩
    · have := hw.five_le
      omega
    · exact fun m hm => by omega
  · simp only [ne_eq, hu, not_false_eq_true, if_true]
    rcases hw.isEntryOf_eq k hmem.1 hmem.2 with ⟨he, v, hv⟩ | ⟨he, hv⟩
    · rw [he]
      exact Or.inl ⟨_, v, rfl, hv⟩
    · rw [he]
      have hp := hw.probe_spec k h.size 0 (by omega) (by have := hw.five_le; omega)
        (fun m hm => by rw [show m = 0 by omega]; exact hu) (fun m hm => by rw [show m = 0 by omega]; exact hv)
      rw [path_zero] at hp
      rcases hp with ⟨i, v, hp, hi⟩ | ⟨m, hm, hp, hz, hbefore, hno⟩ | ⟨hp, hall⟩
      · rw [hp]
        exact Or.inl ⟨i, v, rfl, hi⟩
      · rw [hp]
        exact Or.inr ⟨_, _, rfl, not_held_of_zero m hz hno, rfl, Or.inl ⟨hz, m, hm, rfl, hbefore⟩⟩
      · rw [hp]
        refine Or.inr ⟨_, _, rfl, ?_, rfl, Or.inr ⟨rfl, ?_⟩⟩
        · intro i v hi
          obtain ⟨n, hn, rfl⟩ := hw.exists_path k hi.1 hi.2.1
          exact (hall n hn).2 v hi
        · intro i h1 h2
          obtain ⟨n, hn, rfl⟩ := hw.exists_path k h1 h2
          exact (hall n hn).1

theorem locate_of_holds (hw : h.Valid) {v : CString} (hh : h.Holds i k v) : h.locate k = some (.found i) := by
  rcases hw.locate_cases k with ⟨j, w, hl, hj⟩ | ⟨idx, fd, -, ha⟩
  · rw [hl, hw.unique i j k v w hh hj]
  · exact absurd hh (ha.not_held i v)

/-- The search for a key that is not live ends as `Absent` says. -/
theorem locate_of_absent (hw : h.Valid) (hno : ∀ i v, ¬h.Holds i k v) :
    ∃ idx fd, h.locate k = some (.absent idx fd) ∧ Absent h k idx fd := by
  rcases hw.locate_cases k with ⟨j, w, -, hj⟩ | hc
  · exact absurd hj (hno j w)
  · exact hc

/-- What `FIND` returns: the value of the key's live slot, if it has one. -/
theorem hfind_eq_some_iff (hw : h.Valid) (k v : CString) : hfind h k = some v ↔ ∃ i, h.Holds i k v := by
  unfold hfind hsearchR
  rcases hw.locate_cases k with ⟨i, w, hl, hi⟩ | ⟨idx, fd, hl, ha⟩
  · rw [hl]
    simp only [atEntry, reduceCtorEq, false_and, if_false, Option.bind_some, hi.2.2, Option.some.injEq]
    constructor
    · rintro rfl
      exact ⟨i, hi⟩
    · rintro ⟨j, hj⟩
      obtain rfl := hw.unique i j k w v hi hj
      have := hi.2.2.symm.trans hj.2.2
      simpa using congrArg Slot.data this
  · rw [hl]
    simp only [atEmpty, Option.bind_some, Option.bind_none, reduceCtorEq, false_iff]
    rintro ⟨i, hi⟩
    exact ha.not_held i v hi

end Valid
end Htab

end

/-!
## One slot of the table replaced

An insertion, an overwrite and a deletion each replace one slot. `Htab.Replaced h h' idx s` says so, and the lemmas
`overwritten`, `stored` and `removed` say that the invariant `Valid` survives, whatever slot a new key is stored in, as long
as its search reaches it. The count survives too (`WF`) when the slot a new key is stored in is not live.
-/

section

open Lib

namespace Htab

/-- `h'` is `h` with slot `idx` replaced by `s`, and perhaps another count. -/
structure Replaced (h h' : Htab) (idx : Nat) (s : Slot) : Prop where
  size_eq : h'.size = h.size
  table_eq : h'.table = Function.update h.table idx s

namespace Replaced

variable {h h' : Htab} {idx : Nat} {s : Slot}
variable {i : Nat}

theorem hval_eq (hr : Replaced h h' idx s) (k : CString) : h'.hval k = h.hval k := by
  unfold hval
  rw [hr.size_eq]

theorem path_eq (hr : Replaced h h' idx s) (k : CString) (n : Nat) : h'.path k n = h.path k n := by
  unfold path hval2
  rw [hr.hval_eq, hr.size_eq]

theorem table_self (hr : Replaced h h' idx s) : h'.table idx = s := by
  rw [hr.table_eq, Function.update_self]

theorem table_ne (hr : Replaced h h' idx s) (hi : i ≠ idx) : h'.table i = h.table i := by
  rw [hr.table_eq, Function.update_of_ne hi]

theorem holds_ne (hr : Replaced h h' idx s) (hi : i ≠ idx) (k v : CString) : h'.Holds i k v ↔ h.Holds i k v := by
  unfold Holds
  rw [hr.table_ne hi, hr.size_eq, hr.hval_eq]

theorem holds_self (hr : Replaced h h' idx s) (h1 : 1 ≤ idx) (h2 : idx ≤ h.size) (k v : CString) :
    h'.Holds idx k v ↔ s = ⟨h.hval k, some k, some v⟩ := by
  unfold Holds
  rw [hr.table_self, hr.size_eq, hr.hval_eq]
  exact ⟨fun hh => hh.2.2, fun hh => ⟨h1, h2, hh⟩⟩

theorem reached_mono (hr : Replaced h h' idx s) (hs : s.used ≠ 0) {k : CString} (hi : h.Reached k i) : h'.Reached k i := by
  obtain ⟨n, hn, he, hb⟩ := hi
  refine ⟨n, by rwa [hr.size_eq], by rwa [hr.path_eq], ?_⟩
  intro m hm
  rw [hr.path_eq]
  by_cases hm' : h.path k m = idx
  · rw [hm', hr.table_self]
    exact hs
  · rw [hr.table_ne hm']
    exact hb m hm

end Replaced
variable {h h' : Htab} {k v : CString} {idx : Nat}


theorem Holds.mem_liveSlots {i : Nat} (hh : h.Holds i k v) : i ∈ h.liveSlots := by
  unfold liveSlots
  rw [Finset.mem_filter, Finset.mem_Icc, hh.2.2]
  have := h.hval_pos k
  exact ⟨⟨hh.1, hh.2.1⟩, show (0 : Int) < (h.hval k : Int) by omega⟩

theorem Replaced.liveSlots_overwritten {w : CString} (hh : h.Holds idx k v)
    (hr : Replaced h h' idx ⟨h.hval k, some k, some w⟩) : h'.liveSlots = h.liveSlots := by
  unfold liveSlots
  rw [hr.size_eq]
  refine Finset.filter_congr ?_
  intro i _
  by_cases he : i = idx
  · subst he
    rw [hr.table_self, hh.2.2]
  · rw [hr.table_ne he]

theorem Replaced.liveSlots_stored (h1 : 1 ≤ idx) (h2 : idx ≤ h.size)
    (hr : Replaced h h' idx ⟨h.hval k, some k, some v⟩) : h'.liveSlots = insert idx h.liveSlots := by
  have hpos := h.hval_pos k
  unfold liveSlots
  rw [hr.size_eq]
  ext i
  simp only [Finset.mem_insert, Finset.mem_filter, Finset.mem_Icc]
  by_cases he : i = idx
  · subst he
    rw [hr.table_self]
    exact ⟨fun _ => Or.inl rfl, fun _ => ⟨⟨h1, h2⟩, show (0 : Int) < (h.hval k : Int) by omega⟩⟩
  · rw [hr.table_ne he]
    exact ⟨Or.inr, fun hi => hi.resolve_left he⟩

theorem Replaced.liveSlots_removed (hr : Replaced h h' idx ⟨-1, none, none⟩) :
    h'.liveSlots = h.liveSlots.erase idx := by
  unfold liveSlots
  rw [hr.size_eq]
  ext i
  simp only [Finset.mem_erase, Finset.mem_filter, Finset.mem_Icc]
  by_cases he : i = idx
  · subst he
    rw [hr.table_self]
    simp
  · rw [hr.table_ne he]
    exact ⟨fun hi => ⟨he, hi⟩, fun hi => hi.2⟩

namespace Valid

variable {h h' : Htab} {idx : Nat}
variable {k v : CString}

theorem slots_replaced (hw : h.Valid) {s : Slot} (hr : Replaced h h' idx s)
    (hs : s.used = 0 ∨ s.used = -1 ∨ ∃ k v, s = ⟨h.hval k, some k, some v⟩) (i : Nat) (h1 : 1 ≤ i) (h2 : i ≤ h'.size) :
    (h'.table i).used = 0 ∨ (h'.table i).used = -1 ∨ ∃ k v, h'.table i = ⟨h'.hval k, some k, some v⟩ := by
  simp only [hr.hval_eq]
  by_cases hi : i = idx
  · subst hi
    rw [hr.table_self]
    exact hs
  · rw [hr.table_ne hi]
    exact hw.slots i h1 (hr.size_eq ▸ h2)

/-- Overwriting the value of a live slot keeps the invariant. -/
theorem overwritten (hw : h.Valid) {w : CString} (hh : h.Holds idx k v) (hr : Replaced h h' idx ⟨h.hval k, some k, some w⟩) : h'.Valid := by
  have hpos := h.hval_pos k
  have hne : ((h.hval k : Nat) : Int) ≠ 0 := by omega
  -- a key live in the new table was live in the same slot of the old one
  have old (i : Nat) (k' v' : CString) (hi : h'.Holds i k' v') : ∃ u, h.Holds i k' u := by
    by_cases he : i = idx
    · subst he
      obtain rfl : k = k' := by
        have := (hr.holds_self hh.1 hh.2.1 k' v').1 hi
        simpa using congrArg Slot.key this
      exact ⟨v, hh⟩
    · exact ⟨v', (hr.holds_ne he k' v').1 hi⟩
  refine ⟨hr.size_eq ▸ hw.prime, hr.size_eq ▸ hw.five_le, hw.slots_replaced hr (Or.inr (Or.inr ⟨k, w, rfl⟩)),
    fun i k' v' hi => ?_, fun i j k' v' w' hi hj => ?_⟩
  · obtain ⟨u, hu⟩ := old i k' v' hi
    exact hr.reached_mono hne (hw.reached i k' u hu)
  · obtain ⟨u, hu⟩ := old i k' v' hi
    obtain ⟨u', hu'⟩ := old j k' w' hj
    exact hw.unique i j k' u u' hu hu'

/-- Storing a key that is not live, in any slot that the key's search reaches, keeps the invariant. -/
theorem stored (hw : h.Valid) (h1 : 1 ≤ idx) (h2 : idx ≤ h.size)
    (hno : ∀ i w, ¬h.Holds i k w) (hreach : h.Reached k idx) (hr : Replaced h h' idx ⟨h.hval k, some k, some v⟩) :
    h'.Valid := by
  have hpos := h.hval_pos k
  have hne : ((h.hval k : Nat) : Int) ≠ 0 := by omega
  have key_eq (k' v' : CString) (hi : h'.Holds idx k' v') : k = k' := by
    have := (hr.holds_self h1 h2 k' v').1 hi
    simpa using congrArg Slot.key this
  refine ⟨hr.size_eq ▸ hw.prime, hr.size_eq ▸ hw.five_le, hw.slots_replaced hr (Or.inr (Or.inr ⟨k, v, rfl⟩)),
    fun i k' v' hi => ?_, fun i j k' v' w' hi hj => ?_⟩
  · refine hr.reached_mono hne ?_
    by_cases he : i = idx
    · subst he
      rw [← key_eq k' v' hi]
      exact hreach
    · exact hw.reached i k' v' ((hr.holds_ne he k' v').1 hi)
  · by_cases he : i = idx <;> by_cases he' : j = idx
    · rw [he, he']
    · subst he
      rw [← key_eq k' v' hi] at hj
      exact absurd ((hr.holds_ne he' k w').1 hj) (hno j w')
    · subst he'
      rw [← key_eq k' w' hj] at hi
      exact absurd ((hr.holds_ne he k v').1 hi) (hno i v')
    · exact hw.unique i j k' v' w' ((hr.holds_ne he k' v').1 hi) ((hr.holds_ne he' k' w').1 hj)

theorem removed (hw : h.Valid) (hh : h.Holds idx k v) (hr : Replaced h h' idx ⟨-1, none, none⟩) : h'.Valid := by
  have ne_idx (i : Nat) (k' v' : CString) (hi : h'.Holds i k' v') : i ≠ idx := by
    rintro rfl
    have := (hr.holds_self hh.1 hh.2.1 k' v').1 hi
    simpa using congrArg Slot.key this
  refine ⟨hr.size_eq ▸ hw.prime, hr.size_eq ▸ hw.five_le, hw.slots_replaced hr (Or.inr (Or.inl rfl)),
    fun i k' v' hi => ?_, fun i j k' v' w' hi hj => ?_⟩
  · exact hr.reached_mono (by simp) (hw.reached i k' v' ((hr.holds_ne (ne_idx i k' v' hi) k' v').1 hi))
  · exact hw.unique i j k' v' w' ((hr.holds_ne (ne_idx i k' v' hi) k' v').1 hi) ((hr.holds_ne (ne_idx j k' w' hj) k' w').1 hj)

theorem hfind_congr (hw : h.Valid) (hw' : h'.Valid) (hh : ∀ i v, h'.Holds i k v ↔ h.Holds i k v) : hfind h' k = hfind h k := by
  apply Option.ext
  intro v
  rw [hw'.hfind_eq_some_iff, hw.hfind_eq_some_iff]
  exact exists_congr fun i => hh i v

end Valid
end Htab

end

end UBoot
