import UBoot.Lemmas.Search
import Mathlib.Data.Set.Card

/-!
# What each call on the table does

One lemma for each way a call of `hsearch_r` or `hdelete_r` can go in a table that satisfies the invariant: whether it succeeds,
that the invariant survives, what is then found for its key, and that nothing changes for any other key.
-/

namespace UBoot

open Lib Htab Option

namespace HashMapAux

variable {h : Htab}
variable {n i : Nat} {k u : CString}

theorem wf_fresh (hp : n.Prime) (h5 : 5 ≤ n) : (Htab.mk (fun _ => Slot.zero) n 0).WF := by
  have not_held (i : Nat) (k v : CString) : ¬(Htab.mk (fun _ => Slot.zero) n 0).Holds i k v := by
    rintro ⟨-, -, hs⟩
    simp [Slot.zero] at hs
  refine ⟨⟨hp, h5, fun i _ _ => Or.inl rfl, fun i k v hi => absurd hi (not_held i k v), fun i j k v w hi _ => absurd hi (not_held i k v)⟩, ?_⟩
  simp [liveSlots, Slot.zero]

theorem eq_of_hcreateR {nel : Nat} {h₀ : Htab} (hc : hcreateR true nel none = some h₀) : h₀ = ⟨fun _ => Slot.zero, h₀.size, 0⟩ := by
  simp only [hcreateR, if_true, some.injEq] at hc
  rw [← hc]

theorem hfind_fresh (hp : n.Prime) (h5 : 5 ≤ n) (k : CString) : hfind (Htab.mk (fun _ => Slot.zero) n 0) k = none := by
  apply eq_none_iff_forall_ne_some.2
  intro v hv
  obtain ⟨i, -, -, hs⟩ := ((wf_fresh hp h5).hfind_eq_some_iff k v).1 hv
  simp [Slot.zero] at hs

theorem exists_holds_of_isSome (hw : h.Valid) (hf : (hfind h k).isSome) : ∃ i v, h.Holds i k v := by
  obtain ⟨v, hv⟩ := isSome_iff_exists.1 hf
  obtain ⟨i, hi⟩ := (hw.hfind_eq_some_iff k v).1 hv
  exact ⟨i, v, hi⟩

theorem not_holds_of_hfind_none (hw : h.Valid) (hf : hfind h k = none) : ∀ i v, ¬h.Holds i k v := by
  intro i v hi
  rw [(hw.hfind_eq_some_iff k v).2 ⟨i, hi⟩] at hf
  cases hf

/-- Every slot is live exactly when `filled` is the number of slots. -/
theorem filled_eq_size_iff (hw : h.WF) : h.filled = h.size ↔ ∀ i, 1 ≤ i → i ≤ h.size → 0 < (h.table i).used := by
  rw [hw.filled_eq]
  have hcard : (Finset.Icc 1 h.size).card = h.size := by simp
  constructor
  · intro he i h1 h2
    have hsub : h.liveSlots = Finset.Icc 1 h.size :=
      Finset.eq_of_subset_of_card_le (Finset.filter_subset _ _) (by rw [hcard, he])
    have hi : i ∈ h.liveSlots := hsub ▸ Finset.mem_Icc.2 ⟨h1, h2⟩
    exact (Finset.mem_filter.1 hi).2
  · intro hall
    rw [liveSlots, Finset.filter_true_of_mem, hcard]
    intro i hi
    obtain ⟨h1, h2⟩ := Finset.mem_Icc.1 hi
    exact hall i h1 h2

/-- `FIND` leaves the table as it is. -/
theorem find_spec (hw : h.Valid) (k : CString) : ∃ r, hsearchR .ok ⟨k, none⟩ .find h = some r ∧ r.htab = h := by
  unfold hsearchR
  rcases hw.locate_cases k with ⟨i, w, hl, -⟩ | ⟨idx, fd, hl, -⟩
  · exact ⟨_, by rw [hl], by simp [atEntry]⟩
  · exact ⟨_, by rw [hl]; rfl, rfl⟩

/-- `ENTER` of a live key overwrites its value and nothing else. -/
theorem enter_held (hw : h.WF) (hi : h.Holds i k u) (v : CString) :
    ∃ r, hsearchR .ok ⟨k, some v⟩ .enter h = some r ∧ r.ret ≠ 0 ∧ r.htab.WF ∧ hfind r.htab k = some v ∧
      ∀ k' ≠ k, hfind r.htab k' = hfind h k' := by
  refine ⟨_, by rw [hsearchR, hw.locate_of_holds hi], ?_⟩
  have hr : Replaced h (h.setSlot i { h.table i with data := some v }) i ⟨h.hval k, some k, some v⟩ :=
    ⟨rfl, by simp [setSlot, hi.2.2]⟩
  have hw' : (h.setSlot i { h.table i with data := some v }).WF :=
    ⟨hw.overwritten hi hr, by rw [hr.liveSlots_overwritten hi]; exact hw.filled_eq⟩
  simp only [atEntry, isSome_some, and_self, if_true, Strdup.ok]
  refine ⟨by have := hi.1; omega, hw', ?_, fun k' hk' => hw.hfind_congr hw'.toValid fun j w => ?_⟩
  · exact (hw'.hfind_eq_some_iff k v).2 ⟨i, (hr.holds_self hi.1 hi.2.1 k v).2 rfl⟩
  · by_cases hj : j = i
    · subst hj
      rw [hr.holds_self hi.1 hi.2.1]
      constructor
      · intro hs
        exact absurd (by simpa using (congrArg Slot.key hs).symm) hk'
      · rintro ⟨-, -, hs⟩
        rw [hi.2.2] at hs
        exact absurd (by simpa using (congrArg Slot.key hs).symm) hk'
    · exact hr.holds_ne hj k' w

/-- `ENTER` of a new key into a full table fails and leaves the table as it is. -/
theorem enter_full (hw : h.Valid) (hno : ∀ i w, ¬h.Holds i k w) (hfull : h.filled = h.size) (v : CString) :
    hsearchR .ok ⟨k, some v⟩ .enter h = some ⟨0, none, some .ENOMEM, h⟩ := by
  obtain ⟨idx, fd, hl, -⟩ := hw.locate_of_absent hno
  rw [hsearchR, hl]
  simp only [atEmpty, hfull, if_true]

/-- `ENTER` of a new key into a table with room stores it in a slot never used, or else in the first slot tried, also when
that one is not deleted and no slot is left that was never used. -/
theorem enter_stores (hw : h.Valid) (hno : ∀ i w, ¬h.Holds i k w) (hroom : h.filled ≠ h.size) (v : CString) :
    ∃ r j, hsearchR .ok ⟨k, some v⟩ .enter h = some r ∧ r.ret ≠ 0 ∧ r.retval = some j ∧ r.htab.filled = h.filled + 1 ∧
      Replaced h r.htab j ⟨h.hval k, some k, some v⟩ ∧ 1 ≤ j ∧ j ≤ h.size ∧ r.htab.Valid ∧
      ((h.table j).used = 0 ∨ j = h.hval k ∧ ((h.table j).used = -1 ∨ ∀ i, 1 ≤ i → i ≤ h.size → (h.table i).used ≠ 0)) := by
  obtain ⟨idx, fd, hl, ha⟩ := hw.locate_of_absent hno
  obtain ⟨j, hj⟩ : ∃ j, j = if fd ≠ 0 then fd else idx := ⟨_, rfl⟩
  have hv1 := h.hval_pos k
  have hv2 := h.hval_lt hw.five_le k
  have hstart : h.Reached k (h.hval k) := ⟨0, by omega, rfl, fun m hm => by omega⟩
  have hslot : 1 ≤ j ∧ j ≤ h.size ∧ h.Reached k j ∧ ((h.table j).used = 0 ∨
      j = h.hval k ∧ ((h.table j).used = -1 ∨ ∀ i, 1 ≤ i → i ≤ h.size → (h.table i).used ≠ 0)) := by
    by_cases hdel : (h.table (h.hval k)).used = -1
    · have hfd : fd = h.hval k := by rw [ha.fd_eq, if_pos hdel]
      rw [if_pos (by omega), hfd] at hj
      subst hj
      exact ⟨hv1, hv2.le, hstart, Or.inr ⟨rfl, Or.inl hdel⟩⟩
    · have hfd : fd = 0 := by rw [ha.fd_eq, if_neg hdel]
      rw [if_neg (by omega)] at hj
      subst hj
      rcases ha.slot with ⟨hz, n, hn, he, hb⟩ | ⟨he, hall⟩
      · have hm := hw.path_mem k n
        rw [he] at hm
        exact ⟨hm.1, hm.2, ⟨n, hn, he, hb⟩, Or.inl hz⟩
      · rw [he]
        exact ⟨hv1, hv2.le, hstart, Or.inr ⟨rfl, Or.inr hall⟩⟩
  obtain ⟨h1, h2, hreach, hfree⟩ := hslot
  have hr : Replaced h { h.setSlot j ⟨h.hval k, some k, some v⟩ with filled := h.filled + 1 } j ⟨h.hval k, some k, some v⟩ := ⟨rfl, rfl⟩
  exact ⟨⟨1, some j, none, { h.setSlot j ⟨h.hval k, some k, some v⟩ with filled := h.filled + 1 }⟩, j,
    by rw [hsearchR, hl, hj]; simp only [atEmpty, if_neg hroom]; rfl, by simp, rfl, rfl, hr, h1, h2,
    hw.stored h1 h2 hno hreach hr, hfree⟩

/-- `ENTER` of a new key into a table with room, where the condition holds, adds the key and changes no other. -/
theorem enter_new (hw : h.WF) (hno : ∀ i w, ¬h.Holds i k w) (hroom : h.filled ≠ h.size)
    (hok : (∃ i, 1 ≤ i ∧ i ≤ h.size ∧ (h.table i).used = 0) ∨ (h.table (h.hval k)).used = -1) (v : CString) :
    ∃ r j, hsearchR .ok ⟨k, some v⟩ .enter h = some r ∧ r.ret ≠ 0 ∧ r.retval = some j ∧
      Replaced h r.htab j ⟨h.hval k, some k, some v⟩ ∧ r.htab.WF ∧ hfind r.htab k = some v ∧
      ∀ k' ≠ k, hfind r.htab k' = hfind h k' := by
  obtain ⟨r, j, hs, hret, hretval, hfilled, hr, h1, h2, hv', hslot⟩ := enter_stores hw.toValid hno hroom v
  have hfree : (h.table j).used ≤ 0 := by
    rcases hslot with h0 | ⟨rfl, hdel | hall⟩
    · omega
    · omega
    · rcases hok with ⟨i, hi1, hi2, h0⟩ | hdel
      · exact absurd h0 (hall i hi1 hi2)
      · omega
  have hnot : j ∉ h.liveSlots := fun hm => absurd (Finset.mem_filter.1 hm).2 (by omega)
  have hw' : r.htab.WF :=
    ⟨hv', by rw [hr.liveSlots_stored h1 h2, Finset.card_insert_of_notMem hnot, ← hw.filled_eq, hfilled]⟩
  refine ⟨r, j, hs, hret, hretval, hr, hw', (hv'.hfind_eq_some_iff k v).2 ⟨j, (hr.holds_self h1 h2 k v).2 rfl⟩,
    fun k' hk' => hw.hfind_congr hv' fun i w => ?_⟩
  by_cases hi : i = j
  · subst hi
    rw [hr.holds_self h1 h2]
    constructor
    · intro hs
      exact absurd (by simpa using (congrArg Slot.key hs).symm) hk'
    · intro hs
      have := (hw.used_pos_iff h1 h2).2 ⟨k', w, hs⟩
      omega
  · exact hr.holds_ne hi k' w

theorem hdeleteR_of_holds (hw : h.Valid) (hi : h.Holds i k u) :
    hdeleteR k h = some (1, { h.setSlot i ⟨-1, none, none⟩ with filled := h.filled - 1 }) := by
  have h0 : i ≠ 0 := Nat.pos_iff_ne_zero.1 hi.1
  simp [hdeleteR, hsearchR, hw.locate_of_holds hi, atEntry, h0]

/-- `hdelete_r` of a live key removes it and changes no other. -/
theorem delete_held (hw : h.WF) (hi : h.Holds i k u) :
    ∃ h', hdeleteR k h = some (1, h') ∧ h'.WF ∧ hfind h' k = none ∧ ∀ k' ≠ k, hfind h' k' = hfind h k' := by
  have hr : Replaced h { h.setSlot i ⟨-1, none, none⟩ with filled := h.filled - 1 } i ⟨-1, none, none⟩ := ⟨rfl, rfl⟩
  have hw' : Htab.WF { h.setSlot i ⟨-1, none, none⟩ with filled := h.filled - 1 } :=
    ⟨hw.removed hi hr, by rw [hr.liveSlots_removed, Finset.card_erase_of_mem hi.mem_liveSlots, ← hw.filled_eq]⟩
  refine ⟨_, hdeleteR_of_holds hw.toValid hi, hw', ?_, fun k' hk' => hw.hfind_congr hw'.toValid ?_⟩
  · apply eq_none_iff_forall_ne_some.2
    intro v hv
    obtain ⟨j, hj⟩ := (hw'.hfind_eq_some_iff k v).1 hv
    by_cases he : j = i
    · subst he
      simpa using congrArg Slot.key ((hr.holds_self hi.1 hi.2.1 k v).1 hj)
    · exact he (hw.unique j i k v u ((hr.holds_ne he k v).1 hj) hi)
  · intro j w
    by_cases he : j = i
    · subst he
      rw [hr.holds_self hi.1 hi.2.1]
      constructor
      · intro hs
        exact absurd (congrArg Slot.key hs) (by simp)
      · rintro ⟨-, -, hs⟩
        rw [hi.2.2] at hs
        exact absurd (by simpa using (congrArg Slot.key hs).symm) hk'
    · exact hr.holds_ne he k' w

theorem delete_absent (hw : h.Valid) (hno : ∀ i w, ¬h.Holds i k w) : hdeleteR k h = some (0, h) := by
  obtain ⟨idx, fd, hl, -⟩ := hw.locate_of_absent hno
  simp [hdeleteR, hsearchR, hl, atEmpty]

/-- The keys found are as many as the live slots. -/
theorem ncard_keys (hw : h.WF) : {k | (hfind h k).isSome}.ncard = h.filled := by
  rw [hw.filled_eq, ← Set.ncard_coe_finset]
  symm
  apply Set.ncard_congr (f := fun i _ => ((h.table i).key.getD ⟨[], by simp⟩))
  · intro i hi
    have hm := Finset.mem_coe.1 hi
    obtain ⟨h1, h2⟩ := Finset.mem_Icc.1 (Finset.mem_filter.1 hm).1
    obtain ⟨k, v, hh⟩ := (hw.used_pos_iff h1 h2).1 (Finset.mem_filter.1 hm).2
    rw [hh.2.2]
    simp [(hw.hfind_eq_some_iff k v).2 ⟨i, hh⟩]
  · intro i j hi hj he
    obtain ⟨h1, h2⟩ := Finset.mem_Icc.1 (Finset.mem_filter.1 (Finset.mem_coe.1 hi)).1
    obtain ⟨k, v, hh⟩ := (hw.used_pos_iff h1 h2).1 (Finset.mem_filter.1 (Finset.mem_coe.1 hi)).2
    obtain ⟨h1', h2'⟩ := Finset.mem_Icc.1 (Finset.mem_filter.1 (Finset.mem_coe.1 hj)).1
    obtain ⟨k', v', hh'⟩ := (hw.used_pos_iff h1' h2').1 (Finset.mem_filter.1 (Finset.mem_coe.1 hj)).2
    rw [hh.2.2, hh'.2.2] at he
    obtain rfl : k = k' := by simpa using he
    exact hw.unique i j k v v' hh hh'
  · intro k hk
    obtain ⟨i, v, hh⟩ := exists_holds_of_isSome hw.toValid hk
    exact ⟨i, Finset.mem_coe.2 hh.mem_liveSlots, by rw [hh.2.2]; rfl⟩

end HashMapAux

end UBoot
