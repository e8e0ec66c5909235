import UBoot.Lib.Exec
import UBoot.Lemmas.Calls

/-!
# The hash table is a finite map

A run of calls, with beside the table the map they stand for. A new key may only overwrite a live entry where the search comes
back to its start (`EnterOk`).
-/

namespace UBoot

open Lib Htab

/-! ## The condition on an insertion -/

/-- The state in which an `ENTER` of `k` is safe: the key is there, or some slot was never used, or the first slot tried is a
deleted one, or every slot is live (and the call fails). -/
def Htab.EnterOk (h : Htab) (k : CString) : Prop :=
  (hfind h k).isSome ∨ (∃ i, 1 ≤ i ∧ i ≤ h.size ∧ (h.table i).used = 0) ∨ (h.table (h.hval k)).used = -1 ∨
    ∀ i, 1 ≤ i → i ≤ h.size → 0 < (h.table i).used

open HashMapAux

/-! ## Runs -/

/-- A call on the table: `hsearch_r` with `ENTER` and data, `hsearch_r` with `FIND`, or `hdelete_r`. -/
inductive HashOp where
  | enter (k v : CString)
  | find (k : CString)
  | delete (k : CString)

/-- The key a call is about. -/
def HashOp.key : HashOp → CString
  | .enter k _ => k
  | .find k => k
  | .delete k => k

/-- The table, and the map its calls stand for. -/
structure HashSys where
  htab : Htab
  map : CString → Option CString

/-- One call: a successful `ENTER` maps its key to its value, a successful delete unmaps its key. -/
def hashStep (s : HashSys) : HashOp → Option HashSys
  | .enter k v =>
    (hsearchR .ok ⟨k, some v⟩ .enter s.htab).map fun r =>
      ⟨r.htab, if r.ret ≠ 0 then Function.update s.map k (some v) else s.map⟩
  | .find k => (hsearchR .ok ⟨k, none⟩ .find s.htab).map fun r => ⟨r.htab, s.map⟩
  | .delete k =>
    (hdeleteR k s.htab).map fun r => ⟨r.2, if r.1 ≠ 0 then Function.update s.map k none else s.map⟩

/-- The condition on a call: an `ENTER` is safe in the table before it. -/
def HashOk (s : HashSys) : HashOp → Prop
  | .enter k _ => s.htab.EnterOk k
  | .find _ => True
  | .delete _ => True

/-- The table satisfies its invariant and finds what the map says. -/
structure HashSys.Refines (s : HashSys) : Prop where
  wf : s.htab.WF
  agree : ∀ k, hfind s.htab k = s.map k

namespace HashMapAux

/-- One call under the condition: it is defined, keeps the refinement, and changes what is found for its own key only; and
an `ENTER` that fails is one of a new key into a table with every slot live. -/
theorem hashStep_spec {s : HashSys} (hs : s.Refines) (op : HashOp) (hok : HashOk s op) :
    ∃ s', hashStep s op = some s' ∧ s'.Refines ∧ (∀ k' ≠ op.key, hfind s'.htab k' = hfind s.htab k') ∧
      ∀ k v r, op = .enter k v → hsearchR .ok ⟨k, some v⟩ .enter s.htab = some r → r.ret = 0 → s.htab.filled = s.htab.size := by
  have hw := hs.wf
  -- a call that replaces the value found for its key, and nothing else
  have changed (h' : Htab) (k : CString) (o : Option CString) (hw' : h'.WF) (hk : hfind h' k = o)
      (hne : ∀ k' ≠ k, hfind h' k' = hfind s.htab k') : HashSys.Refines ⟨h', Function.update s.map k o⟩ := by
    refine ⟨hw', ?_⟩
    intro k'
    show hfind h' k' = Function.update s.map k o k'
    by_cases he : k' = k
    · subst he
      rw [hk, Function.update_self]
    · rw [hne k' he, Function.update_of_ne he, hs.agree]
  cases op with
  | find k =>
    obtain ⟨r, hr, he⟩ := find_spec hw.toValid k
    exact ⟨⟨r.htab, s.map⟩, by simp [hashStep, hr], ⟨he ▸ hw, fun k' => he ▸ hs.agree k'⟩, fun k' _ => by rw [he], fun _ _ _ h => by cases h⟩
  | delete k =>
    cases hf : hfind s.htab k with
    | none =>
      have hd := delete_absent hw.toValid (not_holds_of_hfind_none hw.toValid hf)
      exact ⟨s, by simp [hashStep, hd], hs, fun k' _ => rfl, fun _ _ _ h => by cases h⟩
    | some u =>
      obtain ⟨i, hi⟩ := (hw.hfind_eq_some_iff k u).1 hf
      obtain ⟨h', hd, hw', hk, hne⟩ := delete_held hw hi
      exact ⟨⟨h', Function.update s.map k none⟩, by simp [hashStep, hd], changed h' k none hw' hk hne, hne, fun _ _ _ h => by cases h⟩
  | enter k v =>
    cases hf : hfind s.htab k with
    | some u =>
      obtain ⟨i, hi⟩ := (hw.hfind_eq_some_iff k u).1 hf
      obtain ⟨r, hr, hret, hw', hk, hne⟩ := enter_held hw hi v
      refine ⟨⟨r.htab, Function.update s.map k (some v)⟩, by simp [hashStep, hr, hret], changed r.htab k _ hw' hk hne, hne, ?_⟩
      rintro k' v' r' h hr' h0
      cases h
      obtain rfl : r = r' := Option.some.inj (hr.symm.trans hr')
      exact absurd h0 hret
    | none =>
      have hno := not_holds_of_hfind_none hw.toValid hf
      by_cases hfull : s.htab.filled = s.htab.size
      · exact ⟨s, by simp [hashStep, enter_full hw.toValid hno hfull v], hs, fun _ _ => rfl, fun _ _ _ _ _ _ => hfull⟩
      · have hok' : (∃ i, 1 ≤ i ∧ i ≤ s.htab.size ∧ (s.htab.table i).used = 0) ∨ (s.htab.table (s.htab.hval k)).used = -1 := by
          rcases hok with hok | hok | hok | hok
          · rw [hf] at hok
            cases hok
          · exact Or.inl hok
          · exact Or.inr hok
          · exact absurd ((filled_eq_size_iff hw).2 hok) hfull
        obtain ⟨r, j, hr, hret, -, -, hw', hk, hne⟩ := enter_new hw hno hfull hok' v
        refine ⟨⟨r.htab, Function.update s.map k (some v)⟩, by simp [hashStep, hr, hret], changed r.htab k _ hw' hk hne, hne, ?_⟩
        rintro k' v' r' h hr' h0
        cases h
        obtain rfl : r = r' := Option.some.inj (hr.symm.trans hr')
        exact absurd h0 hret

theorem refines_of_exec {s s' : HashSys} {ops : List HashOp}
    (h : Exec (Guarded HashOk (stepOf hashStep)) s ops s') (hs : s.Refines) : s'.Refines := by
  refine h.invariant ?_ hs
  intro t op t' ht hstep
  obtain ⟨u, hu, hr, -⟩ := hashStep_spec ht op hstep.1
  obtain rfl : u = t' := Option.some.inj (hu.symm.trans hstep.2)
  exact hr

end HashMapAux

/-- The table refines the map of its successful calls over every run of calls that are safe in the sense of `EnterOk`: what
`FIND` returns is what the map says, `filled` counts the slots in use, and a further safe call is defined, changes
what is found for its own key only, and fails to enter a new key only when there are as many live keys as slots. -/
theorem hashtable_refines_map (nel : Nat) (h₀ : Htab) (hc : hcreateR true nel none = some h₀) (hp : h₀.size.Prime)
    (h5 : 5 ≤ h₀.size) (ops : List HashOp) (s : HashSys)
    (hrun : Exec (Guarded HashOk (stepOf hashStep)) ⟨h₀, fun _ => none⟩ ops s) :
    (∀ k, (hsearchR .ok ⟨k, none⟩ .find s.htab).isSome ∧ hfind s.htab k = s.map k) ∧ s.htab.filled = s.htab.liveSlots.card ∧
      (∀ op, HashOk s op → ∃ s', hashStep s op = some s' ∧ ∀ k ≠ op.key, hfind s'.htab k = hfind s.htab k) ∧
      ∀ k v r, s.htab.EnterOk k → s.map k = none → hsearchR .ok ⟨k, some v⟩ .enter s.htab = some r → r.ret = 0 →
        {k | (hfind s.htab k).isSome}.ncard = s.htab.size := by
  have h₀_eq := eq_of_hcreateR hc
  have hs₀ : HashSys.Refines ⟨h₀, fun _ => none⟩ := by
    refine ⟨h₀_eq ▸ wf_fresh hp h5, ?_⟩
    intro k
    show hfind h₀ k = none
    rw [h₀_eq]
    exact hfind_fresh hp h5 k
  have hs := refines_of_exec hrun hs₀
  refine ⟨fun k => ⟨?_, hs.agree k⟩, hs.wf.filled_eq, ?_, ?_⟩
  · obtain ⟨r, hr, -⟩ := find_spec hs.wf.toValid k
    rw [hr]
    rfl
  · intro op hok
    obtain ⟨s', hstep, -, hne, -⟩ := hashStep_spec hs op hok
    exact ⟨s', hstep, hne⟩
  · intro k v r hok _ hr h0
    obtain ⟨s', -, -, -, hfail⟩ := hashStep_spec hs (.enter k v) hok
    rw [ncard_keys hs.wf]
    exact hfail k v r rfl hr h0

namespace HashMapAux

/-- One call, safe or not, is defined and keeps `Valid`. -/
theorem hashStep_valid {s : HashSys} (hw : s.htab.Valid) (op : HashOp) : ∃ s', hashStep s op = some s' ∧ s'.htab.Valid := by
  cases op with
  | find k =>
    obtain ⟨r, hr, he⟩ := find_spec hw k
    exact ⟨⟨r.htab, s.map⟩, by simp [hashStep, hr], he ▸ hw⟩
  | delete k =>
    cases hf : hfind s.htab k with
    | none => exact ⟨s, by simp [hashStep, delete_absent hw (not_holds_of_hfind_none hw hf)], hw⟩
    | some u =>
      obtain ⟨i, hi⟩ := (hw.hfind_eq_some_iff k u).1 hf
      refine ⟨_, by simp [hashStep, hdeleteR_of_holds hw hi]; rfl, ?_⟩
      exact hw.removed hi ⟨rfl, rfl⟩
  | enter k v =>
    cases hf : hfind s.htab k with
    | some u =>
      obtain ⟨i, hi⟩ := (hw.hfind_eq_some_iff k u).1 hf
      refine ⟨_, by simp [hashStep, hsearchR, hw.locate_of_holds hi]; rfl, ?_⟩
      exact hw.overwritten hi (w := v) ⟨rfl, by simp [atEntry, setSlot, Strdup.ok, hi.2.2]⟩
    | none =>
      have hno := not_holds_of_hfind_none hw hf
      by_cases hfull : s.htab.filled = s.htab.size
      · exact ⟨s, by simp [hashStep, enter_full hw hno hfull v], hw⟩
      · obtain ⟨r, j, hr, -, -, -, -, -, -, hv, -⟩ := enter_stores hw hno hfull v
        exact ⟨_, by simp [hashStep, hr]; rfl, hv⟩

end HashMapAux

theorem valid_of_exec {s s' : HashSys} {ops : List HashOp} (h : Exec (stepOf hashStep) s ops s') (hw : s.htab.Valid) : s'.htab.Valid := by
  have hstep (t : HashSys) (op : HashOp) (t' : HashSys) (ht : t.htab.Valid) (hs : stepOf hashStep t op t') : t'.htab.Valid := by
    obtain ⟨u, hu, hv⟩ := hashStep_valid ht op
    obtain rfl : u = t' := Option.some.inj (hu.symm.trans hs)
    exact hv
  exact h.invariant hstep hw

/-- The table `hcreate_r` makes for four entries. -/
def fiveSlots : Htab := ⟨fun _ => Slot.zero, 5, 0⟩

/-- A variable with a name and a value of one character. -/
def oneChar (c : UInt8) : CString := CString.ofBytes [c]

/-- Two variables whose first slot is the same, then the first one is deleted and a third one entered over its slot. -/
def collidingRun : List HashOp :=
  [.enter (oneChar 0x61) (oneChar 0x31), .enter (oneChar 0x66) (oneChar 0x32), .delete (oneChar 0x61), .enter (oneChar 0x6b) (oneChar 0x33)]

/-- A call on a table whose last slot was never used. -/
abbrev LastUnused (s : HashSys) (_ : HashOp) : Prop := s.htab.size = 5 ∧ (s.htab.table 5).used = 0

/-- The state after `collidingRun`. -/
def collidedState : HashSys :=
  (collidingRun.foldlM (fun s op => if LastUnused s op then hashStep s op else none) ⟨fiveSlots, fun _ => none⟩).get (by decide)

theorem hashtable_refines_map_collided : fiveSlots.hval (oneChar 0x61) = fiveSlots.hval (oneChar 0x66) ∧
    Exec (Guarded HashOk (stepOf hashStep)) ⟨fiveSlots, fun _ => none⟩ collidingRun collidedState ∧
    hfind collidedState.htab (oneChar 0x61) = none ∧ hfind collidedState.htab (oneChar 0x66) = some (oneChar 0x32) ∧
    hfind collidedState.htab (oneChar 0x6b) = some (oneChar 0x33) ∧ collidedState.htab.filled = collidedState.htab.liveSlots.card := by
  have hrun : Exec (Guarded HashOk (stepOf hashStep)) ⟨fiveSlots, fun _ => none⟩ collidingRun collidedState := by
    refine (Exec.of_guarded_foldlM (Option.some_get _).symm).mono ?_
    rintro s op s' ⟨hok, hstep⟩
    refine ⟨?_, hstep⟩
    cases op with
    | enter k v => exact Or.inr (Or.inl ⟨5, by decide, Nat.le_of_eq hok.1.symm, hok.2⟩)
    | find k => trivial
    | delete k => trivial
  obtain ⟨hfind, hfilled, -⟩ := hashtable_refines_map 4 fiveSlots rfl (by decide) (by decide) _ _ hrun
  exact ⟨by decide, hrun, (hfind _).2.trans (by decide), (hfind _).2.trans (by decide), (hfind _).2.trans (by decide), hfilled⟩

/-- Seven calls that make the table lose a variable: five variables fill the five slots, one of them is deleted, and a new
one is entered whose first slot is live. -/
def losingRun : List HashOp :=
  [.enter (oneChar 0x61) (oneChar 0x31), .enter (oneChar 0x62) (oneChar 0x31), .enter (oneChar 0x63) (oneChar 0x31),
    .enter (oneChar 0x64) (oneChar 0x31), .enter (oneChar 0x65) (oneChar 0x31), .delete (oneChar 0x62),
    .enter (oneChar 0x66) (oneChar 0x32)]

/-- The state after `losingRun`. -/
def lostState : HashSys := (losingRun.foldlM hashStep ⟨fiveSlots, fun _ => none⟩).get (by decide)

/-- Without the condition the refinement fails: after `losingRun` the variable `a`, entered and never deleted, is not found,
and `filled` counts more slots than are in use. -/
theorem hashtable_refines_map_false : hcreateR true 4 none = some fiveSlots ∧ Nat.Prime 5 ∧
    Exec (stepOf hashStep) ⟨fiveSlots, fun _ => none⟩ losingRun lostState ∧
    lostState.map (oneChar 0x61) = some (oneChar 0x31) ∧ hfind lostState.htab (oneChar 0x61) = none ∧
    lostState.htab.filled ≠ lostState.htab.liveSlots.card :=
  ⟨rfl, by decide, Exec.of_foldlM (Option.some_get _).symm, by decide, by decide, by decide⟩

end UBoot
