import UBoot.Theorems.HashMap

/-!
# An insertion that fails

A failure that finds the table full changes nothing; one of a `strdup` comes too late.
-/

namespace UBoot

open Lib Htab Option

/-- What a later `FIND` returns: an entry or none, and the value string of the entry. -/
def findResult (h : Htab) (key : CString) : Option (Option (Option CString)) :=
  (hsearchR .ok ⟨key, none⟩ .find h).map fun r => r.retval.map fun idx => (r.htab.table idx).data

/-- The table as it is left by an insertion that did nothing: `FIND` returns what it returned, a live slot has a key and a value, and
`filled` is the same. -/
structure LeftAlone (h h' : Htab) : Prop where
  finds : ∀ key, findResult h' key = findResult h key
  slots : ∀ i, 1 ≤ i → i ≤ h'.size → 0 < (h'.table i).used → (h'.table i).key.isSome ∧ (h'.table i).data.isSome
  filled_eq : h'.filled = h.filled

/-- A call on the table, where the `strdup` calls of an insertion may fail. -/
inductive StrdupOp where
  | enter (mem : Strdup) (item : Entry)
  | find (key : CString)
  | delete (key : CString)

/-- The table after a call. -/
def strdupStep (h : Htab) : StrdupOp → Option Htab
  | .enter mem item => (hsearchR mem item .enter h).map fun r => r.htab
  | .find key => (hsearchR .ok ⟨key, none⟩ .find h).map fun r => r.htab
  | .delete key => (hdeleteR key h).map Prod.snd

/-- No `strdup` that the call comes to fails: that of the value where the key is there and a value is given, and both where the key is
new and the table is not full. -/
def StrdupsServe (h : Htab) : StrdupOp → Prop
  | .enter mem item =>
    if (hfind h item.key).isSome then item.data.isSome → mem.data = true
    else h.filled ≠ h.size → item.data.isSome → mem.key = true ∧ mem.data = true
  | .find _ => True
  | .delete _ => True

instance : (h : Htab) → (op : StrdupOp) → Decidable (StrdupsServe h op)
  | h, .enter mem item => inferInstanceAs (Decidable (if (hfind h item.key).isSome then item.data.isSome → mem.data = true
      else h.filled ≠ h.size → item.data.isSome → mem.key = true ∧ mem.data = true))
  | _, .find _ => .isTrue trivial
  | _, .delete _ => .isTrue trivial

namespace EnterFailureAux

open HashMapAux

variable {h : Htab}
variable {mem : Strdup} {item : Entry} {u : CString}

theorem strdupsServe_found (hf : hfind h item.key = some u) :
    StrdupsServe h (.enter mem item) ↔ (item.data.isSome → mem.data = true) := by
  simp only [StrdupsServe, hf, isSome_some, if_true]

theorem strdupsServe_absent (hf : hfind h item.key = none) :
    StrdupsServe h (.enter mem item) ↔ (h.filled ≠ h.size → item.data.isSome → mem.key = true ∧ mem.data = true) := by
  simp only [StrdupsServe, hf, isSome_none, Bool.false_eq_true, if_false]

theorem leftAlone_refl (hw : h.Valid) : LeftAlone h h := by
  refine ⟨fun _ => rfl, ?_, rfl⟩
  intro i h1 h2 hu
  obtain ⟨k, v, -, -, hs⟩ := (hw.used_pos_iff h1 h2).1 hu
  rw [hs]
  exact ⟨rfl, rfl⟩

theorem enter_found (hw : h.Valid) (item : Entry) {i : Nat} (hi : h.Holds i item.key u) :
    hsearchR mem item .enter h = some (h.atEntry mem item .enter i) := by
  rw [hsearchR, hw.locate_of_holds hi]

/-- An `ENTER` of a new key, into the slot where the search for it ends. -/
theorem enter_absent (hw : h.Valid) (item : Entry) (hno : ∀ i v, ¬h.Holds i item.key v) :
    ∃ idx fd, 1 ≤ (if fd ≠ 0 then fd else idx) ∧ (if fd ≠ 0 then fd else idx) ≤ h.size ∧
      ∀ mem, hsearchR mem item .enter h = h.atEmpty mem item .enter idx fd := by
  obtain ⟨idx, fd, hl, ha⟩ := hw.locate_of_absent hno
  have h1 := h.hval_pos item.key
  have h2 := h.hval_lt hw.five_le item.key
  have hidx : 1 ≤ idx ∧ idx ≤ h.size := by
    rcases ha.slot with ⟨-, n, -, rfl, -⟩ | ⟨rfl, -⟩
    · exact hw.path_mem item.key n
    · exact ⟨h1, h2.le⟩
  have hfd : fd = h.hval item.key ∨ fd = 0 := by
    rw [ha.fd_eq]
    split
    · exact Or.inl rfl
    · exact Or.inr rfl
  refine ⟨idx, fd, ?_, ?_, fun mem => by rw [hsearchR, hl]⟩
  · split <;> omega
  · split <;> omega

/-- Where every `strdup` serves, the call is as if none could fail. -/
theorem enter_eq_ok (hw : h.Valid) (hok : StrdupsServe h (.enter mem item)) :
    hsearchR mem item .enter h = hsearchR .ok item .enter h := by
  cases hf : hfind h item.key with
  | some u =>
    obtain ⟨i, hi⟩ := (hw.hfind_eq_some_iff item.key u).1 hf
    rw [strdupsServe_found hf] at hok
    rw [enter_found hw item hi, enter_found hw item hi]
    unfold atEntry
    by_cases hd : item.data.isSome = true
    · simp [hd, hok hd, Strdup.ok]
    · simp [hd]
  | none =>
    rw [strdupsServe_absent hf] at hok
    obtain ⟨idx, fd, -, -, hs⟩ := enter_absent hw item (not_holds_of_hfind_none hw hf)
    rw [hs, hs]
    unfold atEmpty
    by_cases hfull : h.filled = h.size
    · simp [hfull]
    · cases hd : item.data with
      | none => simp [hfull]
      | some v =>
        obtain ⟨hk, hv⟩ := hok hfull (by rw [hd]; rfl)
        simp [hfull, hk, hv, Strdup.ok]

/-- A call in which every `strdup` serves keeps the invariant. -/
theorem strdupStep_valid (hw : h.Valid) (op : StrdupOp) (hok : StrdupsServe h op) {h' : Htab} (hs : strdupStep h op = some h') : h'.Valid := by
  have hash (op : HashOp) (ht : (hashStep ⟨h, fun _ => none⟩ op).map HashSys.htab = some h') : h'.Valid := by
    obtain ⟨s', hs', hv⟩ := hashStep_valid (s := ⟨h, fun _ => none⟩) hw op
    rw [hs'] at ht
    exact some.inj ht ▸ hv
  cases op with
  | enter mem item =>
    rw [strdupStep, enter_eq_ok hw hok] at hs
    obtain ⟨k, data⟩ := item
    cases data with
    | some v => exact hash (.enter k v) (by rw [hashStep, map_map]; exact hs)
    | none =>
      -- without a value nothing is overwritten, and a new entry cannot be made
      cases hf : hfind h k with
      | some u =>
        obtain ⟨i, hi⟩ := (hw.hfind_eq_some_iff k u).1 hf
        rw [enter_found hw ⟨k, none⟩ hi] at hs
        obtain rfl : h = h' := by simpa [atEntry] using hs
        exact hw
      | none =>
        obtain ⟨idx, fd, -, -, he⟩ := enter_absent hw ⟨k, none⟩ (not_holds_of_hfind_none hw hf)
        rw [he] at hs
        by_cases hfull : h.filled = h.size
        · obtain rfl : h = h' := by simpa [atEmpty, hfull] using hs
          exact hw
        · simp [atEmpty, hfull] at hs
  | find k => exact hash (.find k) (by rw [hashStep, map_map]; exact hs)
  | delete k => exact hash (.delete k) (by rw [hashStep, map_map]; exact hs)

theorem valid_of_strdupExec {h₀ : Htab} (hw : h₀.Valid) {ops : List StrdupOp}
    (hrun : Exec (Guarded StrdupsServe (stepOf strdupStep)) h₀ ops h) : h.Valid := by
  have hstep (t : Htab) (op : StrdupOp) (t' : Htab) (ht : t.Valid) (hs : Guarded StrdupsServe (stepOf strdupStep) t op t') :
      t'.Valid := strdupStep_valid ht op hs.1 hs.2
  exact hrun.invariant hstep hw

/-- An insertion in a table in use that returns 0 leaves it alone exactly when no `strdup` fails. -/
theorem enter_leftAlone_iff (hw : h.Valid) (mem : Strdup) (item : Entry) :
    (∀ r, hsearchR mem item .enter h = some r → r.ret = 0 → LeftAlone h r.htab) ↔ StrdupsServe h (.enter mem item) := by
  cases hf : hfind h item.key with
  | some u =>
    obtain ⟨i, hi⟩ := (hw.hfind_eq_some_iff item.key u).1 hf
    rw [strdupsServe_found hf, enter_found hw item hi]
    have hi0 : i ≠ 0 := Nat.pos_iff_ne_zero.1 hi.1
    constructor
    · intro hall hd
      by_contra hmem
      have hused := (hw.used_pos_iff hi.1 hi.2.1).2 ⟨item.key, u, hi⟩
      have hleft := hall _ rfl (by simp [atEntry, hd, hmem])
      have hslot := hleft.slots i hi.1 (by simp [atEntry, hd, hmem, setSlot, hi.2.1]) (by simp [atEntry, hd, hmem, setSlot, hused])
      simp [atEntry, hd, hmem, setSlot] at hslot
    · rintro hmem r hr h0
      obtain rfl := some.inj hr
      by_cases hd : item.data.isSome = true
      · simp [atEntry, hd, hmem hd, hi0] at h0
      · simp [atEntry, hd, hi0] at h0
  | none =>
    obtain ⟨idx, fd, h1, h2, hs⟩ := enter_absent hw item (not_holds_of_hfind_none hw hf)
    rw [strdupsServe_absent hf, hs]
    unfold atEmpty
    by_cases hfull : h.filled = h.size
    · refine iff_of_true ?_ fun hne => absurd hfull hne
      rintro r hr -
      rw [← some.inj ((if_pos hfull).symm.trans hr)]
      exact leftAlone_refl hw
    · cases hd : item.data with
      | none => simp [hfull]
      | some v =>
        simp only [hfull, if_false, isSome_some, ne_eq, not_false_eq_true, forall_const]
        by_cases hmem : mem.key = true ∧ mem.data = true
        · refine iff_of_true ?_ hmem
          rintro r hr h0
          simp only [hmem.1, hmem.2, Bool.not_true, Bool.or_self, Bool.false_eq_true, if_false] at hr
          rw [← some.inj hr] at h0
          simp at h0
        · refine iff_of_false ?_ hmem
          intro hall
          have hfail : (!mem.key || !mem.data) = true := by
            rw [Bool.or_eq_true, Bool.not_eq_true', Bool.not_eq_true']
            cases hk : mem.key
            · exact Or.inl rfl
            · exact Or.inr (Bool.not_eq_true _ ▸ fun hv => hmem ⟨hk, hv⟩)
          have hleft := hall _ (if_pos hfail) rfl
          have hpos := h.hval_pos item.key
          have hslot := hleft.slots _ h1 h2 (by simp [setSlot]; omega)
          refine hmem ⟨?_, ?_⟩
          · by_contra hk
            simp [setSlot, hk] at hslot
          · by_contra hv
            simp [setSlot, hv] at hslot

end EnterFailureAux

open EnterFailureAux

/-- In a table reached by calls in which no `strdup` failed, an insertion that returns 0 leaves the table alone exactly when no
`strdup` it comes to fails. -/
theorem failed_enter_iff (nel : Nat) (h₀ : Htab) (hc : hcreateR true nel none = some h₀) (hp : h₀.size.Prime) (h5 : 5 ≤ h₀.size)
    (ops : List StrdupOp) (h : Htab) (hrun : Exec (Guarded StrdupsServe (stepOf strdupStep)) h₀ ops h) (mem : Strdup) (item : Entry) :
    (∀ r, hsearchR mem item .enter h = some r → r.ret = 0 → LeftAlone h r.htab) ↔ StrdupsServe h (.enter mem item) := by
  have h₀_eq := HashMapAux.eq_of_hcreateR hc
  exact enter_leftAlone_iff (valid_of_strdupExec (h₀_eq ▸ (HashMapAux.wf_fresh hp h5).toValid) hrun) mem item

/-- Five insertions, which fill the table. -/
def fillingRun : List StrdupOp :=
  [0x61, 0x62, 0x63, 0x64, 0x65].map fun c => .enter .ok ⟨oneChar c, some (oneChar 0x31)⟩

/-- The full table. -/
def filledTable : Htab :=
  (fillingRun.foldlM (fun h op => if StrdupsServe h op then strdupStep h op else none) fiveSlots).get (by decide)

/-- A sixth variable is refused and changes nothing, also where there is no memory; there is no memory for a new value of the
first. -/
theorem failed_enter_iff_five : hcreateR true 4 none = some fiveSlots ∧ Nat.Prime 5 ∧
    Exec (Guarded StrdupsServe (stepOf strdupStep)) fiveSlots fillingRun filledTable ∧
    (∀ r, hsearchR ⟨false, false⟩ ⟨oneChar 0x66, some (oneChar 0x32)⟩ .enter filledTable = some r → r.ret = 0 → LeftAlone filledTable r.htab) ∧
    ¬∀ r, hsearchR ⟨true, false⟩ ⟨oneChar 0x61, some (oneChar 0x32)⟩ .enter filledTable = some r → r.ret = 0 → LeftAlone filledTable r.htab := by
  have hp : Nat.Prime 5 := by decide
  have hrun : Exec (Guarded StrdupsServe (stepOf strdupStep)) fiveSlots fillingRun filledTable :=
    Exec.of_guarded_foldlM (some_get _).symm
  have h := failed_enter_iff 4 fiveSlots rfl hp (by decide) fillingRun filledTable hrun
  refine ⟨rfl, hp, hrun, (h _ _).2 (by decide), ?_⟩
  rw [h]
  decide

/-- A new value for a variable, with no memory for it: the variable loses the value it had. -/
theorem failed_enter_false : ∃ h r, Exec (stepOf strdupStep) fiveSlots [.enter .ok ⟨oneChar 0x61, some (oneChar 0x31)⟩] h ∧
    hsearchR ⟨true, false⟩ ⟨oneChar 0x61, some (oneChar 0x32)⟩ .enter h = some r ∧ r.ret = 0 ∧
    findResult h (oneChar 0x61) = some (some (some (oneChar 0x31))) ∧ findResult r.htab (oneChar 0x61) = some (some none) ∧
    ¬LeftAlone h r.htab := by
  refine ⟨_, _, Exec.single rfl, rfl, rfl, by decide, by decide, ?_⟩
  intro hleft
  have h := hleft.finds (oneChar 0x61)
  revert h
  decide

end UBoot
