import Mathlib
import UBoot.Lemmas.StoredEnv
import UBoot.Theorems.WriteOnce

/-!
# Importing a selection

`himport_r` takes each name out of the list at its first entry, and deletes at the end what is left in it.
-/

namespace UBoot

open Lib Htab List CString

/-! ## The buffer -/

/-- An entry of the buffer: `name`, `name=` or `name=value`. -/
inductive EnvEntry where
  | name (key : CString)
  | nameEquals (key : CString)
  | value (key value : CString)

/-- The variable an entry is about. -/
def EnvEntry.key : EnvEntry → CString
  | .name key => key
  | .nameEquals key => key
  | .value key _ => key

/-- The value it gives the variable; without one it deletes it. -/
def EnvEntry.value? : EnvEntry → Option CString
  | .name _ => none
  | .nameEquals _ => none
  | .value _ v => some v

/-- The bytes of an entry, with the NUL behind it. -/
def EnvEntry.text : EnvEntry → List UInt8
  | .name key => key.bytes ++ [0]
  | .nameEquals key => key.bytes ++ [chEquals, 0]
  | .value key v => key.bytes ++ chEquals :: (v.bytes ++ [0])

/-- Entries with names that are read as they are, and values that are not empty. -/
structure EnvEntry.Ok (e : EnvEntry) : Prop where
  key : NameOk 0 e.key
  value : ∀ v, e.value? = some v → v.bytes ≠ []

/-- The buffer has these entries. It ends behind the last one, or goes on with a NUL; without an entry it has nothing but NULs. -/
structure BufferOf (L : List EnvEntry) (env : List UInt8) : Prop where
  ok : ∀ e ∈ L, e.Ok
  text : ∃ rest, env = L.flatMap EnvEntry.text ++ rest ∧ (rest = [] ∨ rest.head? = some 0) ∧ (L = [] → rest ≠ [] ∧ ∀ c ∈ rest, c = 0)

/-- The value of the first entry for a variable. -/
def firstValue (L : List EnvEntry) (k : CString) : Option CString := (L.find? fun e => decide (e.key = k)).bind EnvEntry.value?

/-- The variables of the list have the values of their first entries, and the others what they had. -/
def Selected (h h' : Htab) (L : List EnvEntry) (vars : List CString) : Prop :=
  ∀ k, hfind h' k = if k ∈ vars then firstValue L k else hfind h k

/-! ## The condition on the insertions -/

/-- A value without its escapes. -/
def CString.unescaped (s : CString) : CString where
  bytes := StoredEnvAux.unescape s.bytes
  nul_free h := s.nul_free (StoredEnvAux.unescape_subset _ _ h)

/-- What a round of the loop reads at an entry. -/
def EnvEntry.item : EnvEntry → ImportItem
  | .name key => .delete key
  | .nameEquals key => .delete key
  | .value key v => .enter key v.unescaped

/-- The insertion of an entry overwrites a variable that is not still to be processed. -/
def EnvEntry.Loses (e : EnvEntry) (h : Htab) (vars : List (Option CString)) (p : CString) : Prop :=
  e.value?.isSome ∧ some e.key ∈ vars ∧ (hfind h p).isSome ∧ some p ∉ (dropVarFromSet e.key vars).2 ∧ ¬h.EnterSpares p e.key

/-- No insertion of the entries does. -/
def EntriesSpare : List EnvEntry → Htab → List (Option CString) → Prop
  | [], _, _ => True
  | e :: L, h, vars => (∀ p, ¬e.Loses h vars p) ∧
    ∀ ok h' vars', itemStep none 0 false e.item h vars = some (ok, h', vars') → EntriesSpare L h' vars'

namespace SelectiveImportAux

open HashMapAux ImportAux WriteOnceAux

variable {h : Htab}
variable {k : CString} {r : HsearchRet} {h' : Htab} {e : EnvEntry} {L : List EnvEntry} {env : List UInt8}

/-! ## What a call changes -/

theorem hfind_of_hdeleteR (hw : h.Valid) {r : Nat × Htab} (hr : hdeleteR k h = some r) (p : CString) :
    hfind r.2 p = if p = k then none else hfind h p := by
  have hv := delete_valid hw hr
  cases hf : hfind h k with
  | none =>
    rw [delete_absent hw (not_holds_of_hfind_none hw hf)] at hr
    rw [← Option.some.inj hr]
    split <;> rename_i hp
    · rw [hp, hf]
    · rfl
  | some u =>
    obtain ⟨i, hi⟩ := (hw.hfind_eq_some_iff k u).1 hf
    rw [hdeleteR_of_holds hw hi, Option.some.injEq] at hr
    subst hr
    have hrep : Replaced h { h.setSlot i ⟨-1, none, none⟩ with filled := h.filled - 1 } i ⟨-1, none, none⟩ := ⟨rfl, rfl⟩
    have hself (q w : CString) : ¬Htab.Holds { h.setSlot i ⟨-1, none, none⟩ with filled := h.filled - 1 } i q w := by
      rw [hrep.holds_self hi.1 hi.2.1]
      simp
    split <;> rename_i hp
    · subst hp
      apply Option.eq_none_iff_forall_ne_some.2
      intro w hw'
      obtain ⟨j, hj⟩ := (hv.hfind_eq_some_iff p w).1 hw'
      by_cases he : j = i
      · exact hself p w (he ▸ hj)
      · exact he (hw.unique j i p w u ((hrep.holds_ne he p w).1 hj) hi)
    · refine hw.hfind_congr hv fun j w => ?_
      by_cases he : j = i
      · subst he
        exact iff_of_false (hself p w) fun hj => ne_of_holds hj hi (Ne.symm hp) rfl
      · exact hrep.holds_ne he p w

/-- An insertion that succeeds puts an entry into one slot. -/
theorem enter_replaces (hw : h.Valid) {w : CString} (hr : hsearchR .ok ⟨k, some w⟩ .enter h = some r)
    (hok : r.retval.isSome) : ∃ j, 1 ≤ j ∧ j ≤ h.size ∧ Replaced h r.htab j ⟨h.hval k, some k, some w⟩ ∧
      ((∃ u, h.Holds j k u) ∨ hfind h k = none ∧ h.filled ≠ h.size ∧ ((h.table j).used = 0 ∨
        j = h.hval k ∧ ((h.table j).used = -1 ∨ ∀ i, 1 ≤ i → i ≤ h.size → (h.table i).used ≠ 0))) := by
  cases hf : hfind h k with
  | some u =>
    obtain ⟨i, hi⟩ := (hw.hfind_eq_some_iff k u).1 hf
    rw [hsearchR, hw.locate_of_holds hi, Option.some.injEq] at hr
    subst hr
    exact ⟨i, hi.1, hi.2.1, ⟨rfl, by simp [atEntry, setSlot, Strdup.ok, hi.2.2]⟩, Or.inl ⟨u, hi⟩⟩
  | none =>
    have hno := not_holds_of_hfind_none hw hf
    by_cases hfull : h.filled = h.size
    · rw [enter_full hw hno hfull, Option.some.injEq] at hr
      subst hr
      cases hok
    · obtain ⟨r', j, hr', -, -, -, hrep, h1, h2, -, hslot⟩ := enter_stores hw hno hfull w
      obtain rfl : r' = r := Option.some.inj (hr'.symm.trans hr)
      exact ⟨j, h1, h2, hrep, Or.inr ⟨rfl, hfull, hslot⟩⟩

/-- An insertion gives its variable the value, and another variable is lost exactly when it is not spared. -/
theorem hfind_of_enter (hw : h.Valid) {w : CString} (hr : hsearchR .ok ⟨k, some w⟩ .enter h = some r)
    (hok : r.retval.isSome) : hfind r.htab k = some w ∧ ∀ p ≠ k,
      (h.EnterSpares p k → hfind r.htab p = hfind h p) ∧ (¬h.EnterSpares p k → (hfind h p).isSome ∧ hfind r.htab p = none) := by
  have hv := enter_valid hw hr
  obtain ⟨j, h1, h2, hrep, hslot⟩ := enter_replaces hw hr hok
  have hself (p : CString) (hp : p ≠ k) (u : CString) : ¬r.htab.Holds j p u := by
    rw [hrep.holds_self h1 h2]
    intro he
    exact hp (by simpa using (congrArg Slot.key he).symm)
  -- a variable outside the slot is found as before
  have hother (p : CString) (hp : p ≠ k) (hj : ∀ u, ¬h.Holds j p u) : hfind r.htab p = hfind h p := by
    refine hw.hfind_congr hv fun i u => ?_
    by_cases he : i = j
    · subst he
      exact iff_of_false (hself p hp u) (hj u)
    · exact hrep.holds_ne he p u
  refine ⟨(hv.hfind_eq_some_iff k w).2 ⟨j, (hrep.holds_self h1 h2 k w).2 rfl⟩, fun p hp => ⟨fun hs => hother p hp ?_, fun hs => ?_⟩⟩
  · intro u hu
    have hpos := (hw.used_pos_iff h1 h2).2 ⟨p, u, hu⟩
    rcases hslot with ⟨x, hx⟩ | ⟨hnone, hroom, h0 | ⟨he, hdel | hall⟩⟩
    · exact ne_of_holds hu hx (Ne.symm hp) rfl
    · omega
    · omega
    · rcases hs with hs | ⟨i, hi1, hi2, hi0⟩ | hs | hs
      · rw [hnone] at hs
        cases hs
      · exact hall i hi1 hi2 hi0
      · exact hroom hs
      · exact hs u (he ▸ hu)
  · unfold EnterSpares at hs
    push Not at hs
    obtain ⟨hk, hall, hroom, u, hu⟩ := hs
    have hj : j = h.hval k := by
      rcases hslot with ⟨x, hx⟩ | ⟨-, -, h0 | ⟨he, -⟩⟩
      · exact absurd (by rw [(hw.hfind_eq_some_iff k x).2 ⟨j, hx⟩]; rfl) hk
      · exact absurd h0 (hall j h1 h2)
      · exact he
    subst hj
    refine ⟨by rw [(hw.hfind_eq_some_iff p u).2 ⟨_, hu⟩]; rfl, Option.eq_none_iff_forall_ne_some.2 fun x hx => ?_⟩
    obtain ⟨i, hi⟩ := (hv.hfind_eq_some_iff p x).1 hx
    by_cases he : i = h.hval k
    · exact hself p hp x (he ▸ hi)
    · exact he (hw.unique i _ p x u ((hrep.holds_ne he p x).1 hi) hu)

/-! ## The list of variables -/

variable {vars vars' : List (Option CString)}

theorem drop_processed (hV : vars ≠ []) (name : CString) : (dropVarFromSet name vars).1 = true ↔ some name ∈ vars := by
  simp [dropVarFromSet, hV]

theorem mem_drop (name p : CString) : some p ∈ (dropVarFromSet name vars).2 ↔ some p ∈ vars ∧ p ≠ name := by
  by_cases hV : vars = []
  · simp [dropVarFromSet, hV]
  · simp only [dropVarFromSet, hV, if_false, mem_map]
    constructor
    · rintro ⟨o, ho, he⟩
      by_cases hn : o = some name
      · simp [hn] at he
      · rw [if_neg hn] at he
        subst he
        exact ⟨ho, fun hp => hn (congrArg some hp)⟩
    · rintro ⟨hp, hne⟩
      exact ⟨some p, hp, if_neg fun he => hne (Option.some.inj he)⟩

theorem drop_ne_nil (hV : vars ≠ []) (name : CString) : (dropVarFromSet name vars).2 ≠ [] := by
  simp [dropVarFromSet, hV]

/-- What is left in the list is deleted at the end. -/
theorem hfind_of_deleteLeft (hw : h.Valid) (hd : deleteLeft h vars = some h') (p : CString) :
    hfind h' p = if some p ∈ vars then none else hfind h p := by
  induction vars generalizing h with
  | nil =>
    obtain rfl : h = h' := by simpa [deleteLeft] using hd
    simp
  | cons o vars ih =>
    cases o with
    | none => simpa using ih hw hd
    | some name =>
      rw [deleteLeft] at hd
      cases hr : hdeleteR name h with
      | none => simp [hr] at hd
      | some r =>
        simp only [hr] at hd
        rw [ih (delete_valid hw hr) hd, hfind_of_hdeleteR hw hr]
        by_cases hp : p = name <;> simp [hp]

/-! ## One entry -/

/-- The value that a variable is to have at the end, in the middle of an import: while it is still to be processed, that of its first
entry. -/
noncomputable def expected (L : List EnvEntry) (h : Htab) (vars : List (Option CString)) (p : CString) : Option CString :=
  @ite _ (some p ∈ vars) (Classical.propDecidable _) ((firstValue L p).map unescaped) (hfind h p)

theorem firstValue_self (e : EnvEntry) (L : List EnvEntry) : firstValue (e :: L) e.key = e.value? := by
  simp [firstValue]

theorem firstValue_ne {p : CString} (L : List EnvEntry) (hp : p ≠ e.key) : firstValue (e :: L) p = firstValue L p := by
  simp [firstValue, Ne.symm hp]

/-- Without `do_apply` the callback is not asked. -/
theorem itemStep_unasked (apply : Option ApplyFn) (flag : Nat) (item : ImportItem) (h : Htab) (vars : List (Option CString)) :
    itemStep apply flag false item h vars = itemStep none 0 false item h vars := by
  cases item with
  | comment => rfl
  | delete name => rfl
  | enter name value => cases apply <;> rfl

theorem itemStep_entry (hV : vars ≠ []) (hs : itemStep none 0 false e.item h vars = some (true, h', vars')) :
    vars' = (dropVarFromSet e.key vars).2 ∧ (some e.key ∉ vars ∧ h' = h ∨
      some e.key ∈ vars ∧ e.value? = none ∧ (∃ r, hdeleteR e.key h = some r ∧ h' = r.2) ∨
      some e.key ∈ vars ∧ ∃ v r, e.value? = some v ∧ hsearchR .ok ⟨e.key, some v.unescaped⟩ .enter h = some r ∧
        r.retval.isSome ∧ h' = r.htab) := by
  have deletes {k : CString} (hd : itemStep none 0 false (.delete k) h vars = some (true, h', vars')) :
      vars' = (dropVarFromSet k vars).2 ∧ (some k ∉ vars ∧ h' = h ∨ some k ∈ vars ∧ ∃ r, hdeleteR k h = some r ∧ h' = r.2) := by
    rw [itemStep] at hd
    split at hd <;> rename_i hk <;> rw [drop_processed hV] at hk
    · obtain ⟨r, hr, he⟩ := Option.map_eq_some_iff.1 hd
      simp only [Prod.mk.injEq] at he
      exact ⟨he.2.2.symm, Or.inr ⟨hk, r, hr, he.2.1.symm⟩⟩
    · simp only [Option.some.injEq, Prod.mk.injEq] at hd
      exact ⟨hd.2.2.symm, Or.inl ⟨hk, hd.2.1.symm⟩⟩
  cases e with
  | name k =>
    obtain ⟨hv, hcase⟩ := deletes hs
    exact ⟨hv, hcase.imp_right fun hd => Or.inl ⟨hd.1, rfl, hd.2⟩⟩
  | nameEquals k =>
    obtain ⟨hv, hcase⟩ := deletes hs
    exact ⟨hv, hcase.imp_right fun hd => Or.inl ⟨hd.1, rfl, hd.2⟩⟩
  | value k v =>
    rw [EnvEntry.item, itemStep] at hs
    split at hs <;> rename_i hk <;> rw [drop_processed hV] at hk
    · obtain ⟨r, hr, he⟩ := Option.map_eq_some_iff.1 hs
      simp only [Prod.mk.injEq] at he
      exact ⟨he.2.2.symm, Or.inr (Or.inr ⟨hk, v, r, rfl, hr, he.1, he.2.1.symm⟩)⟩
    · simp only [Option.some.injEq, Prod.mk.injEq] at hs
      exact ⟨hs.2.2.symm, Or.inl ⟨hk, hs.2.1.symm⟩⟩

theorem not_loses_self : ¬e.Loses h vars e.key := fun hl => hl.2.2.2.2 (Or.inl hl.2.2.1)

/-- A round keeps what is expected of each variable that is not lost, and of one that is lost the expectation is not met. -/
theorem step_expected (hw : h.Valid) (hV : vars ≠ []) (L : List EnvEntry)
    (hs : itemStep none 0 false e.item h vars = some (true, h', vars')) (p : CString) :
    (¬e.Loses h vars p → expected L h' vars' p = expected (e :: L) h vars p) ∧
      (e.Loses h vars p → some p ∉ vars' ∧ hfind h' p = none ∧ (expected (e :: L) h vars p).isSome) := by
  obtain ⟨rfl, hcase⟩ := itemStep_entry hV hs
  unfold expected
  by_cases hp : p = e.key
  · subst hp
    refine ⟨fun _ => ?_, fun hl => absurd hl not_loses_self⟩
    rw [if_neg fun hm => ((mem_drop _ _).1 hm).2 rfl, firstValue_self]
    rcases hcase with ⟨hk, rfl⟩ | ⟨hk, hval, r, hr, rfl⟩ | ⟨hk, v, r, hval, hr, hok, rfl⟩
    · rw [if_neg hk]
    · rw [if_pos hk, hval, hfind_of_hdeleteR hw hr, if_pos rfl]
      rfl
    · rw [if_pos hk, hval, (hfind_of_enter hw hr hok).1]
      rfl
  · rw [firstValue_ne L hp]
    by_cases hpV : some p ∈ vars
    · have hpV' := (mem_drop e.key p).2 ⟨hpV, hp⟩
      rw [if_pos hpV, if_pos hpV']
      exact ⟨fun _ => rfl, fun hl => absurd hpV' hl.2.2.2.1⟩
    · have hpV' : some p ∉ (dropVarFromSet e.key vars).2 := fun hm => hpV ((mem_drop _ _).1 hm).1
      rw [if_neg hpV, if_neg hpV']
      rcases hcase with ⟨hk, rfl⟩ | ⟨-, hval, r, hr, rfl⟩ | ⟨hk, v, r, hval, hr, hok, rfl⟩
      · exact ⟨fun _ => rfl, fun hl => absurd hl.2.1 hk⟩
      · refine ⟨fun _ => by rw [hfind_of_hdeleteR hw hr, if_neg hp], fun hl => ?_⟩
        rw [EnvEntry.Loses, hval] at hl
        cases hl.1
      · obtain ⟨hspare, hlost⟩ := (hfind_of_enter hw hr hok).2 p hp
        refine ⟨fun hl => ?_, fun hl => ⟨hpV', (hlost hl.2.2.2.2).2, hl.2.2.1⟩⟩
        by_cases hsp : h.EnterSpares p e.key
        · exact hspare hsp
        · exact absurd ⟨by rw [hval]; rfl, hk, (hlost hsp).1, hpV', hsp⟩ hl

/-! ## The entries -/

/-- The rounds of the loop over entries. -/
def entriesRun : List EnvEntry → Htab → List (Option CString) → Option (Bool × Htab × List (Option CString))
  | [], h, vars => some (true, h, vars)
  | e :: L, h, vars =>
    (itemStep none 0 false e.item h vars).bind fun t => if t.1 then entriesRun L t.2.1 t.2.2 else some (false, t.2.1, vars)

/-- After the import a variable has the value that is expected of it, or none; and all have it exactly when none is lost. -/
theorem run_expected (hw : h.Valid) (hV : vars ≠ []) {h'' : Htab}
    (hrun : entriesRun L h vars = some (true, h', vars')) (hd : deleteLeft h' vars' = some h'') :
    (∀ p, hfind h'' p = expected L h vars p ∨ hfind h'' p = none) ∧ ((∀ p, hfind h'' p = expected L h vars p) ↔ EntriesSpare L h vars) := by
  induction L generalizing h vars with
  | nil =>
    obtain ⟨-, rfl, rfl⟩ : true = true ∧ h = h' ∧ vars = vars' := by simpa [entriesRun] using hrun
    have heq (p : CString) : hfind h'' p = expected [] h vars p := by
      rw [hfind_of_deleteLeft hw hd p, expected]
      congr
    exact ⟨fun p => Or.inl (heq p), iff_of_true heq trivial⟩
  | cons e L ih =>
    rw [entriesRun] at hrun
    obtain ⟨⟨ok, h₁, vars₁⟩, hs, hrun⟩ := Option.bind_eq_some_iff.1 hrun
    cases ok with
    | false => simp at hrun
    | true =>
      have hV₁ : vars₁ ≠ [] := (itemStep_entry hV hs).1 ▸ drop_ne_nil hV e.key
      obtain ⟨hweak, hiff⟩ := ih (itemStep_valid hw hs) hV₁ hrun
      have hstep := step_expected hw hV L hs
      -- a variable that is lost stays lost
      have hlost {p : CString} (hl : e.Loses h vars p) : hfind h'' p = none ∧ (expected (e :: L) h vars p).isSome := by
        obtain ⟨hp, hnone, hsome⟩ := (hstep p).2 hl
        refine ⟨?_, hsome⟩
        rcases hweak p with hq | hq
        · rw [hq, expected, if_neg hp, hnone]
        · exact hq
      constructor
      · intro p
        by_cases hl : e.Loses h vars p
        · exact Or.inr (hlost hl).1
        · rw [← (hstep p).1 hl]
          exact hweak p
      · constructor
        · intro hall
          have hno (p : CString) : ¬e.Loses h vars p := by
            intro hl
            obtain ⟨hnone, hsome⟩ := hlost hl
            rw [← hall p, hnone] at hsome
            cases hsome
          refine ⟨hno, fun ok h₂ vars₂ hs₂ => ?_⟩
          obtain ⟨-, rfl, rfl⟩ : true = ok ∧ h₁ = h₂ ∧ vars₁ = vars₂ := by simpa using hs.symm.trans hs₂
          exact hiff.1 fun p => by rw [hall p, (hstep p).1 (hno p)]
        · rintro ⟨hno, hrest⟩ p
          rw [← (hstep p).1 (hno p)]
          exact hiff.2 (hrest true h₁ vars₁ hs) p

/-! ## The buffer -/

/-- An entry is read as its item, where its name has no equals sign and it starts neither with a blank nor as a comment. -/
theorem parseItem_text (hkey : chEquals ∉ e.key.bytes) (hval : ∀ v, e.value? = some v → v.bytes ≠ [])
    (hhead : ∀ c, e.text.head? = some c → isblank c = false ∧ c ≠ chHash) (rest : List UInt8) :
    parseItem 0 (e.text ++ rest) = some (e.item, rest) := by
  have hk : ∀ c ∈ e.key.bytes, c ≠ chEquals ∧ c ≠ 0 ∧ c ≠ 0 := fun c hc =>
    ⟨fun he => hkey (he ▸ hc), fun he => e.key.nul_free (he ▸ hc), fun he => e.key.nul_free (he ▸ hc)⟩
  -- the text is a name and a byte that ends it
  obtain ⟨c, cs, hc, htext⟩ : ∃ c cs, (c = chEquals ∨ c = 0 ∨ c = 0) ∧ e.text = e.key.bytes ++ c :: cs := by
    cases e with
    | name k => exact ⟨0, [], Or.inr (Or.inl rfl), rfl⟩
    | nameEquals k => exact ⟨chEquals, [0], Or.inl rfl, rfl⟩
    | value k v => exact ⟨chEquals, v.bytes ++ [0], Or.inl rfl, rfl⟩
  obtain ⟨d, ds, hd⟩ : ∃ d ds, e.text = d :: ds := exists_cons_of_ne_nil (by rw [htext]; simp)
  obtain ⟨hblank, hhash⟩ := hhead d (by rw [hd]; rfl)
  have hhash' : (e.key.bytes ++ [c]).head? ≠ some chHash := by
    have heq : (e.key.bytes ++ [c]).head? = e.text.head? := by simp [htext, head?_append]
    rw [heq, hd]
    simpa using hhash
  have hskip : skipBlanks (e.text ++ rest) = some (e.text ++ rest) := by
    rw [hd]
    exact skipBlanks_of_head _ hblank
  rw [parseItem_eq, hskip, Option.bind_some, htext, append_assoc, cons_append, readEntry_named hk _ hc hhash']
  cases e with
  | name k =>
    obtain ⟨rfl, rfl⟩ := List.cons.inj (append_cancel_left htext)
    rw [readNamed_nul]
    simp only [EnvEntry.key, ofBytes_bytes]
    rfl
  | nameEquals k =>
    obtain ⟨rfl, rfl⟩ := List.cons.inj (append_cancel_left htext)
    rw [singleton_append, readNamed_equals _ _ (Or.inr (Or.inl rfl))]
    simp only [EnvEntry.key, ofBytes_bytes]
    rfl
  | value k v =>
    obtain ⟨rfl, rfl⟩ := List.cons.inj (append_cancel_left htext)
    obtain ⟨x, xs, hx⟩ := exists_cons_of_ne_nil (hval v rfl)
    have hx0 : ¬(x = 0 ∨ x = 0) := by
      rw [or_self]
      rintro rfl
      exact v.nul_free (by rw [hx]; exact mem_cons_self)
    have hread : readNamed 0 k.bytes (chEquals :: x :: (xs ++ 0 :: rest)) = _ := readNamed_value k.bytes _ (by decide) hx0
    have hvalue := StoredEnvAux.parseValue_text v.nul_free rest
    rw [hx, cons_append] at hvalue
    rw [append_assoc, singleton_append, hx, cons_append, EnvEntry.key, hread, hvalue]
    simp only [Option.map_some, ofBytes_bytes, ← hx]
    have hof : ofBytes (StoredEnvAux.unescape v.bytes) = v.unescaped := ofBytes_bytes v.unescaped
    rw [hof]
    rfl

theorem head_text (he : e.Ok) : ∀ c, e.text.head? = some c → (isblank c = false ∧ c ≠ chHash) ∧ c ≠ 0 := by
  obtain ⟨d, ds, hd⟩ := exists_cons_of_ne_nil he.key.ne_nil
  have htext : e.text.head? = some d := by
    cases e <;> simp_all [EnvEntry.text, EnvEntry.key]
  intro c hc
  obtain rfl : d = c := Option.some.inj (htext.symm.trans hc)
  refine ⟨he.key.head d (by rw [hd]; rfl), ?_⟩
  rintro rfl
  exact e.key.nul_free (by rw [hd]; exact mem_cons_self)

theorem text_ne_nil (e : EnvEntry) : e.text ≠ [] := by
  cases e <;> simp [EnvEntry.text]

theorem importLoop_entries (apply : Option ApplyFn) (flag : Nat) (he : e.Ok)
    (hL : ∀ e ∈ L, e.Ok) {rest : List UInt8} (hrest : rest = [] ∨ rest.head? = some 0) {fuel : Nat} (hfuel : L.length < fuel) :
    importLoop apply 0 flag false fuel ((e :: L).flatMap EnvEntry.text ++ rest) h vars = entriesRun (e :: L) h vars := by
  induction L generalizing e fuel h vars with
  | nil =>
    obtain ⟨fuel, rfl⟩ : ∃ n, fuel = n + 1 := ⟨fuel - 1, by simp at hfuel; omega⟩
    have hread := parseItem_text he.key.no_equals he.value (fun c hc => (head_text he c hc).1) rest
    rw [flatMap_singleton, importLoop_succ, hread, Option.bind_some, itemStep_unasked]
    dsimp only [entriesRun]
    simp only [if_pos hrest]
  | cons e' L ih =>
    obtain ⟨fuel, rfl⟩ : ∃ n, fuel = n + 1 := ⟨fuel - 1, by omega⟩
    obtain ⟨he', hL'⟩ := forall_mem_cons.1 hL
    have hgoes : ¬((e' :: L).flatMap EnvEntry.text ++ rest = [] ∨ ((e' :: L).flatMap EnvEntry.text ++ rest).head? = some 0) := by
      obtain ⟨d, ds, hd⟩ := exists_cons_of_ne_nil (text_ne_nil e')
      rw [flatMap_cons, hd]
      have h0 := (head_text he' d (by rw [hd]; rfl)).2
      simp [h0]
    have hread := parseItem_text he.key.no_equals he.value (fun c hc => (head_text he c hc).1) ((e' :: L).flatMap EnvEntry.text ++ rest)
    rw [flatMap_cons, append_assoc, importLoop_succ, hread, Option.bind_some, itemStep_unasked, entriesRun]
    simp only [if_neg hgoes]
    congr 1
    funext t
    rw [ih he' hL' (by simpa using hfuel)]

theorem length_le_flatMap_text (L : List EnvEntry) : L.length ≤ (L.flatMap EnvEntry.text).length := by
  induction L with
  | nil => exact Nat.le_refl _
  | cons e L ih =>
    have := length_pos_iff.2 (text_ne_nil e)
    rw [flatMap_cons, length_append, length_cons]
    omega

/-- A buffer without entries is read as one that deletes the variable with the empty name. -/
theorem importLoop_noEntry (apply : Option ApplyFn) (flag : Nat) (hne : env ≠ []) (hz : ∀ c ∈ env, c = 0) (fuel : Nat) :
    importLoop apply 0 flag false (fuel + 1) env h vars = entriesRun [.name (ofBytes [])] h vars := by
  obtain ⟨c, cs, rfl⟩ := exists_cons_of_ne_nil hne
  obtain ⟨rfl, hz'⟩ := forall_mem_cons.1 hz
  have hend : cs = [] ∨ cs.head? = some 0 := by
    cases cs with
    | nil => exact Or.inl rfl
    | cons d cs => exact Or.inr (by rw [(forall_mem_cons.1 hz').1]; rfl)
  have hhead (c : UInt8) (hc : (EnvEntry.name (ofBytes [])).text.head? = some c) : isblank c = false ∧ c ≠ chHash := by
    obtain rfl : 0 = c := Option.some.inj hc
    decide
  have hread := parseItem_text (e := .name (ofBytes [])) (by decide) (fun v hv => by cases hv) hhead cs
  have htext : (0 : UInt8) :: cs = (EnvEntry.name (ofBytes [])).text ++ cs := rfl
  rw [htext, importLoop_succ, hread, Option.bind_some, itemStep_unasked]
  dsimp only [entriesRun]
  simp only [if_pos hend]

/-- The loop over any buffer is a run over entries, in which the same values are first and the same variables are lost. -/
theorem importLoop_buffer (apply : Option ApplyFn) (flag : Nat) (hb : BufferOf L env) :
    ∃ L', (∀ k, firstValue L' k = firstValue L k) ∧ (∀ h vars, EntriesSpare L' h vars ↔ EntriesSpare L h vars) ∧
      ∀ h vars, importLoop apply 0 flag false (env.length + 1) env h vars = entriesRun L' h vars := by
  obtain ⟨rest, henv, hrest, hnil⟩ := hb.text
  cases L with
  | nil =>
    obtain ⟨hne, hz⟩ := hnil rfl
    obtain rfl : env = rest := henv
    refine ⟨[.name (ofBytes [])], fun k => ?_, fun h vars => ?_, fun h vars => importLoop_noEntry apply flag hne hz _⟩
    · by_cases hk : ofBytes [] = k <;> simp [firstValue, EnvEntry.key, EnvEntry.value?, hk]
    · simp [EntriesSpare, EnvEntry.Loses, EnvEntry.value?]
  | cons e L =>
    obtain ⟨he, hL⟩ := forall_mem_cons.1 hb.ok
    refine ⟨e :: L, fun _ => rfl, fun _ _ => Iff.rfl, fun h vars => ?_⟩
    have hlen : L.length < env.length + 1 := by
      have := length_le_flatMap_text (e :: L)
      rw [length_cons] at this
      rw [henv, length_append]
      omega
    rw [← importLoop_entries apply flag he hL hrest hlen, ← henv]

theorem unescaped_eq_self_iff (v : CString) : v.unescaped = v ↔ chBackslash ∉ v.bytes.dropLast := by
  rw [← StoredEnvAux.unescape_eq_self_iff]
  cases v
  simp [unescaped]

/-- An import that returns 1 has run over the entries and deleted what was left. -/
theorem himportR_noclear {mallocOk callocOk : Bool} {apply : Option ApplyFn} {flag : Nat} {vars : List CString} (hflag : noclear flag = true)
    (hi : himportR mallocOk callocOk apply (some h) env 0 flag vars false = some (1, some h')) :
    ∃ h₁ vars₁, importLoop apply 0 flag false (env.length + 1) env h (vars.map some) = some (true, h₁, vars₁) ∧
      deleteLeft h₁ vars₁ = some h' := by
  cases mallocOk with
  | false => simp [himportR] at hi
  | true =>
    have htable : importTable callocOk flag env.length (some h) = some h := by rw [importTable, if_pos hflag]
    simp only [himportR, Bool.not_true, Bool.false_eq_true, if_false, htable] at hi
    cases hl : importLoop apply 0 flag false (env.length + 1) env h (vars.map some) with
    | none => simp [hl] at hi
    | some r =>
      obtain ⟨ok, h₁, vars₁⟩ := r
      cases ok with
      | false => simp [hl] at hi
      | true =>
        simp only [hl] at hi
        obtain ⟨h₂, hd, he⟩ := Option.map_eq_some_iff.1 hi
        simp only [Prod.mk.injEq, Option.some.injEq, true_and] at he
        exact ⟨h₁, vars₁, rfl, he ▸ hd⟩

end SelectiveImportAux

open SelectiveImportAux

/-- A selective import that returns 1 does what it was asked exactly when none of its insertions overwrites a variable that is not still
to be processed, and no value of a first entry that was asked for has a backslash before its last character. -/
theorem selective_import_iff (mallocOk callocOk : Bool) (apply : Option ApplyFn) (h h' : Htab) (hw : h.Valid) (L : List EnvEntry)
    (env : List UInt8) (hb : BufferOf L env) (flag : Nat) (hflag : noclear flag = true) (vars : List CString) (hvars : vars ≠ [])
    (hi : himportR mallocOk callocOk apply (some h) env 0 flag vars false = some (1, some h')) :
    Selected h h' L vars ↔ EntriesSpare L h (vars.map some) ∧ ∀ k ∈ vars, ∀ v, firstValue L k = some v → chBackslash ∉ v.bytes.dropLast := by
  obtain ⟨h₁, vars₁, hloop, hd⟩ := himportR_noclear hflag hi
  obtain ⟨L', hfirst, hspare, hrun⟩ := importLoop_buffer apply flag hb
  rw [hrun] at hloop
  obtain ⟨hweak, hiff⟩ := run_expected hw (by simpa using hvars) hloop hd
  rw [hspare] at hiff
  have hexp (k : CString) : expected L' h (vars.map some) k =
      if k ∈ vars then (firstValue L k).map unescaped else hfind h k := by
    simp only [expected, hfirst, mem_map, Option.some.injEq, exists_eq_right]
  simp only [hexp] at hweak hiff
  constructor
  · intro hsel
    have hplain (k : CString) (hk : k ∈ vars) (v : CString) (hv : firstValue L k = some v) : v.unescaped = v := by
      have hfind := hsel k
      rw [if_pos hk, hv] at hfind
      rcases hweak k with hq | hq
      · rw [if_pos hk, hv, hfind] at hq
        exact (Option.some.inj hq).symm
      · rw [hq] at hfind
        cases hfind
    refine ⟨hiff.1 fun k => ?_, fun k hk v hv => (unescaped_eq_self_iff v).1 (hplain k hk v hv)⟩
    rw [hsel k]
    by_cases hk : k ∈ vars
    · rw [if_pos hk, if_pos hk]
      cases hv : firstValue L k with
      | none => rfl
      | some v => rw [Option.map_some, hplain k hk v hv]
    · rw [if_neg hk, if_neg hk]
  · rintro ⟨hsp, hplain⟩ k
    rw [hiff.2 hsp k]
    by_cases hk : k ∈ vars
    · rw [if_pos hk, if_pos hk]
      cases hv : firstValue L k with
      | none => rfl
      | some v => rw [Option.map_some, (unescaped_eq_self_iff v).2 (hplain k hk v hv)]
    · rw [if_neg hk, if_neg hk]

/-- Three variables entered in five slots, and one of them deleted. Two slots were never used. -/
def sparseRun : List HashOp :=
  [.enter (oneChar 0x61) (oneChar 0x31), .enter (oneChar 0x62) (oneChar 0x31), .enter (oneChar 0x63) (oneChar 0x31), .delete (oneChar 0x62)]

/-- The state after these calls. -/
def sparseState : HashSys := (sparseRun.foldlM hashStep ⟨fiveSlots, fun _ => none⟩).get (by decide)

theorem sparseState_valid : sparseState.htab.Valid := by
  have hrun : Exec (stepOf hashStep) ⟨fiveSlots, fun _ => none⟩ sparseRun sparseState := Exec.of_foldlM (Option.some_get _).symm
  exact valid_of_exec hrun (HashMapAux.wf_fresh (by decide) (by decide)).toValid

/-- An entry of a name and a value of one character. -/
def oneCharEntry (c d : UInt8) : EnvEntry := .value (oneChar c) (oneChar d)

theorem bufferOf_letters (cs : List UInt8) (hcs : cs ⊆ [0x64, 0x65, 0x66]) (hne : cs ≠ []) :
    BufferOf (cs.map fun c => oneCharEntry c 0x31) ((cs.map fun c => oneCharEntry c 0x31).flatMap EnvEntry.text ++ [0]) where
  ok e he := by
    obtain ⟨c, hc, rfl⟩ := mem_map.1 he
    refine ⟨?_, fun v hv => ?_⟩
    · have hmem := hcs hc
      simp only [mem_cons, not_mem_nil, or_false] at hmem
      rcases hmem with rfl | rfl | rfl <;> exact EnvRoundTripAux.oneChar_nameOk (by decide) (by decide) (by decide) (by decide)
    · obtain rfl : oneChar 0x31 = v := Option.some.inj hv
      decide
  text := ⟨[0], rfl, Or.inr rfl, fun h => absurd (map_eq_nil_iff.1 h) hne⟩

/-- The entries `d=1`, `e=1` and `f=1`. -/
def threeEntries : List EnvEntry := [0x64, 0x65, 0x66].map fun c => oneCharEntry c 0x31

/-- Their buffer. -/
def threeEntriesEnv : List UInt8 := threeEntries.flatMap EnvEntry.text ++ [0]

/-- The theorem where `d` is imported alone. -/
theorem selective_import_iff_one : ∃ h', himportR true true none (some sparseState.htab)
      ([oneCharEntry 0x64 0x31].flatMap EnvEntry.text ++ [0]) 0 1 [oneChar 0x64] false = some (1, some h') ∧
    Selected sparseState.htab h' [oneCharEntry 0x64 0x31] [oneChar 0x64] := by
  have hi : himportR true true none (some sparseState.htab) ([oneCharEntry 0x64 0x31].flatMap EnvEntry.text ++ [0]) 0 1 [oneChar 0x64]
      false = some (1, some _) := rfl
  refine ⟨_, hi, (selective_import_iff true true none sparseState.htab _ sparseState_valid _ _
    (bufferOf_letters [0x64] (by simp) (by simp)) 1 rfl [oneChar 0x64] (by decide) hi).2 ⟨⟨?_, fun _ _ _ _ => trivial⟩, ?_⟩⟩
  · intro p hl
    exact hl.2.2.2.2 (Or.inr (Or.inl ⟨2, by decide, by decide, by decide⟩))
  · intro k hk v hv
    obtain rfl : k = oneChar 0x64 := mem_singleton.1 hk
    have hfirst : firstValue [oneCharEntry 0x64 0x31] (oneChar 0x64) = some (oneChar 0x31) := by decide
    obtain rfl : oneChar 0x31 = v := Option.some.inj (hfirst.symm.trans hv)
    decide

/-- The table finds room for `d` and `e` in the slots never used. Then it has none for `f`, which overwrites `a`, a variable that is not
in the list. -/
theorem selective_import_false : sparseState.htab.Valid ∧ (∃ i, 1 ≤ i ∧ i ≤ sparseState.htab.size ∧ (sparseState.htab.table i).used = 0) ∧
    BufferOf threeEntries threeEntriesEnv ∧
    ∃ h', himportR true true none (some sparseState.htab) threeEntriesEnv 0 1 [oneChar 0x64, oneChar 0x65, oneChar 0x66] false =
        some (1, some h') ∧
      hfind sparseState.htab (oneChar 0x61) = some (oneChar 0x31) ∧ hfind h' (oneChar 0x61) = none ∧
      ¬Selected sparseState.htab h' threeEntries [oneChar 0x64, oneChar 0x65, oneChar 0x66] := by
  refine ⟨sparseState_valid, ⟨2, by decide, by decide, by decide⟩, bufferOf_letters _ (List.Subset.refl _) (by simp), _, rfl, by decide,
    by decide, ?_⟩
  intro hsel
  have ha := hsel (oneChar 0x61)
  revert ha
  decide

end UBoot
