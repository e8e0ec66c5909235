import UBoot.Nvedit
import UBoot.Lemmas.ImportItems
import UBoot.Theorems.EnvRoundTrip

/-!
# Variables that can be set only once

Two ways lead past `env_check_apply`: an import deletes a variable whatever the check says, and an insertion may overwrite its slot.
-/

namespace UBoot

open Lib Htab HashMapAux ImportAux EnvRoundTripAux List Option

/-! ## The conditions -/

/-- An `ENTER` of `k` leaves the variable `p` alone: the key is there, or some slot was never used, or the call fails because
the table is full, or the first slot it tries does not hold `p`. -/
def Htab.EnterSpares (h : Htab) (p k : CString) : Prop :=
  (hfind h k).isSome ∨ (∃ i, 1 ≤ i ∧ i ≤ h.size ∧ (h.table i).used = 0) ∨ h.filled = h.size ∨ ∀ u, ¬h.Holds (h.hval k) p u

/-- The items do not delete `p`: with no selection there is no entry that deletes it, and if `p` is selected its first entry
has a value. -/
def ItemsKeep (p : CString) (vars : List (Option CString)) (items : List ImportItem) : Prop :=
  if vars = [] then .delete p ∉ items
  else some p ∈ vars → ∃ u, items.find? (fun i => decide (i.name? = some p)) = some (.enter p u)

/-- Every `ENTER` an import makes for its items leaves `p` alone. -/
def ItemsSpare (apply : ApplyFn) (flag : Nat) (p : CString) : List ImportItem → Htab → List (Option CString) → Prop
  | [], _, _ => True
  | item :: items, h, vars =>
    (∀ name value, item = .enter name value → (dropVarFromSet name vars).1 = true →
      apply name (hfind h name) (some value) flag = false → h.EnterSpares p name) ∧
    ∀ ok h' vars', itemStep (some apply) flag true item h vars = some (ok, h', vars') → ItemsSpare apply flag p items h' vars'

/-- A call of `_do_env_set` or of `set_default_vars`. -/
inductive EnvCall where
  | set (board : EnvBoard) (mallocOk : Bool) (name : CString) (values : List CString)
  | defaults (board : EnvBoard) (mallocOk : Bool) (defaultEnvironment : List UInt8) (vars : List CString)

/-- The table a call leaves. -/
def envCall (cfg : OnceConfig) (h : Htab) : EnvCall → Option Htab
  | .set board mallocOk name values => (doEnvSet cfg board mallocOk name values h).map Prod.snd
  | .defaults board mallocOk env vars => (setDefaultVars cfg board mallocOk env vars h).bind Prod.snd

/-- The condition on a call: every `ENTER` it makes leaves `p` alone, and an import does not delete `p`. -/
def CallSpares (cfg : OnceConfig) (p : CString) (h : Htab) : EnvCall → Prop
  | .set board mallocOk name values => mallocOk = true → values ≠ [] → chEquals ∉ name.bytes →
    envCheckApply cfg board name (hfind h name) values.head? H_NOCLEAR = false → h.EnterSpares p name
  | .defaults board mallocOk env vars => mallocOk = true →
    ItemsSpare (envCheckApply cfg board) H_NOCLEAR p (parseItems 0 (env.length + 1) env) h (vars.map some) ∧
      ItemsKeep p (vars.map some) (parseItems 0 (env.length + 1) env)

namespace WriteOnceAux

variable {h : Htab} {p v : CString}
variable {k name : CString} {r : HsearchRet} {h' : Htab} {vars vars' : List (Option CString)} {item : ImportItem} {items : List ImportItem}
    {ok mallocOk callocOk doApply : Bool} {sep : UInt8} {env : List UInt8} {n : Nat} {call : EnvCall}

/-! ## What the calls on the table keep -/

/-- A table that is valid and finds `v` for `p`. -/
structure Keeps (p v : CString) (h : Htab) : Prop where
  valid : h.Valid
  finds : hfind h p = some v

theorem enter_valid (hw : h.Valid) {w : CString} (hr : hsearchR .ok ⟨k, some w⟩ .enter h = some r) :
    r.htab.Valid := by
  obtain ⟨s', hs, hv⟩ := hashStep_valid (s := ⟨h, fun _ => none⟩) hw (.enter k w)
  simp only [hashStep, hr, map_some, some.injEq] at hs
  rw [← hs] at hv
  exact hv

theorem delete_valid (hw : h.Valid) {r : Nat × Htab} (hr : hdeleteR k h = some r) : r.2.Valid := by
  obtain ⟨s', hs, hv⟩ := hashStep_valid (s := ⟨h, fun _ => none⟩) hw (.delete k)
  simp only [hashStep, hr, map_some, some.injEq] at hs
  rw [← hs] at hv
  exact hv

theorem finds_of_replaced {i j : Nat} {s : Slot} (hw' : h'.Valid) (hr : Replaced h h' j s) (hi : h.Holds i p v)
    (hij : i ≠ j) : hfind h' p = some v :=
  (hw'.hfind_eq_some_iff p v).2 ⟨i, (hr.holds_ne hij p v).2 hi⟩

theorem ne_of_holds {i j : Nat} {u : CString} (hi : h.Holds i p v) (hj : h.Holds j k u) (hk : k ≠ p) : i ≠ j := by
  rintro rfl
  have := congrArg Slot.key (hi.2.2.symm.trans hj.2.2)
  exact hk (by simpa using this.symm)

/-- Deleting another variable keeps `p`. -/
theorem Keeps.delete (hk : Keeps p v h) (hne : k ≠ p) {r : Nat × Htab} (hr : hdeleteR k h = some r) : Keeps p v r.2 := by
  refine ⟨delete_valid hk.valid hr, ?_⟩
  obtain ⟨i, hi⟩ := (hk.valid.hfind_eq_some_iff p v).1 hk.finds
  cases hf : hfind h k with
  | none =>
    rw [delete_absent hk.valid (not_holds_of_hfind_none hk.valid hf)] at hr
    rw [← some.inj hr]
    exact hk.finds
  | some u =>
    obtain ⟨j, hj⟩ := (hk.valid.hfind_eq_some_iff k u).1 hf
    have hv := delete_valid hk.valid hr
    rw [hdeleteR_of_holds hk.valid hj, some.injEq] at hr
    rw [← hr] at hv ⊢
    exact finds_of_replaced (h := h) hv ⟨rfl, rfl⟩ hi (ne_of_holds hi hj hne)

/-- Entering another variable keeps `p` if it leaves its slot alone. -/
theorem Keeps.enter (hk : Keeps p v h) {w : CString} (hne : k ≠ p) (hs : h.EnterSpares p k)
    (hr : hsearchR .ok ⟨k, some w⟩ .enter h = some r) : Keeps p v r.htab := by
  have hv := enter_valid hk.valid hr
  refine ⟨hv, ?_⟩
  obtain ⟨i, hi⟩ := (hk.valid.hfind_eq_some_iff p v).1 hk.finds
  cases hf : hfind h k with
  | some u =>
    obtain ⟨j, hj⟩ := (hk.valid.hfind_eq_some_iff k u).1 hf
    rw [hsearchR, hk.valid.locate_of_holds hj, some.injEq] at hr
    rw [← hr] at hv ⊢
    exact finds_of_replaced (h := h) hv ⟨rfl, rfl⟩ hi (ne_of_holds hi hj hne)
  | none =>
    have hno := not_holds_of_hfind_none hk.valid hf
    by_cases hfull : h.filled = h.size
    · rw [enter_full hk.valid hno hfull, some.injEq] at hr
      rw [← hr]
      exact hk.finds
    obtain ⟨r', j, hr', -, -, -, hrep, h1, h2, -, hslot⟩ := enter_stores hk.valid hno hfull w
    obtain rfl : r' = r := some.inj (hr'.symm.trans hr)
    refine finds_of_replaced hv hrep hi ?_
    -- the slot written was free, or is the first one tried and then does not hold `p`
    rintro rfl
    have hpos := (hk.valid.used_pos_iff hi.1 hi.2.1).2 ⟨p, v, hi⟩
    rcases hslot with h0 | ⟨he, hdel | hall⟩
    · omega
    · omega
    · rcases hs with hsome | ⟨m, hm1, hm2, hm0⟩ | hfull' | hkey
      · rw [hf] at hsome
        cases hsome
      · exact hall m hm1 hm2 hm0
      · exact hfull hfull'
      · rw [← he] at hkey
        exact hkey v hi

/-! ## What an import keeps -/

/-- A variable that is processed is not one the rest of the items may still delete. -/
theorem itemsKeep_tail (hk : ItemsKeep p vars (item :: items)) (hname : item.name? = some name) :
    ItemsKeep p (dropVarFromSet name vars).2 items := by
  unfold ItemsKeep at hk ⊢
  unfold dropVarFromSet
  by_cases hv : vars = []
  · rw [if_pos hv] at hk
    simp only [hv, if_true]
    exact fun h => hk (mem_cons_of_mem _ h)
  · rw [if_neg hv] at hk
    simp only [hv, if_false, map_eq_nil_iff]
    intro hmem
    obtain ⟨o, ho, he⟩ := mem_map.1 hmem
    by_cases hon : o = some name
    · simp [hon] at he
    · rw [if_neg hon] at he
      subst he
      obtain ⟨u, hu⟩ := hk ho
      have hne : ¬item.name? = some p := by
        rw [hname]
        exact fun h => hon h.symm
      exact ⟨u, by simpa [find?_cons, hne] using hu⟩

theorem itemsKeep_ne (hk : ItemsKeep p vars (.delete name :: items)) (hsel : (dropVarFromSet name vars).1 = true) : name ≠ p := by
  rintro rfl
  unfold ItemsKeep at hk
  unfold dropVarFromSet at hsel
  by_cases hv : vars = []
  · rw [if_pos hv] at hk
    exact hk mem_cons_self
  · rw [if_neg hv] at hk
    simp only [hv, if_false, decide_eq_true_eq] at hsel
    obtain ⟨u, hu⟩ := hk hsel
    simp [ImportItem.name?] at hu

variable {apply : ApplyFn} {flag : Nat}

/-- One step of an import keeps `p`, if the callback refuses to overwrite it. -/
theorem itemStep_keeps (hdeny : ∀ new, apply p (some v) new flag = true) (hk : Keeps p v h)
    (hspare : ItemsSpare apply flag p (item :: items) h vars) (hkeep : ItemsKeep p vars (item :: items))
    (hs : itemStep (some apply) flag true item h vars = some (ok, h', vars')) :
    Keeps p v h' ∧ ItemsKeep p vars' items := by
  cases item with
  | comment =>
    simp only [itemStep, some.injEq, Prod.mk.injEq] at hs
    obtain ⟨-, rfl, rfl⟩ := hs
    refine ⟨hk, ?_⟩
    unfold ItemsKeep at hkeep ⊢
    simpa [find?_cons, ImportItem.name?] using hkeep
  | delete name =>
    have htail := itemsKeep_tail hkeep (show _ = some name from rfl)
    unfold itemStep at hs
    by_cases hsel : (dropVarFromSet name vars).1 = true
    · simp only [hsel, if_true] at hs
      obtain ⟨r, hr, he⟩ := map_eq_some_iff.1 hs
      simp only [Prod.mk.injEq] at he
      obtain ⟨-, rfl, rfl⟩ := he
      exact ⟨hk.delete (itemsKeep_ne hkeep hsel) hr, htail⟩
    · simp only [hsel, Bool.false_eq_true, if_false, some.injEq, Prod.mk.injEq] at hs
      obtain ⟨-, rfl, rfl⟩ := hs
      exact ⟨hk, htail⟩
  | enter name value =>
    have htail := itemsKeep_tail hkeep (show _ = some name from rfl)
    unfold itemStep at hs
    by_cases hsel : (dropVarFromSet name vars).1 = true
    · simp only [hsel, if_true, importDenied, Bool.true_and] at hs
      by_cases hden : apply name (hfind h name) (some value) flag = true
      · simp only [hden, if_true, some.injEq, Prod.mk.injEq] at hs
        obtain ⟨-, rfl, rfl⟩ := hs
        exact ⟨hk, htail⟩
      · have hne : name ≠ p := by
          rintro rfl
          rw [hk.finds] at hden
          exact hden (hdeny _)
        rw [if_neg hden] at hs
        obtain ⟨r, hr, he⟩ := map_eq_some_iff.1 hs
        simp only [Prod.mk.injEq] at he
        obtain ⟨-, rfl, rfl⟩ := he
        exact ⟨hk.enter hne (hspare.1 name value rfl hsel (by simpa using hden)) hr, htail⟩
    · simp only [hsel, Bool.false_eq_true, if_false, some.injEq, Prod.mk.injEq] at hs
      obtain ⟨-, rfl, rfl⟩ := hs
      exact ⟨hk, htail⟩

/-- Deleting the variables that were not imported keeps `p`, if it is not one of them. -/
theorem deleteLeft_keeps (hk : Keeps p v h) (hp : some p ∉ vars)
    (hd : deleteLeft h vars = some h') : Keeps p v h' := by
  induction vars generalizing h with
  | nil =>
    obtain rfl : h = h' := by simpa [deleteLeft] using hd
    exact hk
  | cons o vars ih =>
    have hp' : some p ∉ vars := fun hm => hp (mem_cons_of_mem _ hm)
    cases o with
    | none => exact ih hk hp' hd
    | some name =>
      have hne : name ≠ p := fun he => hp (by rw [he]; exact mem_cons_self)
      rw [deleteLeft] at hd
      cases hr : hdeleteR name h with
      | none => simp [hr] at hd
      | some r =>
        simp only [hr] at hd
        exact ih (hk.delete hne hr) hp' hd

theorem himportR_keeps (hdeny : ∀ new, apply p (some v) new flag = true) (hflag : noclear flag = true) {vars : List CString} (hk : Keeps p v h)
    (hok : mallocOk = true → ItemsSpare apply flag p (parseItems sep (env.length + 1) env) h (vars.map some) ∧
      ItemsKeep p (vars.map some) (parseItems sep (env.length + 1) env)) {o : Option Htab}
    (hi : himportR mallocOk callocOk (some apply) (some h) env sep flag vars true = some (n, o)) :
    ∃ h', o = some h' ∧ Keeps p v h' := by
  cases mallocOk with
  | false =>
    simp only [himportR, Bool.not_false, if_true, some.injEq, Prod.mk.injEq] at hi
    exact ⟨h, hi.2.symm, hk⟩
  | true =>
    obtain ⟨hspare, hkeep⟩ := hok rfl
    have htab : importTable callocOk flag env.length (some h) = some h := by simp [importTable, hflag]
    simp only [himportR, Bool.not_true, Bool.false_eq_true, if_false, htab] at hi
    cases hl : importLoop (some apply) sep flag true (env.length + 1) env h (vars.map some) with
    | none => simp [hl] at hi
    | some t =>
      obtain ⟨ok, h₁, vars₁⟩ := t
      have hend := importLoop_items (P := fun items h vars => Keeps p v h ∧ ItemsSpare apply flag p items h vars ∧
        ItemsKeep p vars items) (Q := Keeps p v) (fun item items h vars ok h' vars' hP hs => ?_) hl ⟨hk, hspare, hkeep⟩
      · cases ok with
        | false =>
          simp only [hl, some.injEq, Prod.mk.injEq] at hi
          exact ⟨h₁, hi.2.symm, by simpa using hend⟩
        | true =>
          simp only [hl, map_eq_some_iff, Prod.mk.injEq] at hi
          obtain ⟨h₂, hd, -, ho⟩ := hi
          obtain ⟨hk₁, -, hkeep₁⟩ : Keeps p v h₁ ∧ ItemsSpare apply flag p [] h₁ vars₁ ∧ ItemsKeep p vars₁ [] := by
            simpa using hend
          refine ⟨h₂, ho.symm, deleteLeft_keeps hk₁ ?_ hd⟩
          intro hmem
          have hne : vars₁ ≠ [] := ne_nil_of_mem hmem
          rw [ItemsKeep, if_neg hne] at hkeep₁
          obtain ⟨u, hu⟩ := hkeep₁ hmem
          simp at hu
      · obtain ⟨hk', hkeep'⟩ := itemStep_keeps hdeny hP.1 hP.2.1 hP.2.2 hs
        cases ok with
        | false => exact hk'
        | true => exact ⟨hk', hP.2.1.2 _ _ _ hs, hkeep'⟩

/-! ## What one call keeps -/

variable {cfg : OnceConfig}

theorem envCheckApply_once (hp : setOnce cfg p v = true) (board : EnvBoard) (new : Option CString) :
    envCheckApply cfg board p (some v) new H_NOCLEAR = true := by
  have hf : forced H_NOCLEAR = false := rfl
  unfold envCheckApply
  simp only [hf, hp, Bool.not_false, Bool.true_and, if_true, ite_self]

theorem envCall_keeps (hp : setOnce cfg p v = true) (hk : Keeps p v h) (hok : CallSpares cfg p h call) (hc : envCall cfg h call = some h') : Keeps p v h' := by
  cases call with
  | defaults board mallocOk env vars =>
    obtain ⟨⟨n, o⟩, hi, ho⟩ := bind_eq_some_iff.1 hc
    obtain ⟨h₁, rfl, hk₁⟩ := himportR_keeps (envCheckApply_once hp board) rfl hk hok hi
    obtain rfl : h₁ = h' := some.inj ho
    exact hk₁
  | set board mallocOk name values =>
    obtain ⟨⟨n, h₁⟩, hi, rfl⟩ := map_eq_some_iff.1 hc
    unfold doEnvSet at hi
    by_cases heq : chEquals ∈ name.bytes
    · rw [if_pos heq, some.injEq, Prod.mk.injEq] at hi
      exact hi.2 ▸ hk
    obtain ⟨ep, hep, hhtab⟩ := find_spec hk.valid name
    have hold : (ep.retval.bind fun idx => (h.table idx).data) = hfind h name := by
      rw [hfind, hep, ← hhtab]
      rfl
    rw [if_neg heq, hep] at hi
    simp only [hhtab, hold] at hi
    by_cases hden : envCheckApply cfg board name (hfind h name) values.head? H_NOCLEAR = true
    · rw [if_pos hden, some.injEq, Prod.mk.injEq] at hi
      exact hi.2 ▸ hk
    have hne : name ≠ p := by
      rintro rfl
      rw [hk.finds] at hden
      exact hden (envCheckApply_once hp board _)
    rw [if_neg hden] at hi
    by_cases hval : values = []
    · rw [if_pos hval] at hi
      obtain ⟨rc, hrc, he⟩ := map_eq_some_iff.1 hi
      have hkept := hk.delete hne hrc
      exact (Prod.mk.inj he).2 ▸ hkept
    rw [if_neg hval] at hi
    cases mallocOk with
    | false =>
      simp only [Bool.not_false, if_true, some.injEq, Prod.mk.injEq] at hi
      exact hi.2 ▸ hk
    | true =>
      simp only [Bool.not_true, Bool.false_eq_true, if_false] at hi
      obtain ⟨r, hr, he⟩ := map_eq_some_iff.1 hi
      exact (Prod.mk.inj he).2 ▸ hk.enter hne (hok rfl hval heq (by simpa using hden)) hr

/-! ## Every table reached is valid -/

theorem itemStep_valid {apply : Option ApplyFn} (hw : h.Valid) (hs : itemStep apply flag doApply item h vars = some (ok, h', vars')) :
    h'.Valid := by
  cases item with
  | comment =>
    simp only [itemStep, some.injEq, Prod.mk.injEq] at hs
    exact hs.2.1 ▸ hw
  | delete name =>
    simp only [itemStep] at hs
    split at hs
    · obtain ⟨r, hr, he⟩ := map_eq_some_iff.1 hs
      have hvalid := delete_valid hw hr
      rw [Prod.mk.injEq, Prod.mk.injEq] at he
      exact he.2.1 ▸ hvalid
    · simp only [some.injEq, Prod.mk.injEq] at hs
      exact hs.2.1 ▸ hw
  | enter name value =>
    simp only [itemStep] at hs
    split at hs
    · split at hs
      · simp only [some.injEq, Prod.mk.injEq] at hs
        exact hs.2.1 ▸ hw
      · obtain ⟨r, hr, he⟩ := map_eq_some_iff.1 hs
        have hvalid := enter_valid hw hr
        rw [Prod.mk.injEq, Prod.mk.injEq] at he
        exact he.2.1 ▸ hvalid
    · simp only [some.injEq, Prod.mk.injEq] at hs
      exact hs.2.1 ▸ hw

theorem deleteLeft_valid (hw : h.Valid) (hd : deleteLeft h vars = some h') : h'.Valid := by
  induction vars generalizing h with
  | nil =>
    obtain rfl : h = h' := by simpa [deleteLeft] using hd
    exact hw
  | cons o vars ih =>
    cases o with
    | none => exact ih hw hd
    | some name =>
      rw [deleteLeft] at hd
      cases hr : hdeleteR name h with
      | none => simp [hr] at hd
      | some r =>
        simp only [hr] at hd
        exact ih (delete_valid hw hr) hd

/-- An import leaves a valid table, if it started with one or with none. -/
theorem himportR_valid {apply : Option ApplyFn}
    {vars : List CString} {old : Option Htab} (hold : ∀ t, old = some t → t.Valid)
    (hi : himportR mallocOk callocOk apply old env sep flag vars doApply = some (n, some h')) : h'.Valid := by
  cases mallocOk with
  | false =>
    simp only [himportR, Bool.not_false, if_true, some.injEq, Prod.mk.injEq] at hi
    exact hold h' hi.2
  | true =>
    simp only [himportR, Bool.not_true, Bool.false_eq_true, if_false] at hi
    cases ht : importTable callocOk flag env.length old with
    | none => simp [ht] at hi
    | some t =>
      have hw : t.Valid := by
        have hb := importEntries_bounds env.length
        obtain ⟨m, hm, hp, hle, -⟩ := hcreateR_spec (importEntries env.length) (by omega) (by omega)
        have hfresh : hcreateR callocOk (importEntries env.length) none = some t → t.Valid := by
          intro hc
          cases callocOk with
          | false => simp [hcreateR] at hc
          | true =>
            obtain rfl : _ = t := some.inj (hm.symm.trans hc)
            exact (wf_fresh hp (by omega)).toValid
        unfold importTable at ht
        split at ht
        · rename_i t' he
          obtain rfl : t' = t := some.inj ht
          refine hold t' ?_
          split at he
          · exact he
          · cases he
        · exact hfresh ht
      simp only [ht] at hi
      cases hl : importLoop apply sep flag doApply (env.length + 1) env t (vars.map some) with
      | none => simp [hl] at hi
      | some r =>
        obtain ⟨ok, h₁, vars₁⟩ := r
        have hend := importLoop_items (P := fun _ h _ => h.Valid) (Q := Valid)
          (fun item items h vars ok h' vars' hP hs => by simpa using itemStep_valid hP hs) hl hw
        have hw₁ : h₁.Valid := by simpa using hend
        cases ok with
        | false =>
          simp only [hl, some.injEq, Prod.mk.injEq] at hi
          exact hi.2 ▸ hw₁
        | true =>
          simp only [hl, map_eq_some_iff, Prod.mk.injEq, some.injEq] at hi
          obtain ⟨h₂, hd, -, rfl⟩ := hi
          exact deleteLeft_valid hw₁ hd

theorem envCall_valid (hw : h.Valid) (hc : envCall cfg h call = some h') : h'.Valid := by
  cases call with
  | defaults board mallocOk env vars =>
    obtain ⟨⟨n, o⟩, hi, rfl⟩ := bind_eq_some_iff.1 hc
    refine himportR_valid ?_ hi
    intro t ht
    exact some.inj ht ▸ hw
  | set board mallocOk name values =>
    obtain ⟨⟨n, h₁⟩, hi, rfl⟩ := map_eq_some_iff.1 hc
    obtain ⟨ep, hep, hhtab⟩ := find_spec hw name
    unfold doEnvSet at hi
    simp only [hep, hhtab] at hi
    split at hi
    · exact (Prod.mk.inj (some.inj hi)).2 ▸ hw
    split at hi
    · exact (Prod.mk.inj (some.inj hi)).2 ▸ hw
    split at hi
    · obtain ⟨rc, hrc, he⟩ := map_eq_some_iff.1 hi
      have hvalid := delete_valid hw hrc
      exact (Prod.mk.inj he).2 ▸ hvalid
    split at hi
    · exact (Prod.mk.inj (some.inj hi)).2 ▸ hw
    · obtain ⟨r, hr, he⟩ := map_eq_some_iff.1 hi
      have hvalid := enter_valid hw hr
      exact (Prod.mk.inj he).2 ▸ hvalid

end WriteOnceAux

open WriteOnceAux

/-- From any table an import made, after any calls: once `serial#` has a value, or `ethaddr` one that is not the default, every
further run of calls that all meet the condition leaves it found with the same value. -/
theorem write_once_kept (cfg : OnceConfig) (hcfg : cfg.envOverwrite = false) (apply : Option ApplyFn) (env : List UInt8)
    (sep : UInt8) (doApply : Bool) (n : Nat) (h₀ h h' : Htab)
    (hboot : himportR true true apply none env sep 0 [] doApply = some (n, some h₀)) (calls calls' : List EnvCall)
    (hrun : Exec (stepOf (envCall cfg)) h₀ calls h) (p v : CString)
    (hp : p = serialName ∨ p = ethaddrName ∧ cfg.ethaddr ≠ some v) (hv : hfind h p = some v)
    (hrun' : Exec (Guarded (CallSpares cfg p) (stepOf (envCall cfg))) h calls' h') :
    (hsearchR .ok ⟨p, none⟩ .find h').isSome ∧ hfind h' p = some v := by
  have hw₀ : h₀.Valid := himportR_valid (fun t ht => by cases ht) hboot
  have hw : h.Valid := hrun.invariant (fun s call s' hs hstep => envCall_valid hs hstep) hw₀
  have honce : setOnce cfg p v = true := by
    rcases hp with rfl | ⟨rfl, hne⟩
    · simp [setOnce, hcfg]
    · simp [setOnce, hcfg, hne]
  have hstep (s : Htab) (call : EnvCall) (s' : Htab) (hs : Keeps p v s)
      (hc : Guarded (CallSpares cfg p) (stepOf (envCall cfg)) s call s') : Keeps p v s' := envCall_keeps honce hs hc.1 hc.2
  have hk' := hrun'.invariant hstep ⟨hw, hv⟩
  obtain ⟨r, hr, -⟩ := find_spec hk'.valid p
  exact ⟨by rw [hr]; rfl, hk'.finds⟩

/-- A stored environment with `serial#=1`. -/
def serialEnv : List UInt8 := serialName.bytes ++ [chEquals, 0x31, 0, 0]

/-- A board without consoles to assign and with one baud rate. -/
def plainBoard : EnvBoard := ⟨fun _ _ => false, [115200]⟩

/-- The table booted from `serialEnv`. -/
def serialTable : Htab := ((himportR true true none none serialEnv 0 0 [] false).bind Prod.snd).getD fiveSlots

/-- A set of `serial#`, which is refused, and one of `a` leave `serial#` as it was. -/
theorem write_once_kept_serial : ∃ h', himportR true true none none serialEnv 0 0 [] false = some (1, some serialTable) ∧
    Exec (Guarded (CallSpares ⟨false, none⟩ serialName) (stepOf (envCall ⟨false, none⟩))) serialTable
      [.set plainBoard true serialName [oneChar 0x32], .set plainBoard true (oneChar 0x61) [oneChar 0x32]] h' ∧
    hfind h' serialName = some (oneChar 0x31) := by
  have hboot : himportR true true none none serialEnv 0 0 [] false = some (1, some serialTable) := rfl
  have hrefused : CallSpares ⟨false, none⟩ serialName serialTable (.set plainBoard true serialName [oneChar 0x32]) := by
    intro _ _ _ hden
    exact absurd hden (by decide)
  have hfree : CallSpares ⟨false, none⟩ serialName serialTable (.set plainBoard true (oneChar 0x61) [oneChar 0x32]) := by
    intro _ _ _ _
    exact Or.inr (Or.inl ⟨1, by decide, by decide, by decide⟩)
  have hrun : Exec (Guarded (CallSpares ⟨false, none⟩ serialName) (stepOf (envCall ⟨false, none⟩))) serialTable
      [.set plainBoard true serialName [oneChar 0x32], .set plainBoard true (oneChar 0x61) [oneChar 0x32]] _ :=
    Exec.cons ⟨hrefused, rfl⟩ (Exec.single ⟨hfree, rfl⟩)
  exact ⟨_, hboot, hrun, (write_once_kept ⟨false, none⟩ rfl none serialEnv 0 false 1 serialTable serialTable _ hboot [] _
    (Exec.nil _) serialName (oneChar 0x31) (Or.inl rfl) (by decide) hrun).2⟩

/-- `set_default_vars` deletes `serial#` when it is asked for and the default environment, here `a=1`, has no entry for it. -/
theorem write_once_kept_false : ∃ h', himportR true true none none serialEnv 0 0 [] false = some (1, some serialTable) ∧
    hfind serialTable serialName = some (oneChar 0x31) ∧
    Exec (stepOf (envCall ⟨false, none⟩)) serialTable [.defaults plainBoard true [0x61, chEquals, 0x31, 0, 0] [serialName]] h' ∧
    hfind h' serialName = none :=
  ⟨_, rfl, by decide, Exec.single rfl, by decide⟩

end UBoot
