import UBoot.Lemmas.EnvStrings
import UBoot.Lemmas.FwEnvAux

/-!
# Setting a variable from Linux

`fw_setenv` takes no notice of what `fw_env_write` returns, and reports what the write to the flash returns.
-/

namespace UBoot

open Lib StoredEnvAux FwEnvAux EnvStringsAux List Option CString

/-- The value that `fw_setenv` is asked for: the arguments joined by blanks, or none. -/
def askedValue (args : List CString) : Option CString := if args = [] then none else some (joinArgs args)

/-- The new strings give the variable the value, or none, and every other variable the value it had. -/
def SetsAsked (old new : List CString) (name : CString) (asked : Option CString) : Prop :=
  varValue new name = asked ∧ ∀ k, k ≠ name → varValue new k = varValue old k

/-- A success of `fw_setenv` on the block `b`, with whatever lies behind it, means that the variable is set. -/
def SuccessMeansSet (cfg : OnceConfig) (b : List UInt8) (prog name : CString) (args : List CString) : Prop :=
  ∀ data mallocOk, Stored data 0 b → ∃ rc written, fwSetenv cfg (some data) b.length mallocOk true (prog :: name :: args) = some (rc, written) ∧
      (rc = 0 → ∃ image, written = some image ∧ SetsAsked (envStrings [] b) (envStrings [] image.data) name (askedValue args))

/-- The strings of a block without the first that defines the name. -/
def stringsLeft (b : List UInt8) (name : CString) : List CString :=
  (envStrings [] b).eraseP fun s => s.Defines name.beforeEquals

/-- A deletion does what is asked: no further definition is left. A name with an equals sign stands for no variable, and
then the one it deletes has a further definition with the same value. A value is set when a further definition has it, or there is none and
the entry fits; an empty value never does, nor one behind a single NUL. -/
def WriteSets (b : List UInt8) (name : CString) : Option CString → Prop
  | none => varValue (stringsLeft b name) name.beforeEquals =
      if chEquals ∈ name.bytes then varValue (envStrings [] b) name.beforeEquals else none
  | some v => chEquals ∉ name.bytes ∧
      (varValue (stringsLeft b name) name = some v ∨ varValue (stringsLeft b name) name = none ∧ v.bytes ≠ [] ∧
          ((stringsLeft b name).flatMap storedString).length + (name.bytes.length + v.bytes.length + 3) ≤ b.length ∧
          (envStrings [] b = [] → b[1]? = some 0))

/-- When a success means that the variable is set. No string before its first definition is the name itself. A variable that
can be set only once has the value already. Any other is written to a block that ends; in one that does not end, it is
to be deleted and is not there, and the last string is not one of it that can be deleted. -/
def SetCondition (cfg : OnceConfig) (b : List UInt8) (name : CString) (asked : Option CString) : Prop :=
  name ∉ (envStrings [] b).takeWhile (fun s => !decide (s.Defines name.beforeEquals)) ∧
  match varValue (envStrings [] b) name.beforeEquals, envTail [] b with
  | some old, tail => if setOnce cfg name old then asked = some old else tail = none ∧ WriteSets b name asked
  | none, none => WriteSets b name asked
  | none, some t => asked = none ∧
      (t = [] ∨ ¬name.Meets (ofBytes t) ∨ ((ofBytes t).Defines name.beforeEquals ∧ setOnce cfg name (ofBytes t).afterEquals = true))

namespace FwSetenvAux

variable {data : Nat → UInt8} {n : Nat} {name : CString}
variable {S R : List CString} {cfg : OnceConfig} {value : Option CString}

/-! ## The arguments -/

theorem fwJoinArgs_some (v : CString) (args : List CString) : ∃ w, fwJoinArgs (some v) args = some w ∧
    w.bytes = List.intercalate [chSpace] ((v :: args).map (·.bytes)) := by
  induction args generalizing v with
  | nil => exact ⟨v, rfl, by simp [List.intercalate]⟩
  | cons a args ih =>
    obtain ⟨w, hw, hbytes⟩ := ih (v.joined a)
    refine ⟨w, hw, ?_⟩
    rw [hbytes]
    cases args <;> simp [List.intercalate, CString.joined]

theorem fwJoinArgs_none (args : List CString) : fwJoinArgs none args = askedValue args := by
  cases args with
  | nil => rfl
  | cons a args =>
    obtain ⟨w, hw, hbytes⟩ := fwJoinArgs_some a args
    rw [fwJoinArgs, hw, askedValue, if_neg (cons_ne_nil a args), joinArgs, ← hbytes, ofBytes_bytes]

/-! ## The first string that the name meets -/

theorem meets_self (name : CString) : name.Meets name := by
  by_cases h : chEquals ∈ name.bytes
  · exact Or.inl ⟨h, rfl⟩
  · exact Or.inr ⟨h, rfl⟩

theorem first_meets (name : CString) (S : List CString) : (∀ s ∈ S, ¬name.Meets s) ∨
    ∃ A s B, S = A ++ s :: B ∧ (∀ a ∈ A, ¬name.Meets a) ∧ name.Meets s := by
  induction S with
  | nil => exact Or.inl (by simp)
  | cons t S ih =>
    by_cases ht : name.Meets t
    · exact Or.inr ⟨[], t, S, rfl, by simp, ht⟩
    · rcases ih with ih | ⟨A, s, B, rfl, hA, hs⟩
      · exact Or.inl (forall_mem_cons.2 ⟨ht, ih⟩)
      · exact Or.inr ⟨t :: A, s, B, rfl, forall_mem_cons.2 ⟨ht, hA⟩, hs⟩

theorem unmet (hS : ∀ s ∈ S, ¬name.Meets s) : name ∉ S ∧ varValue S name.beforeEquals = none ∧
    (S.eraseP fun s => s.Defines name.beforeEquals) = S := by
  have hno : ∀ s ∈ S, ¬s.Defines name.beforeEquals := fun s hs h => hS s hs (Or.inl h)
  exact ⟨fun h => hS name h (meets_self name), varValue_eq_none_iff.2 hno, eraseP_of_forall_not fun s hs => by simpa using hno s hs⟩

theorem defined {A B : List CString} {s : CString} (hA : ∀ a ∈ A, ¬name.Meets a) (hs : s.Defines name.beforeEquals) :
    (A ++ s :: B).takeWhile (fun s => !decide (s.Defines name.beforeEquals)) = A ∧
      varValue (A ++ s :: B) name.beforeEquals = some s.afterEquals ∧
      ((A ++ s :: B).eraseP fun s => s.Defines name.beforeEquals) = A ++ B := by
  have hno : ∀ a ∈ A, ¬a.Defines name.beforeEquals := fun a ha h => hA a ha (Or.inl h)
  refine ⟨?_, ?_, ?_⟩
  · rw [takeWhile_append_of_pos fun a ha => by simpa using hno a ha, takeWhile_cons_of_neg (by simpa using hs), append_nil]
  · rw [varValue_append, varValue_eq_none_iff.2 hno, varValue_cons_of_defines hs]
    rfl
  · rw [eraseP_append_right _ fun a ha => by simpa using hno a ha, eraseP_cons_of_pos (by simpa using hs)]

/-! ## What is set by the strings that are left -/

theorem varValue_eraseP (S : List CString) {k k' : CString} (hk : k' ≠ k) : varValue (S.eraseP fun s => s.Defines k) k' = varValue S k' := by
  rcases exists_or_eq_self_of_eraseP (fun s => decide (CString.Defines s k)) S with h | ⟨s, A, B, -, hs, rfl, h⟩
  · rw [h]
  · rw [h]
    exact varValue_without (of_decide_eq_true hs) hk

theorem setsAsked_left (hR : R = S.eraseP fun s => s.Defines name.beforeEquals) :
    (SetsAsked S R name none ↔ varValue R name.beforeEquals =
      if chEquals ∈ name.bytes then varValue S name.beforeEquals else none) ∧
    ∀ v, SetsAsked S R name (some v) ↔ chEquals ∉ name.bytes ∧ varValue R name = some v := by
  have hother (k : CString) (hk : k ≠ name.beforeEquals) : varValue R k = varValue S k := by
    rw [hR]
    exact varValue_eraseP S hk
  by_cases heq : chEquals ∈ name.bytes
  · have hne : name.beforeEquals ≠ name := fun h => (h ▸ equals_notMem_beforeEquals name : chEquals ∉ name.bytes) heq
    rw [if_pos heq]
    simp only [SetsAsked, varValue_of_equals heq, true_and, heq, not_true, false_and, reduceCtorEq]
    refine ⟨⟨fun h => h _ hne, ?_⟩, by simp⟩
    intro h k _
    by_cases hk : k = name.beforeEquals
    · rw [hk, h]
    · exact hother k hk
  · rw [beforeEquals_eq_self heq] at hother ⊢
    simp only [SetsAsked, heq, not_false_eq_true, true_and]
    exact ⟨⟨And.left, fun h => ⟨h, hother⟩⟩, fun v => ⟨And.left, fun h => ⟨h, hother⟩⟩⟩

/-- When they are it with a new entry behind them. -/
theorem setsAsked_appended (hR : R = S.eraseP fun s => s.Defines name.beforeEquals) (v : CString) :
    SetsAsked S (R ++ [entryString (name, v)]) name (some v) ↔ chEquals ∉ name.bytes ∧ (varValue R name = some v ∨ varValue R name = none) := by
  by_cases heq : chEquals ∈ name.bytes
  · simp [SetsAsked, varValue_of_equals heq, heq]
  · have hother (k : CString) (hk : k ≠ name) : varValue R k = varValue S k := by
      rw [hR, beforeEquals_eq_self heq]
      exact varValue_eraseP S hk
    simp only [SetsAsked, varValue_with heq, if_true, heq, not_false_eq_true, true_and]
    have hval : some ((varValue R name).getD v) = some v ↔ varValue R name = some v ∨ varValue R name = none := by
      cases varValue R name <;> simp
    rw [hval]
    refine ⟨And.left, fun h => ⟨h, ?_⟩⟩
    intro k hk
    rw [if_neg hk]
    exact hother k hk

/-! ## The steps of a write -/

/-- The end of `fw_env_write`, after the deletion. -/
def appendAsked (data : Nat → UInt8) (n : Nat) (name : CString) : Option CString → Option (Option FwError × (Nat → UInt8))
  | none => some (none, data)
  | some v => if v.bytes = [] then some (none, data) else fwAppend data n name v

theorem fwEnvWrite_absent (h : fwSearch data n name (n + 2) 0 = some .absent) :
    fwEnvWrite cfg data n name value = appendAsked data n name value := by
  rw [fwEnvWrite, h]
  cases value <;> rfl

theorem fwEnvWrite_found {env nxt val : Nat}
    (h : fwSearch data n name (n + 2) 0 = some (.found env nxt val)) :
    fwEnvWrite cfg data n name value =
      if fwOnce cfg data n name val then some (some .cantOverwrite, data)
      else (fwDelete data n env nxt).bind fun data => appendAsked data n name value := by
  rw [fwEnvWrite, h]
  dsimp only
  by_cases honce : fwOnce cfg data n name val = true
  · rw [if_pos honce, if_pos honce]
  · rw [if_neg honce, if_neg honce]
    cases fwDelete data n env nxt with
    | none => rfl
    | some data => cases value <;> rfl

theorem strings_of_block (hb : FwStrings data n S) : envStrings [] (blockBytes data n) = S := by
  obtain ⟨tail, htail⟩ := hb.stored.prefix_map_range (n := n) (by rw [length_append]; exact hb.fits)
  simp only [Nat.zero_add] at htail
  rw [blockBytes, ← htail, append_assoc]
  exact (envStrings_ended hb.ne_nil tail).1

/-- What is asked for is what is left, or the entry fits behind it. -/
def LeftSets (S R : List CString) (n : Nat) (name : CString) : Option CString → Prop
  | none => varValue R name.beforeEquals = if chEquals ∈ name.bytes then varValue S name.beforeEquals else none
  | some v => chEquals ∉ name.bytes ∧ (varValue R name = some v ∨ varValue R name = none ∧ v.bytes ≠ [] ∧
      (R.flatMap storedString).length + (name.bytes.length + v.bytes.length + 3) ≤ n)

/-- What the end of a write leaves is what is asked for. -/
theorem appendAsked_iff (hb : FwStrings data n R) (hend : R = [] → data 1 = 0)
    (hR : R = S.eraseP fun s => s.Defines name.beforeEquals) (asked : Option CString) :
    ∃ err data', appendAsked data n name asked = some (err, data') ∧
      (SetsAsked S (envStrings [] (blockBytes data' n)) name asked ↔ LeftSets S R n name asked) := by
  obtain ⟨hnone, hsome⟩ := setsAsked_left hR
  cases asked with
  | none => exact ⟨none, data, rfl, by rw [strings_of_block hb]; exact hnone⟩
  | some v =>
    by_cases hv : v.bytes = []
    · refine ⟨none, data, by rw [appendAsked, if_pos hv], ?_⟩
      rw [strings_of_block hb, hsome]
      simp [LeftSets, hv]
    · rw [appendAsked, if_neg hv, fwAppend_strings hb hend]
      split <;> rename_i hroom
      · refine ⟨_, data, rfl, ?_⟩
        have hroom := Nat.not_le_of_lt hroom
        rw [strings_of_block hb, hsome]
        simp only [LeftSets, hroom, and_false, or_false]
      · have hroom := Nat.le_of_not_lt hroom
        have hlen : (storedString (entryString (name, v))).length = name.bytes.length + v.bytes.length + 2 := by
          simp only [storedString, entryString, length_append, length_cons, length_nil]
          omega
        have hb' := FwStrings.append hb (entryString_ne_nil (name, v)) (by omega)
        refine ⟨_, _, rfl, ?_⟩
        rw [strings_of_block hb', setsAsked_appended hR]
        simp only [LeftSets, ne_eq, hv, hroom, not_false_eq_true, and_self, and_true]

/-! ## The search -/

section Search

variable {cfg : OnceConfig} {S A B : List CString} {s : CString}

theorem equals_notMem_of_once {old : CString} (h : setOnce cfg name old = true) : chEquals ∉ name.bytes := by
  have hname : name = serialName ∨ name = ethaddrName := by
    simp only [setOnce, Bool.and_eq_true, Bool.or_eq_true, decide_eq_true_eq] at h
    exact h.2.imp_right And.left
  rcases hname with rfl | rfl <;> decide

theorem fwOnce_stored {val : Nat} {v : CString} (hst : Stored data val (storedString v)) (hv : v.bytes.length < n) :
    fwOnce cfg data n name val = setOnce cfg name v := by
  obtain ⟨tail, htail⟩ := hst.prefix_map_range (n := n) (by rw [length_storedString]; exact hv)
  rw [fwOnce, ← htail, storedString, append_assoc, singleton_append, ofBytes_terminated]

theorem search_behind (hne : ∀ s ∈ S, s.bytes ≠ []) (hno : ∀ s ∈ S, ¬name.Meets s) (hst : Stored data 0 (S.flatMap storedString))
    (hsize : (S.flatMap storedString).length ≤ n) :
    ∃ fuel, fwSearch data n name (n + 2) 0 = fwSearch data n name (fuel + 2) (S.flatMap storedString).length := by
  have hlen := length_le_flatMap_storedString S
  refine ⟨n - S.length, ?_⟩
  have hskip : fwSearch data n name (n - S.length + 2 + S.length) 0 = fwSearch data n name (n - S.length + 2) (0 + _) :=
    fwSearch_skips hne hno (n - S.length + 2) hst (by omega)
  rw [Nat.zero_add] at hskip
  rw [← hskip]
  congr 1
  omega

theorem search_defined (cfg : OnceConfig) (hne : ∀ a ∈ A, a.bytes ≠ []) (hA : ∀ a ∈ A, ¬name.Meets a) (hs : s.Defines name.beforeEquals)
    {rest : List UInt8} (hst : Stored data 0 ((A ++ s :: B).flatMap storedString ++ rest))
    (hsize : (A.flatMap storedString).length + s.bytes.length ≤ n) :
    ∃ val, fwSearch data n name (n + 2) 0 =
        some (.found (A.flatMap storedString).length ((A.flatMap storedString).length + s.bytes.length) val) ∧
      fwOnce cfg data n name val = setOnce cfg name s.afterEquals := by
  obtain ⟨hstA, hst, -⟩ := stored_split hst
  have hbytes := bytes_eq_of_equals hs.1
  have hlen := congrArg List.length hbytes
  rw [length_append, length_cons] at hlen
  obtain ⟨fuel, hfuel⟩ := search_behind (n := n) hne hA hstA (by omega)
  refine ⟨_, by rw [hfuel, fwSearch_found hs hst hsize], fwOnce_stored ?_ (by omega)⟩
  rw [storedString, hbytes, append_assoc, cons_append, stored_append, stored_cons] at hst
  exact hst.2.2

end Search

/-! ## A block that ends -/

variable {b : List UInt8}

/-- What `fw_setenv` does on a block, without the write to the flash. -/
def WriteSetsAsked (cfg : OnceConfig) (b : List UInt8) (name : CString) (asked : Option CString) : Prop :=
  ∀ data, Stored data 0 b → ∃ err data', fwEnvWrite cfg data b.length name asked = some (err, data') ∧
    SetsAsked (envStrings [] b) (envStrings [] (blockBytes data' b.length)) name asked

theorem successMeansSet_iff (cfg : OnceConfig) (b : List UInt8) (prog name : CString) (args : List CString) :
    SuccessMeansSet cfg b prog name args ↔ WriteSetsAsked cfg b name (askedValue args) := by
  constructor
  · intro h data hst
    obtain ⟨rc, written, hset, hrc⟩ := h data true hst
    rw [fwSetenv, fwJoinArgs_none] at hset
    simp only [Bool.not_true, Bool.and_false, Bool.false_eq_true, if_false, map_eq_some_iff] at hset
    obtain ⟨⟨err, data'⟩, hw, hclose⟩ := hset
    obtain ⟨rfl, rfl⟩ := Prod.mk.inj hclose
    obtain ⟨image, himage, hsets⟩ := hrc rfl
    obtain rfl := some.inj himage
    exact ⟨err, data', hw, hsets⟩
  · intro h data mallocOk hst
    obtain ⟨err, data', hw, hsets⟩ := h data hst
    rw [fwSetenv, fwJoinArgs_none]
    by_cases hm : (!args.isEmpty && !mallocOk) = true
    · exact ⟨-1, none, by simp only [if_pos hm], fun h => by simp at h⟩
    · exact ⟨0, _, by simp only [if_neg hm, hw]; rfl, fun _ => ⟨_, rfl, hsets⟩⟩

theorem blockBytes_stored (hst : Stored data 0 b) : blockBytes data b.length = b := by
  obtain ⟨tail, htail⟩ := hst.prefix_map_range (Nat.le_refl _)
  simp only [Nat.zero_add] at htail
  have hnil : tail = [] := by simpa using congrArg List.length htail
  rw [blockBytes, ← htail, hnil, append_nil]

theorem stored_getD (b : List UInt8) (c : UInt8) : Stored (fun i => b.getD i c) 0 b := by
  intro i x hx
  simp [hx]

/-- What an append behind a single NUL leaves, if anything, is a block without strings. -/
theorem fwAppend_behind {v : CString} (h0 : data 0 = 0) (h1 : data 1 ≠ 0 ∨ n < 3) {err : Option FwError} {data' : Nat → UInt8}
    (h : fwAppend data n name v = some (err, data')) : data' 0 = 0 := by
  have hle (fuel env last : Nat) (h : fwEnd data fuel env = some last) : env ≤ last := by
    induction fuel generalizing env with
    | zero => simp [fwEnd] at h
    | succ fuel ih =>
      rw [fwEnd] at h
      split at h
      · exact Nat.le_of_succ_le (ih (env + 1) h)
      · exact Nat.le_of_eq (some.inj h)
  unfold fwAppend at h
  split at h
  · simp at h
  · rename_i last hlast
    dsimp only at h
    by_cases hroom : n < (if 0 < last then last + 1 else last) + (name.bytes.length + 2 + (v.bytes.length + 1))
    · rw [if_pos hroom, some.injEq, Prod.mk.injEq] at h
      rw [← h.2, h0]
    · rw [if_neg hroom, some.injEq, Prod.mk.injEq] at h
      obtain ⟨m, rfl⟩ : ∃ m, n = m + 1 := ⟨n - 1, by omega⟩
      rw [fwEnd, if_pos (Or.inr (h1.resolve_right (by omega)))] at hlast
      have hlast := hle m 1 last hlast
      rw [← h.2, store_of_outside, h0]
      rw [if_pos (by omega)]
      omega

theorem strings_of_ended {S : List CString} (hne : ∀ s ∈ S, s.bytes ≠ []) {rest : List UInt8}
    (hb : b = S.flatMap storedString ++ 0 :: rest) (hst : Stored data 0 b) : FwStrings data b.length S := by
  subst hb
  rw [← singleton_append, ← append_assoc, stored_append] at hst
  refine ⟨hne, hst.1, ?_⟩
  rw [length_append, length_cons]
  omega

/-- A write that does what is asked under the condition `P` on every memory with the block, or on none. -/
theorem writeSetsAsked_of_run {cfg : OnceConfig} {asked : Option CString} {P : Prop}
    (hrun : ∀ data, Stored data 0 b → ∃ err data', fwEnvWrite cfg data b.length name asked = some (err, data') ∧
      (SetsAsked (envStrings [] b) (envStrings [] (blockBytes data' b.length)) name asked ↔ P)) :
    WriteSetsAsked cfg b name asked ↔ P := by
  constructor
  · intro h
    obtain ⟨err, data', hw, hiff⟩ := hrun _ (stored_getD b 0)
    obtain ⟨err', data'', hw', hsets⟩ := h _ (stored_getD b 0)
    rw [hw] at hw'
    obtain ⟨rfl, rfl⟩ := Prod.mk.inj (some.inj hw')
    exact hiff.1 hsets
  · intro h data hst
    obtain ⟨err, data', hw, hiff⟩ := hrun data hst
    exact ⟨err, data', hw, hiff.2 h⟩

/-- The write gets to its end with the strings that are left. When none is, the block had none, or the deletion has put two NULs
at its start. -/
def ReachesEnd (cfg : OnceConfig) (S : List CString) (b : List UInt8) (name : CString) (asked : Option CString) : Prop :=
  ∀ data, Stored data 0 b → ∃ data₁, FwStrings data₁ b.length (stringsLeft b name) ∧
    (stringsLeft b name = [] → (S = [] ∧ data₁ = data) ∨ (S ≠ [] ∧ data₁ 1 = 0)) ∧
    fwEnvWrite cfg data b.length name asked = appendAsked data₁ b.length name asked

section Ended

variable {cfg : OnceConfig} {S : List CString} {b rest : List UInt8} {asked : Option CString}

/-- With strings in the block, or two NULs at its start, the room decides. -/
theorem writeSetsAsked_room (hS : envStrings [] b = S) (hnul : S = [] → b[1]? = some 0)
    (hreach : ReachesEnd cfg S b name asked) : WriteSetsAsked cfg b name asked ↔ WriteSets b name asked := by
  have hmatch : WriteSets b name asked ↔ LeftSets S (stringsLeft b name) b.length name asked := by
    cases asked with
    | none => rw [WriteSets, LeftSets, hS]
    | some v =>
      rw [WriteSets, LeftSets, hS]
      simp only [eq_true hnul, and_true]
  refine writeSetsAsked_of_run ?_
  intro data hst
  obtain ⟨data₁, hb₁, hend, hw⟩ := hreach data hst
  rw [hw, hmatch, hS]
  refine appendAsked_iff hb₁ ?_ (by rw [stringsLeft, hS]) asked
  intro hnil
  rcases hend hnil with ⟨hSnil, rfl⟩ | ⟨-, h1⟩
  · exact hst 1 0 (hnul hSnil)
  · exact h1

theorem appendAsked_singleNul (h0 : data 0 = 0) (h1 : data 1 ≠ 0 ∨ n < 3) {v : CString} {err : Option FwError}
    {data' : Nat → UInt8} (hw : appendAsked data n name (some v) = some (err, data')) : data' 0 = 0 := by
  by_cases hv : v.bytes = []
  · rw [appendAsked, if_pos hv] at hw
    obtain ⟨-, rfl⟩ := Prod.mk.inj (some.inj hw)
    exact h0
  · rw [appendAsked, if_neg hv] at hw
    exact fwAppend_behind h0 h1 hw

/-- A block whose first byte is a NUL with no other behind it: a deletion has nothing to do, and nothing is set. -/
theorem writeSetsAsked_singleNul (hb : b = 0 :: rest) (h1 : b[1]? ≠ some 0) (hreach : ReachesEnd cfg [] b name asked) :
    WriteSetsAsked cfg b name asked ↔ WriteSets b name asked := by
  have hS : envStrings [] b = [] := by
    rw [hb]
    exact (envStrings_ended (S := []) (by simp) rest).1
  have hleft : stringsLeft b name = [] := by rw [stringsLeft, hS, eraseP_nil]
  have hsecond : b.getD 1 0 ≠ 0 ∨ b.length < 3 := by
    by_cases hlen : b.length < 3
    · exact Or.inr hlen
    · have hlt : 1 < b.length := by omega
      refine Or.inl fun h => h1 ?_
      rw [getElem?_eq_getElem hlt, ← getD_eq_getElem b 0 hlt]
      exact congrArg some h
  cases asked with
  | none =>
    refine iff_of_true ?_ (by rw [WriteSets, hleft, hS]; simp [varValue])
    intro data hst
    obtain ⟨data₁, hb₁, -, hw⟩ := hreach data hst
    rw [hleft] at hb₁
    exact ⟨none, data₁, hw, by rw [hS, strings_of_block hb₁]; exact ⟨rfl, fun _ _ => rfl⟩⟩
  | some v =>
    refine iff_of_false ?_ ?_
    · intro h
      have hst := stored_getD b 0
      obtain ⟨data₁, hb₁, hend, hw⟩ := hreach _ hst
      obtain ⟨err, data', hw', hsets⟩ := h _ hst
      rw [hleft] at hb₁
      rw [hw] at hw'
      obtain ⟨-, rfl⟩ := (hend hleft).resolve_right fun h => h.1 rfl
      have h0 : data' 0 = 0 := appendAsked_singleNul (stored_cons.1 hb₁.stored).1 hsecond hw'
      have hempty : envStrings [] (blockBytes data' b.length) = [] :=
        strings_of_block ⟨by simp, by simpa [stored_cons, stored_nil] using h0, by rw [hb]; simp⟩
      rw [hempty] at hsets
      simpa [varValue] using hsets.1
    · rintro ⟨-, h | ⟨-, -, -, h⟩⟩
      · rw [hleft] at h
        simp [varValue] at h
      · exact h1 (h hS)

theorem writeSetsAsked_ended (hne : ∀ s ∈ S, s.bytes ≠ []) (hb : b = S.flatMap storedString ++ 0 :: rest)
    (hreach : ReachesEnd cfg S b name asked) : WriteSetsAsked cfg b name asked ↔ WriteSets b name asked := by
  by_cases hnul : S = [] → b[1]? = some 0
  · have hS : envStrings [] b = S := by
      rw [hb]
      exact (envStrings_ended hne rest).1
    exact writeSetsAsked_room hS hnul hreach
  · obtain ⟨rfl, h1⟩ := Classical.not_imp.1 hnul
    exact writeSetsAsked_singleNul hb h1 hreach

theorem reachesEnd_unmet (hne : ∀ s ∈ S, s.bytes ≠ []) (hb : b = S.flatMap storedString ++ 0 :: rest)
    (hS : envStrings [] b = S) (hno : ∀ s ∈ S, ¬name.Meets s) : ReachesEnd cfg S b name asked := by
  intro data hst
  have hleft : stringsLeft b name = S := by rw [stringsLeft, hS, (unmet hno).2.2]
  have hstrings := strings_of_ended hne hb hst
  obtain ⟨hstored, h0⟩ := stored_append.1 hstrings.stored
  obtain ⟨fuel, hsearch⟩ := search_behind hne hno hstored (Nat.le_of_lt hstrings.fits)
  have h0 := (stored_cons.1 h0).1
  rw [Nat.zero_add] at h0
  refine ⟨data, by rw [hleft]; exact hstrings, ?_, fwEnvWrite_absent (by rw [hsearch, fwSearch, if_pos h0])⟩
  intro hnil
  rw [hleft] at hnil
  exact Or.inl ⟨hnil, rfl⟩

theorem reachesEnd_defined {A B : List CString} {s : CString} (hne : ∀ u ∈ A ++ s :: B, u.bytes ≠ [])
    (hb : b = (A ++ s :: B).flatMap storedString ++ 0 :: rest) (hS : envStrings [] b = A ++ s :: B)
    (hA : ∀ a ∈ A, ¬name.Meets a) (hs : s.Defines name.beforeEquals) (honce : ¬setOnce cfg name s.afterEquals = true) :
    ReachesEnd cfg (A ++ s :: B) b name asked := by
  intro data hst
  have hleft : stringsLeft b name = A ++ B := by rw [stringsLeft, hS, (defined hA hs).2.2]
  have hstrings := strings_of_ended hne hb hst
  obtain ⟨data₁, hdel, hb₁, hend₁, -⟩ := fwDelete_strings hstrings
  have hlen := length_split A B s (0 :: rest)
  rw [← hb] at hlen
  obtain ⟨val, hfound, honce'⟩ := search_defined cfg (fun a ha => hne a (mem_append_left _ ha)) hA hs
    hstrings.stored (show _ ≤ b.length by omega)
  refine ⟨data₁, by rw [hleft]; exact hb₁, ?_, ?_⟩
  · intro hnil
    rw [hleft] at hnil
    exact Or.inr ⟨by simp, (hend₁ hnil).2⟩
  · rw [fwEnvWrite_found hfound, honce', if_neg honce, hdel]
    rfl

end Ended

/-! ## A block that does not end -/

variable {env : Nat} {t s : CString} {B S A : List CString} {cfg : OnceConfig} {b rest : List UInt8}

theorem entryEnd_none {left i : Nat} (h : ∀ j, i ≤ j → j ≤ i + left → data j ≠ 0) : entryEnd data left i = none := by
  induction left generalizing i with
  | zero => rw [entryEnd, if_neg (h i (Nat.le_refl _) (Nat.le_refl _))]
  | succ left ih =>
    rw [entryEnd, if_neg (h i (Nat.le_refl _) (Nat.le_add_right _ _)), ih fun j hij hj => h j (by omega) (by omega)]

theorem search_notTerminated (henv : env ≤ n) (h : ∀ j, env ≤ j → j ≤ n → data j ≠ 0) (fuel : Nat) :
    fwSearch data n name (fuel + 1) env = some .notTerminated := by
  rw [fwSearch, if_neg (h env (Nat.le_refl _) henv), entryEnd_none fun j hij hj => h j hij (by omega)]

theorem fwMoveDown_open {fuel nxt : Nat} (hlt : env < nxt) (h : ∀ j, nxt ≤ j → data j ≠ 0 ∨ data (j + 1) ≠ 0) :
    fwMoveDown fuel data env nxt = none := by
  induction fuel generalizing data env nxt with
  | zero => rfl
  | succ fuel ih =>
    simp only [fwMoveDown, Function.update_self]
    rw [if_neg, ih (by omega)]
    · intro j hj
      rw [Function.update_of_ne (by omega), Function.update_of_ne (by omega)]
      exact h j (by omega)
    · rw [Function.update_of_ne (by omega)]
      rintro ⟨h1, h2⟩
      exact (h nxt (Nat.le_refl _)).elim (· h1) (· h2)

theorem fwDelete_open {nxt : Nat} (hlt : env < nxt + 1) (h0 : data (nxt + 1) ≠ 0)
    (h : ∀ j, nxt + 1 ≤ j → data j ≠ 0 ∨ data (j + 1) ≠ 0) : fwDelete data n env nxt = none := by
  rw [fwDelete, if_neg h0, fwMoveDown_open hlt h]
  rfl

theorem ne_zero_of_stored {p j : Nat} (hst : Stored data p t.bytes) (hj : p ≤ j)
    (hbehind : p + t.bytes.length ≤ j → data j ≠ 0) : data j ≠ 0 := by
  by_cases hlt : j < p + t.bytes.length
  · have hget := hst (j - p) _ (getElem?_eq_getElem (by omega))
    rw [show p + (j - p) = j by omega] at hget
    rw [hget]
    exact fun h => t.nul_free (h ▸ getElem_mem _)
  · exact hbehind (Nat.le_of_not_lt hlt)

/-- Strings, and bytes without a NUL behind them to the end of the memory, have no two NULs in a row. -/
theorem open_pairs (hne : ∀ s ∈ B, s.bytes ≠ []) {p : Nat}
    (hst : Stored data p (B.flatMap storedString ++ t.bytes))
    (hbehind : ∀ j, p + (B.flatMap storedString ++ t.bytes).length ≤ j → data j ≠ 0) :
    data p ≠ 0 ∧ ∀ j, p ≤ j → data j ≠ 0 ∨ data (j + 1) ≠ 0 := by
  induction B generalizing p with
  | nil =>
    have hall (j : Nat) (hj : p ≤ j) : data j ≠ 0 := ne_zero_of_stored hst hj fun h => hbehind j h
    exact ⟨hall p (Nat.le_refl _), fun j hj => Or.inl (hall j hj)⟩
  | cons s B ih =>
    rw [flatMap_cons, append_assoc, stored_append] at hst
    rw [flatMap_cons, append_assoc, length_append] at hbehind
    have hlen := length_storedString s
    obtain ⟨h0, hpairs⟩ := ih (fun s hs => hne s (mem_cons_of_mem _ hs)) hst.2 fun j hj => hbehind j (by omega)
    refine ⟨(scan_storedString (hne s mem_cons_self) hst.1 (Nat.le_refl _)).1, ?_⟩
    intro j hj
    by_cases hlt : j < p + s.bytes.length
    · exact Or.inl (ne_zero_of_stored (stored_append.1 hst.1).1 hj fun h => by omega)
    · by_cases hend : j = p + s.bytes.length
      · refine Or.inr ?_
        rw [hend, Nat.add_assoc, ← hlen]
        exact h0
      · exact hpairs j (by omega)

/-- A deletion in a block that does not end changes nothing when the variable is not there, as long as the last string is not one
that the search ends at, or one that cannot be deleted. -/
theorem fwEnvWrite_open (hne : ∀ s ∈ S, s.bytes ≠ []) (hno : ∀ s ∈ S, ¬name.Meets s) (hb : b = S.flatMap storedString ++ t.bytes) (hst : Stored data 0 b)
    (ht : t.bytes = [] ∨ ¬name.Meets t ∨ (t.Defines name.beforeEquals ∧ setOnce cfg name t.afterEquals = true)) :
    ∃ err, fwEnvWrite cfg data b.length name none = some (err, data) := by
  have hlen : b.length = (S.flatMap storedString).length + t.bytes.length := by rw [hb, length_append]
  rw [hb, stored_append, Nat.zero_add] at hst
  obtain ⟨fuel, hsearch⟩ := search_behind (n := b.length) hne hno hst.1 (by omega)
  have habsent (h : fwSearch data b.length name (b.length + 2) 0 = some .absent) :
      ∃ err, fwEnvWrite cfg data b.length name none = some (err, data) := ⟨none, fwEnvWrite_absent h⟩
  have hgivenUp (h : fwSearch data b.length name (b.length + 2) 0 = some .notTerminated) :
      ∃ err, fwEnvWrite cfg data b.length name none = some (err, data) := ⟨some .notTerminated, by rw [fwEnvWrite, h]⟩
  by_cases h0 : data b.length = 0
  · -- the first byte behind the block is a NUL, which ends the last string
    by_cases htnil : t.bytes = []
    · refine habsent ?_
      rw [hsearch, fwSearch, if_pos]
      rw [← h0, hlen, htnil]
      rfl
    · have hstt : Stored data (S.flatMap storedString).length (storedString t) := by
        rw [storedString, stored_append, stored_cons, ← hlen]
        exact ⟨hst.2, h0, stored_nil _ _⟩
      rcases ht with ht | ht | ⟨hdef, honce⟩
      · exact absurd ht htnil
      · rw [fwSearch_skip htnil ht hstt (by omega), length_storedString, ← Nat.add_assoc, ← hlen] at hsearch
        by_cases h1 : data (b.length + 1) = 0
        · exact habsent (by rw [hsearch, fwSearch, if_pos h1])
        · refine hgivenUp ?_
          rw [hsearch, fwSearch, if_neg h1, show b.length - (b.length + 1) = 0 by omega, entryEnd, if_neg h1]
      · have hall : Stored data 0 ((S ++ [t]).flatMap storedString ++ []) := by
          rw [append_nil, flatMap_append, flatMap_singleton, stored_append, Nat.zero_add]
          exact ⟨hst.1, hstt⟩
        obtain ⟨val, hfound, hval⟩ := search_defined cfg hne hno hdef hall (Nat.le_of_eq hlen.symm)
        exact ⟨_, by rw [fwEnvWrite_found hfound, hval, if_pos honce]⟩
  · refine hgivenUp ?_
    rw [hsearch]
    refine search_notTerminated (by omega) ?_ _
    intro j hj hjn
    refine ne_zero_of_stored hst.2 hj fun hle => ?_
    rw [show j = b.length by omega]
    exact h0

theorem behind_getD {j : Nat} (h : b.length ≤ j) : b.getD j 1 ≠ 0 := by
  rw [getD_eq_default _ _ h]
  decide

/-- In a block that does not end no variable is set, and none that is there and can be deleted is deleted. -/
theorem not_writeSetsAsked_open (hne : ∀ u ∈ A ++ s :: B, u.bytes ≠ [])
    (hA : ∀ a ∈ A, ¬name.Meets a) (hs : s.Defines name.beforeEquals) (honce : ¬setOnce cfg name s.afterEquals = true) (hb : b = (A ++ s :: B).flatMap storedString ++ t.bytes) (asked : Option CString) :
    ¬WriteSetsAsked cfg b name asked := by
  intro h
  have hst := stored_getD b 1
  obtain ⟨err, data', hw, -⟩ := h _ hst
  have hst' : Stored (fun i => b.getD i 1) 0 ((A ++ s :: B).flatMap storedString ++ t.bytes) := by
    rw [← hb]
    exact hst
  have hlen := length_split A B s t.bytes
  rw [← hb] at hlen
  obtain ⟨val, hfound, hval⟩ := search_defined cfg (fun a ha => hne a (mem_append_left _ ha)) hA hs hst' (show _ ≤ b.length by omega)
  have hlenS := length_storedString s
  obtain ⟨h0, hpairs⟩ := open_pairs (fun u hu => hne u (by simp [hu])) (stored_split hst').2.2 fun j hj => behind_getD (by omega)
  rw [hlenS, ← Nat.add_assoc] at h0 hpairs
  rw [fwEnvWrite_found hfound, hval, if_neg honce, fwDelete_open (by omega) h0 hpairs] at hw
  simp at hw

/-- A deletion that ends at the last string, which has no NUL of its own, leaves the block. -/
theorem not_deleted_open (hne : ∀ s ∈ S, s.bytes ≠ []) (hno : ∀ s ∈ S, ¬name.Meets s) (hb : b = S.flatMap storedString ++ t.bytes) (htnil : t.bytes ≠ []) (ht : name.Meets t)
    (honce : ¬(t.Defines name.beforeEquals ∧ setOnce cfg name t.afterEquals = true)) : ¬WriteSetsAsked cfg b name none := by
  intro h
  have hst := stored_getD (b ++ [0]) 1
  have hbytes : b ++ [0] = (S ++ [t]).flatMap storedString := by
    rw [hb, append_assoc, flatMap_append, flatMap_singleton]
    rfl
  obtain ⟨err, data', hw, -⟩ := h _ (stored_append.1 hst).1
  have hlen := congrArg List.length hbytes
  rw [length_append, length_singleton] at hlen
  have hnxt : (S.flatMap storedString).length + t.bytes.length = b.length := by rw [hb, length_append]
  rw [hbytes] at hst
  rcases ht with hdef | ⟨heq, rfl⟩
  · rw [← append_nil ((S ++ [t]).flatMap storedString)] at hst
    obtain ⟨val, hfound, hval⟩ := search_defined cfg hne hno hdef hst (Nat.le_of_eq hnxt)
    rw [append_nil, ← hbytes] at hfound hval
    have hbehind (j : Nat) (hj : b.length + 1 ≤ j) : (b ++ [0]).getD j 1 ≠ 0 := by
      refine behind_getD ?_
      rw [length_append, length_singleton]
      exact hj
    rw [fwEnvWrite_found hfound, hval, if_neg fun honce' => honce ⟨hdef, honce'⟩, hnxt,
      fwDelete_open (by omega) (hbehind _ (Nat.le_refl _)) fun j hj => Or.inl (hbehind j hj)] at hw
    simp at hw
  · rw [flatMap_append, flatMap_singleton, stored_append, Nat.zero_add] at hst
    obtain ⟨fuel, hsearch⟩ := search_behind (n := b.length) hne hno hst.1 (by omega)
    rw [fwSearch_stuck heq htnil hst.2 (by omega), ← flatMap_singleton (f := storedString), ← flatMap_append, ← hbytes] at hsearch
    rw [fwEnvWrite, hsearch] at hw
    simp at hw

/-- A value is not set in a block that does not end, unless the variable is there. -/
theorem not_set_open (hne : ∀ s ∈ S, s.bytes ≠ []) (hno : ∀ s ∈ S, ¬name.Meets s) (hb : b = S.flatMap storedString ++ t.bytes) (v : CString) :
    ¬WriteSetsAsked cfg b name (some v) := by
  intro h
  have hst := stored_getD b 1
  obtain ⟨err, data', hw, hsets⟩ := h _ hst
  have hlen : b.length = (S.flatMap storedString).length + t.bytes.length := by rw [hb, length_append]
  have hst' := hst
  rw [hb, stored_append, Nat.zero_add, ← hb] at hst'
  obtain ⟨fuel, hsearch⟩ := search_behind (n := b.length) hne hno hst'.1 (by omega)
  have hgivenUp : fwSearch (fun i => b.getD i 1) b.length name (fuel + 2) (S.flatMap storedString).length = some .notTerminated := by
    refine search_notTerminated (by omega) ?_ _
    intro j hj hjn
    exact ne_zero_of_stored hst'.2 hj fun hle => behind_getD (by omega)
  rw [fwEnvWrite, hsearch, hgivenUp] at hw
  obtain ⟨-, rfl⟩ := Prod.mk.inj (some.inj hw)
  have hS : envStrings [] b = S := by
    rw [hb]
    exact (envStrings_open hne t.nul_free).1
  have hsame : blockBytes (fun i => b.getD i 1) b.length = b := blockBytes_stored hst
  rw [hsame, hS] at hsets
  have hnone : varValue S name = none := by
    by_cases heq : chEquals ∈ name.bytes
    · exact varValue_of_equals heq S
    · rw [← beforeEquals_eq_self heq]
      exact (unmet hno).2.1
  exact absurd (hsets.1.symm.trans hnone) (by simp)

/-! ## The condition -/

theorem writeSetsAsked_once (hne : ∀ u ∈ A ++ s :: B, u.bytes ≠ [])
    (hA : ∀ a ∈ A, ¬name.Meets a) (hs : s.Defines name.beforeEquals) (honce : setOnce cfg name s.afterEquals = true) (hb : b = (A ++ s :: B).flatMap storedString ++ rest) (hS : envStrings [] b = A ++ s :: B)
    (asked : Option CString) : WriteSetsAsked cfg b name asked ↔ asked = some s.afterEquals := by
  have hrefused (data : Nat → UInt8) (hst : Stored data 0 b) : fwEnvWrite cfg data b.length name asked = some (some .cantOverwrite, data) := by
    have hlen := length_split A B s rest
    rw [← hb] at hlen
    obtain ⟨val, hfound, hval⟩ := search_defined cfg (fun a ha => hne a (mem_append_left _ ha)) hA hs (hb ▸ hst) (show _ ≤ b.length by omega)
    rw [fwEnvWrite_found hfound, hval, if_pos honce]
  have hval : varValue (A ++ s :: B) name = some s.afterEquals := by
    have h := (defined (B := B) hA hs).2.1
    rwa [beforeEquals_eq_self (equals_notMem_of_once honce)] at h
  constructor
  · intro h
    obtain ⟨err, data', hw, hsets⟩ := h _ (stored_getD b 0)
    rw [hrefused _ (stored_getD b 0)] at hw
    obtain ⟨-, rfl⟩ := Prod.mk.inj (some.inj hw)
    rw [blockBytes_stored (stored_getD b 0), hS] at hsets
    rw [← hsets.1, hval]
  · rintro rfl data hst
    refine ⟨_, data, hrefused data hst, ?_⟩
    rw [blockBytes_stored hst, hS]
    exact ⟨hval, fun _ _ => rfl⟩

/-- The search does not end at a string that is the name itself. -/
theorem not_writeSetsAsked_stuck (hne : ∀ u ∈ A ++ name :: B, u.bytes ≠ [])
    (hA : ∀ a ∈ A, ¬name.Meets a) (heq : chEquals ∉ name.bytes)
    (hb : b = (A ++ name :: B).flatMap storedString ++ rest) (asked : Option CString) : ¬WriteSetsAsked cfg b name asked := by
  intro h
  have hst := stored_getD b 0
  obtain ⟨err, data', hw, -⟩ := h _ hst
  have hlen := length_split A B name rest
  rw [← hb] at hlen
  rw [hb] at hst
  obtain ⟨hstA, hstName, -⟩ := stored_split hst
  rw [← hb] at hstA hstName
  obtain ⟨fuel, hsearch⟩ := search_behind (n := b.length) (fun a ha => hne a (mem_append_left _ ha)) hA hstA (by omega)
  rw [fwSearch_stuck heq (hne name (by simp)) hstName (by omega)] at hsearch
  rw [fwEnvWrite, hsearch] at hw
  simp at hw

/-- Where the name meets no string of a block that does not end, what is asked is done for a deletion only, and by how the search
comes through the last string. -/
theorem writeSetsAsked_unmet_open (hne : ∀ s ∈ S, s.bytes ≠ []) (hno : ∀ s ∈ S, ¬name.Meets s) (hb : b = S.flatMap storedString ++ t.bytes) (asked : Option CString) :
    WriteSetsAsked cfg b name asked ↔ asked = none ∧
      (t.bytes = [] ∨ ¬name.Meets t ∨ (t.Defines name.beforeEquals ∧ setOnce cfg name t.afterEquals = true)) := by
  have hS : envStrings [] b = S := by
    rw [hb]
    exact (envStrings_open hne t.nul_free).1
  cases asked with
  | some v => exact iff_of_false (not_set_open hne hno hb v) (by simp)
  | none =>
    rw [and_iff_right rfl]
    constructor
    · intro h
      by_contra hcon
      rw [not_or, not_or, not_not] at hcon
      exact not_deleted_open hne hno hb hcon.1 hcon.2.1 hcon.2.2 h
    · intro h data hst
      obtain ⟨err, hw⟩ := fwEnvWrite_open hne hno hb hst h
      refine ⟨err, data, hw, ?_⟩
      rw [blockBytes_stored hst, hS]
      refine ⟨?_, fun _ _ => rfl⟩
      by_cases heq : chEquals ∈ name.bytes
      · exact varValue_of_equals heq S
      · rw [← beforeEquals_eq_self heq]
        exact (unmet hno).2.1

/-- A block as `getenv` and the import read it: it ends behind its strings, or does not. -/
theorem block_reads (b : List UInt8) : ∃ S : List CString, (∀ s ∈ S, s.bytes ≠ []) ∧ envStrings [] b = S ∧
    ((∃ rest, b = S.flatMap storedString ++ 0 :: rest ∧ envTail [] b = none) ∨
      ∃ t : CString, b = S.flatMap storedString ++ t.bytes ∧ envTail [] b = some t.bytes) := by
  obtain ⟨S, hne, ⟨rest, rfl⟩ | ⟨t, ht, rfl⟩⟩ := block_cases b
  · obtain ⟨hS, htail⟩ := envStrings_ended hne rest
    exact ⟨S, hne, hS, Or.inl ⟨rest, rfl, htail⟩⟩
  · obtain ⟨hS, htail⟩ := envStrings_open hne ht
    exact ⟨S, hne, hS, Or.inr ⟨⟨t, ht⟩, rfl, htail⟩⟩

/-- A write to a block does what is asked exactly under the condition. -/
theorem writeSetsAsked_iff (cfg : OnceConfig) (b : List UInt8) (name : CString) (asked : Option CString) :
    WriteSetsAsked cfg b name asked ↔ SetCondition cfg b name asked := by
  obtain ⟨S, hne, hS, hend⟩ := block_reads b
  rw [SetCondition, hS]
  rcases first_meets name S with hno | ⟨A, s, B, rfl, hA, hmeets⟩
  · obtain ⟨hmem, hval, -⟩ := unmet hno
    have htake : name ∉ S.takeWhile fun s => !decide (s.Defines name.beforeEquals) :=
      fun h => hmem ((List.takeWhile_prefix _).subset h)
    rw [hval, and_iff_right htake]
    rcases hend with ⟨rest, hb, htail⟩ | ⟨t, hb, htail⟩
    · rw [htail]
      exact writeSetsAsked_ended hne hb (reachesEnd_unmet hne hb hS hno)
    · rw [htail]
      simp only [ofBytes_bytes]
      exact writeSetsAsked_unmet_open hne hno hb asked
  · rcases hmeets with hdef | ⟨heq, rfl⟩
    · obtain ⟨htake, hval, -⟩ := defined (B := B) hA hdef
      have hmem : name ∉ A := fun h => hA name h (meets_self name)
      rw [htake, hval, and_iff_right hmem]
      simp only
      by_cases honce : setOnce cfg name s.afterEquals = true
      · rw [if_pos honce]
        rcases hend with ⟨rest, hb, -⟩ | ⟨t, hb, -⟩
        · exact writeSetsAsked_once hne hA hdef honce hb hS asked
        · exact writeSetsAsked_once hne hA hdef honce hb hS asked
      · rw [if_neg honce]
        rcases hend with ⟨rest, hb, htail⟩ | ⟨t, hb, htail⟩
        · rw [and_iff_right htail]
          exact writeSetsAsked_ended hne hb (reachesEnd_defined hne hb hS hA hdef honce)
        · exact iff_of_false (not_writeSetsAsked_open hne hA hdef honce hb asked) (by simp [htail])
    · refine iff_of_false ?_ ?_
      · rcases hend with ⟨rest, hb, -⟩ | ⟨t, hb, -⟩
        · exact not_writeSetsAsked_stuck hne hA heq hb asked
        · exact not_writeSetsAsked_stuck hne hA heq hb asked
      · have hno : ∀ a ∈ A, ¬a.Defines s.beforeEquals := fun a ha h => hA a ha (Or.inl h)
        have hself : ¬s.Defines s.beforeEquals := fun h => heq h.1
        rintro ⟨htake, -⟩
        refine htake ?_
        rw [takeWhile_append_of_pos fun a ha => by simpa using hno a ha]
        simp [hself]

end FwSetenvAux

open FwSetenvAux

/-- A success of `fw_setenv`, with the flash working, means that the variable is set exactly under the condition. -/
theorem fw_setenv_iff (cfg : OnceConfig) (b : List UInt8) (prog name : CString) (args : List CString) :
    SuccessMeansSet cfg b prog name args ↔ SetCondition cfg b name (askedValue args) := by
  rw [successMeansSet_iff, writeSetsAsked_iff]

/-- `fw_setenv a 22222` where the new entry does not fit: it reports success, and the block has no variable any more. -/
theorem fw_setenv_false : ∃ image, fwSetenv ⟨false, none⟩ (some fun i => [0x61, 0x3D, 0x31, 0, 0, 0, 0, 0].getD i 0) 8 true true
        [⟨[], by decide⟩, ⟨[0x61], by decide⟩, ⟨[0x32, 0x32, 0x32, 0x32, 0x32], by decide⟩] = some (0, some image) ∧
      varValue (envStrings [] [0x61, 0x3D, 0x31, 0, 0, 0, 0, 0]) ⟨[0x61], by decide⟩ = some ⟨[0x31], by decide⟩ ∧
      varValue (envStrings [] image.data) ⟨[0x61], by decide⟩ = none ∧
      ¬SuccessMeansSet ⟨false, none⟩ [0x61, 0x3D, 0x31, 0, 0, 0, 0, 0] ⟨[], by decide⟩ ⟨[0x61], by decide⟩
        [⟨[0x32, 0x32, 0x32, 0x32, 0x32], by decide⟩] := by
  refine ⟨_, rfl, by decide, by decide, ?_⟩
  intro h
  obtain ⟨rc, written, hset, hrc⟩ := h (fun i => [0x61, 0x3D, 0x31, 0, 0, 0, 0, 0].getD i 0) true (stored_getD _ 0)
  obtain ⟨rfl, rfl⟩ := Prod.mk.inj (some.inj hset)
  obtain ⟨image, himage, hsets, -⟩ := hrc rfl
  obtain rfl := some.inj himage
  revert hsets
  decide

end UBoot
