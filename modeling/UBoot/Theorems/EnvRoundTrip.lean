import UBoot.Lemmas.ExportAux
import UBoot.Lemmas.ImportAux
import UBoot.Lemmas.Primes
import UBoot.Theorems.EnvSaved
import UBoot.Theorems.HashMap

/-!
# An import undoes an export

`himport_r` of what `hexport_r` writes makes a table with the same variables, whatever the values hold: the escapes, the
separators, the end of the data and the rule for empty values agree for every separator that is neither `=` nor a backslash.
-/

namespace UBoot

open List

section

open Htab HashMapAux ExportAux ImportAux

/-- A table whose variables an export can be read back for: good names, and no empty value. -/
structure Htab.Exportable (h : Htab) (sep : UInt8) : Prop where
  valid : h.Valid
  name_ok : ∀ k v, hfind h k = some v → NameOk sep k
  value_ok : ∀ k v, hfind h k = some v → v.bytes ≠ []

namespace EnvRoundTripAux
variable {n : Nat} {apply : Option ApplyFn} {sep : UInt8} {doApply : Bool} {h : Htab} {L : List (CString × CString)}


theorem filled_fresh (hp : n.Prime) (h5 : 5 ≤ n) : Filled ⟨fun _ => Slot.zero, n, 0⟩ n [] where
  wf := wf_fresh hp h5
  size_eq := rfl
  no_deleted := fun i => by simp [Slot.zero]
  mem_iff := fun k v => by simp [hfind_fresh hp h5 k]
  nodup := nodup_nil

theorem importEntries_bounds (size : Nat) : 64 ≤ importEntries size ∧ importEntries size ≤ 512 := by
  unfold importEntries CONFIG_ENV_MIN_ENTRIES CONFIG_ENV_MAX_ENTRIES
  omega

theorem importLoop_block {ι : Type} (enc : ι → List UInt8) (var : ι → CString × CString)
    {flag : Nat} (happ : Approves apply flag doApply) {M : List ι}
    (hM : ∀ e ∈ M, Encodes apply sep flag doApply (enc e) (var e)) (hnd : ((M.map var).map Prod.fst).Nodup) (hf : Filled h n []) (tail : List UInt8) (htail : M = [] → ∀ c ∈ tail, c = 0) (fuel : Nat)
    (hfuel : M.length ≤ fuel) :
    ∃ h', (importLoop apply sep flag doApply (fuel + 1) (M.flatMap enc ++ 0 :: tail) h [] = some (true, h', []) ∧
        M.length ≤ n ∧ Filled h' n (M.map var)) ∨
      (importLoop apply sep flag doApply (fuel + 1) (M.flatMap enc ++ 0 :: tail) h [] = some (false, h', []) ∧ n < M.length) := by
  by_cases hne : M = []
  · subst hne
    obtain ⟨m, rfl⟩ : ∃ m, tail = List.replicate m 0 := ⟨tail.length, eq_replicate_iff.2 ⟨rfl, htail rfl⟩⟩
    have hstop : List.replicate m (0 : UInt8) = [] ∨ (List.replicate m (0 : UInt8)).head? = some 0 := by cases m <;> simp [replicate_succ]
    exact ⟨h, Or.inl ⟨(importLoop_empty hf fuel _).trans (if_pos hstop), Nat.zero_le n, hf⟩⟩
  · have hloop := importLoop_encoded happ n tail M hM hne (fuel + 1) (by omega) h [] hf (by simpa using hnd) (Nat.zero_le n)
    simpa only [nil_append, length_map] using hloop

theorem hfind_eq_of_lists {h' : Htab} (hl : Lists h L) (hf : Filled h' n L)
    (k : CString) : hfind h' k = hfind h k := by
  apply Option.ext
  intro v
  rw [hf.mem_iff, hl.mem_iff]

/-- An import of an export: with room for the variables it returns 1 and leaves a table that finds what the exported one
finds, without room it returns 0. -/
theorem himportR_hexportR (hs : SepOk sep) (hx : h.Exportable sep) {callocOk respGiven : Bool}
    {size : Nat} {env : List UInt8} (he : hexportR callocOk respGiven h sep size [] = some (.ok env)) {t : Htab}
    (ht : hcreateR true (importEntries env.length) none = some t)
    (happ : Approves apply 0 doApply) (old : Option Htab) :
    ∃ h', (himportR true true apply old env sep 0 [] doApply = some (1, some h') ∧
        {k | (hfind h k).isSome}.ncard ≤ t.size ∧ h'.WF ∧ ∀ k, hfind h' k = hfind h k) ∨
      (himportR true true apply old env sep 0 [] doApply = some (0, some h') ∧ t.size < {k | (hfind h k).isSome}.ncard) := by
  obtain ⟨L, m, hl, henv⟩ := hexportR_eq hx.valid he
  obtain ⟨n, hn, hp, hle, -⟩ := hcreateR_spec (importEntries env.length)
    (by have := importEntries_bounds env.length; omega) (by have := importEntries_bounds env.length; omega)
  obtain rfl : _ = t := Option.some.inj (hn.symm.trans ht)
  have hL : ∀ e ∈ L, NameOk sep e.1 ∧ e.2.bytes ≠ [] := by
    rintro ⟨k, v⟩ hkv
    have hf := (hl.mem_iff k v).1 hkv
    exact ⟨hx.name_ok k v hf, hx.value_ok k v hf⟩
  have hfuel : L.length ≤ env.length := by
    have := length_le_flatMap sep L
    rw [henv, length_append]
    omega
  have hfresh := filled_fresh hp (by have := importEntries_bounds env.length; omega)
  have htab : importTable true 0 env.length old = some ⟨fun _ => Slot.zero, n, 0⟩ := by
    simpa [importTable, noclear] using hn
  obtain ⟨h', hloop⟩ := importLoop_block (exportEntry sep) id happ
    (fun e he => encodes_exportEntry hs (hL e he).1 (hL e he).2) (by simpa using hl.nodup) hfresh (List.replicate m 0)
    (fun _ c hc => eq_of_mem_replicate hc) env.length hfuel
  rw [← henv, hl.length_eq, map_id] at hloop
  refine ⟨h', ?_⟩
  rcases hloop with ⟨hloop, hroom, hf'⟩ | ⟨hloop, hroom⟩
  · exact Or.inl ⟨by simp [himportR, htab, hloop, deleteLeft], hroom, hf'.wf, hfind_eq_of_lists hl hf'⟩
  · exact Or.inr ⟨by simp [himportR, htab, hloop], hroom⟩

end EnvRoundTripAux

open EnvRoundTripAux

/-- An import undoes an export: for a newline or a NUL as the separator, importing what an export of all variables wrote,
into a table with room for them, returns 1 and leaves a table that finds exactly what the exported one finds. -/
theorem himport_undoes_hexport (sep : UInt8) (hs : sep = chNewline ∨ sep = 0) (h : Htab) (hx : h.Exportable sep)
    (callocOk respGiven : Bool) (size : Nat) (env : List UInt8)
    (he : hexportR callocOk respGiven h sep size [] = some (.ok env)) (t : Htab)
    (ht : hcreateR true (importEntries env.length) none = some t) (hroom : {k | (hfind h k).isSome}.ncard ≤ t.size)
    (apply : Option ApplyFn) (doApply : Bool) (happ : Approves apply 0 doApply) (old : Option Htab) :
    ∃ h', himportR true true apply old env sep 0 [] doApply = some (1, some h') ∧ h'.WF ∧
      (∀ k, hfind h' k = hfind h k) ∧ h'.filled = {k | (hfind h k).isSome}.ncard := by
  have hsep : SepOk sep := by
    rcases hs with rfl | rfl <;> exact ⟨by decide, by decide⟩
  obtain ⟨h', ⟨himp, -, hw, hfind'⟩ | ⟨-, hno⟩⟩ := himportR_hexportR hsep hx he ht happ old
  swap
  · omega
  refine ⟨h', himp, hw, hfind', ?_⟩
  simp only [← ncard_keys hw, hfind']

/-- A value of a backslash, a newline and an equals sign. -/
def oddValue : CString := CString.ofBytes [chBackslash, chNewline, chEquals]

/-- A table with the one variable `a`. -/
def oneVariable (v : CString) : Htab :=
  ((hsearchR .ok ⟨oneChar 0x61, some v⟩ .enter fiveSlots).map (·.htab)).getD fiveSlots

namespace EnvRoundTripAux

theorem oneChar_nameOk {c : UInt8} (h0 : c ≠ 0) (he : c ≠ chEquals) (hh : c ≠ chHash) (hb : isblank c = false) :
    NameOk 0 (oneChar c) := by
  have hbytes : (oneChar c).bytes = [c] := by simp [oneChar, CString.ofBytes, h0]
  refine ⟨by simp [hbytes], by simp [hbytes, he.symm], by simp [hbytes, h0.symm], ?_⟩
  intro d hd
  obtain rfl : c = d := by simpa [hbytes] using hd
  exact ⟨hb, hh⟩

theorem oneVariable_filled (v : CString) : Filled (oneVariable v) 5 [(oneChar 0x61, v)] := by
  obtain ⟨r, hr, -, hf⟩ := (filled_fresh (n := 5) (by decide) (by decide)).enter (k := oneChar 0x61) (by simp) (by decide) v
  have he : oneVariable v = r.htab := by
    unfold oneVariable fiveSlots
    rw [hr]
    rfl
  rw [he]
  exact hf

theorem oneVariable_exportable {sep : UInt8} (hs : sep = chNewline ∨ sep = 0) {v : CString} (hv : v.bytes ≠ []) :
    (oneVariable v).Exportable sep := by
  have hkv (k u : CString) (h : hfind (oneVariable v) k = some u) : k = oneChar 0x61 ∧ u = v := by
    simpa using ((oneVariable_filled v).mem_iff k u).1 h
  refine ⟨(oneVariable_filled v).wf.toValid, ?_, ?_⟩
  · intro k u h
    rw [(hkv k u h).1]
    have hsep : sep ∉ (oneChar 0x61).bytes := by
      rcases hs with rfl | rfl <;> decide
    refine ⟨by decide, by decide, hsep, ?_⟩
    rintro c ⟨⟩
    decide
  · intro k u h
    rw [(hkv k u h).2]
    exact hv

theorem hfind_oneVariable (v : CString) : hfind (oneVariable v) (oneChar 0x61) = some v :=
  ((oneVariable_filled v).mem_iff _ _).2 (by simp)

theorem oneVariable_room (v : CString) {nel n : Nat} (h : 64 ≤ nel) (hle : nel ≤ n) : {k | (hfind (oneVariable v) k).isSome}.ncard ≤ n := by
  rw [ncard_keys (oneVariable_filled v).wf, (oneVariable_filled v).filled_eq, length_singleton]
  omega

end EnvRoundTripAux

/-- The round trip at a table with an odd value, with a newline as the separator. -/
theorem himport_undoes_hexport_odd : ∃ env t h', hexportR true false (oneVariable oddValue) chNewline 0 [] = some (.ok env) ∧
    hcreateR true (importEntries env.length) none = some t ∧
    {k | (hfind (oneVariable oddValue) k).isSome}.ncard ≤ t.size ∧
    himportR true true none none env chNewline 0 [] false = some (1, some h') ∧
    hfind h' (oneChar 0x61) = some oddValue := by
  obtain ⟨env, henv⟩ : ∃ env, hexportR true false (oneVariable oddValue) chNewline 0 [] = some (.ok env) := ⟨_, rfl⟩
  have hb := importEntries_bounds env.length
  obtain ⟨n, hn, -, hle, -⟩ := hcreateR_spec (importEntries env.length) (by omega) (by omega)
  have hroom := oneVariable_room oddValue hb.1 hle
  obtain ⟨h', himp, -, hfind', -⟩ := himport_undoes_hexport chNewline (Or.inl rfl) (oneVariable oddValue)
    (oneVariable_exportable (Or.inl rfl) (by decide)) true false 0 env henv _ hn hroom none false (by intro h; cases h) none
  exact ⟨env, _, h', henv, hn, hroom, himp, (hfind' _).trans (hfind_oneVariable oddValue)⟩

end

/-! ## Variables survive a loss of power -/

section

open Lib EnvSfAux EnvRoundTripAux ImportAux

/-- `data` is what `saveenv` exports of a table that an import can read back and has room for. -/
def Exported (size : Nat) (h : Htab) (data : List UInt8) : Prop :=
  h.Exportable 0 ∧ hexportR true true h 0 size [] = some (.ok data) ∧ {k | (hfind h k).isSome}.ncard ≤ importEntries data.length

/-- A device in SPI flash, with the record of what was saved. -/
abbrev SfSys := SaveSys (Sf (List UInt8)) (List UInt8)

/-- A step that saves what was exported. -/
def SavesExport (size : Nat) (_ : SfSys) (op : SaveOp (SfSave (List UInt8)) (List UInt8)) : Prop :=
  ∀ data o, op = .save data o → ∃ h, Exported size h data

/-- A boot finds the variables of a table that was saved last, or later and completely. -/
def BootFinds (size : Nat) (s : SfSys) : Prop :=
  ∃ data h, s.state.boot.1 = some data ∧ (s.saved.last = some data ∨ data ∈ s.saved.later) ∧ Exported size h data ∧
    ∀ apply old, ∃ h', himportR true true apply old data 0 0 [] false = some (1, some h') ∧ ∀ k, hfind h' k = hfind h k

/-- **Variables survive**: over every run of reboots and of saves that may fail or lose the power, once a `saveenv` has returned 0 a boot
finds what was saved. -/
theorem saved_variables_survive (embedded : Bool) (size : Nat) (s₀ s : SfSys) (h₀ : s₀.saved = ⟨none, []⟩) (ops : List (SaveOp _ _))
    (hrun : Exec (Guarded (SavesExport size) (stepFn (sfDriver embedded).step)) s₀ ops s) (hlast : s.saved.last.isSome) :
    BootFinds size s := by
  have hsafe : s.state.Safe s.saved.wanted :=
    SaveDriver.safe_of_exec Sf.Safe (fun _ _ => safe_boot) (fun _ _ data o hs hne => safe_attempt hs data o hne)
      (fun _ h _ _ _ hend => safe_success h hend) (SaveDriver.exec_guarded (hrun.mono fun _ _ _ h => h.2)) (by rw [h₀]) hlast
  have hstep : ∀ s op s', (∀ data ∈ s.saved.wanted, ∃ h, Exported size h data) →
      Guarded (SavesExport size) (stepFn (sfDriver embedded).step) s op s' → ∀ data ∈ s'.saved.wanted, ∃ h, Exported size h data := by
    rintro s op s' hs ⟨hsaves, rfl⟩ d hd
    cases op with
    | reboot => exact hs d hd
    | save data o =>
      have hnew : d = data ∨ d ∈ s.saved.wanted := by
        simp only [SaveDriver.step] at hd
        split at hd <;> simp only [Saved.wanted, Saved.success, Saved.attempt, Set.mem_ofPred_eq] at hd ⊢ <;> grind
      rcases hnew with rfl | hd
      · exact hsaves d o rfl
      · exact hs d hd
  obtain ⟨i, hi, hd⟩ := Safe.exists_choose sfChoose_rule hsafe
  obtain ⟨h, hx, he, hroom⟩ := hrun.invariant hstep (by simp [h₀, Saved.wanted]) _ hd
  refine ⟨_, h, by simp [Sf.boot, Sf.envRelocateSpec, hi], hd, ⟨hx, he, hroom⟩, fun apply old => ?_⟩
  have hb := importEntries_bounds (s.state.flash i).data.length
  obtain ⟨n, hn, -, hle, -⟩ := hcreateR_spec (importEntries (s.state.flash i).data.length) (by omega) (by omega)
  have happ : Approves apply 0 false := fun h => absurd h (by decide)
  obtain ⟨h', ⟨himp, -, -, hfind'⟩ | ⟨-, hno⟩⟩ := himportR_hexportR ⟨by decide, by decide⟩ hx he hn happ old
  · exact ⟨h', himp, hfind'⟩
  · exact absurd (Nat.le_trans hroom hle) (Nat.not_le.2 hno)

theorem saved_variables_survive_one : ∃ env s, hexportR true true (oneVariable (oneChar 0x31)) 0 32 [] = some (.ok env) ∧
    s.saved.last = some env ∧ BootFinds 32 s := by
  obtain ⟨env, henv⟩ : ∃ env, hexportR true true (oneVariable (oneChar 0x31)) 0 32 [] = some (.ok env) := ⟨_, rfl⟩
  have hroom := oneVariable_room (oneChar 0x31) (importEntries_bounds env.length).1 (Nat.le_refl _)
  have hx : Exported 32 _ env := ⟨oneVariable_exportable (Or.inr rfl) (by decide), henv, hroom⟩
  have hsave : ∀ s o, SavesExport 32 s (.save env o) := by
    rintro s o _ _ ⟨⟩
    exact ⟨_, hx⟩
  exact ⟨env, _, henv, rfl, saved_variables_survive true 32 ⟨⟨fun _ => ⟨[], false, 255⟩, .one⟩, ⟨none, []⟩⟩ _ rfl
    [.save env ⟨true, .ok, .ok, .ok, .ok, .ok⟩, .save env ⟨true, .ok, .cut .untouched, .ok, .ok, .ok⟩]
    (.cons ⟨hsave _ _, rfl⟩ (.cons ⟨hsave _ _, rfl⟩ (.nil _))) rfl⟩

end

/-!
## The room an export takes

Pass 1 of `hexport_r` counts the escapes only for a separator other than NUL; pass 2 writes them whatever it is.
-/

section

open Htab ExportAux

/-- The backslashes in the values of some entries. -/
def backslashes (list : List (CString × CString)) : Nat := (list.map fun e => e.2.bytes.count chBackslash).sum

/-- What pass 2 of `hexport_r` writes from `*resp` on. -/
def exportPass2 (sep : UInt8) (list : List (CString × CString)) : List UInt8 :=
  (qsort cmpkey list).flatMap (exportEntry sep) ++ [0]

namespace ExportBoundsAux

theorem length_escapes (sep : UInt8) (bs : List UInt8) :
    (bs.flatMap (escapeByte sep)).length = bs.length + (bs.filter fun c => c = sep ∨ c = chBackslash).length := by
  induction bs with
  | nil => rfl
  | cons c bs ih =>
    rw [flatMap_cons, length_append, ih]
    by_cases hc : c = sep ∨ c = chBackslash
    · rw [filter_cons_of_pos (by simpa using hc), escapeByte, if_pos hc]
      simp only [length_cons, length_nil]
      omega
    · rw [filter_cons_of_neg (by simpa using hc), escapeByte, if_neg hc]
      simp only [length_cons, length_nil]
      omega

theorem escapes_nul (v : CString) : (v.bytes.filter fun c => c = 0 ∨ c = chBackslash).length = v.bytes.count chBackslash := by
  rw [List.count, countP_eq_length_filter]
  congr 1
  refine filter_congr fun c hc => ?_
  have h0 : c ≠ 0 := fun h => v.nul_free (h ▸ hc)
  by_cases hb : c = chBackslash <;> simp [h0, hb]

theorem length_exportEntry (sep : UInt8) (e : CString × CString) : (exportEntry sep e).length + 2 =
      e.1.bytes.length + 2 + valueRoom sep e.2 + 2 + if sep = 0 then e.2.bytes.count chBackslash else 0 := by
  unfold exportEntry valueRoom
  rw [length_append, length_cons, length_append, length_escapes, length_singleton]
  by_cases hs : sep = 0
  · subst hs
    rw [escapes_nul, if_pos rfl, if_pos rfl]
    omega
  · rw [if_neg hs, if_neg hs]
    omega

/-- The bytes pass 2 writes for some entries, against `totlen`. -/
theorem length_entries (sep : UInt8) (list : List (CString × CString)) : (list.flatMap (exportEntry sep)).length + 2 * list.length =
      totlen sep list + if sep = 0 then backslashes list else 0 := by
  induction list with
  | nil => by_cases hs : sep = 0 <;> simp [totlen, backslashes, hs]
  | cons e list ih =>
    have he := length_exportEntry sep e
    have htot : totlen sep (e :: list) = e.1.bytes.length + 2 + valueRoom sep e.2 + 2 + totlen sep list := rfl
    have hback : backslashes (e :: list) = e.2.bytes.count chBackslash + backslashes list := rfl
    rw [flatMap_cons, length_append, length_cons, htot, hback]
    split_ifs at ih he ⊢ <;> omega

theorem length_exportPass2 (sep : UInt8) (list : List (CString × CString)) : (exportPass2 sep list).length + 2 * list.length =
      totlen sep list + 1 + if sep = 0 then backslashes list else 0 := by
  have hsort : ((qsort cmpkey list).flatMap (exportEntry sep)).length = (list.flatMap (exportEntry sep)).length :=
    ((qsort_perm cmpkey list).flatMap_right (exportEntry sep)).length_eq
  have hlen := length_entries sep list
  rw [exportPass2, length_append, length_singleton, hsort]
  omega

end ExportBoundsAux

open ExportBoundsAux

/-- For every table, separator, selection (`list` are the entries selected) and size other than 0, an export returns `-1` or writes at most
`size` bytes exactly when the separator is not NUL, or it returns `-1`, or the backslashes in the values are at most two for each
entry and what the buffer has beyond the room of pass 1. The length of pass 1 bounds what pass 2 writes exactly when the separator is
not NUL or the backslashes are at most two for each entry. -/
theorem hexport_stays_inside_iff (h : Htab) (sep : UInt8) (argv : List CString) (list : List (CString × CString))
    (hlist : h.usedEntries argv (List.range' 1 h.size) = some list) :
    (∀ (callocOk respGiven : Bool) (size : Nat), 0 < size → ((hexportR callocOk respGiven h sep size argv = some (.error .ENOMEM) ∨
          (hexportR callocOk respGiven h sep size argv).isSome ∧ (exportPass2 sep list).length ≤ size) ↔
        sep ≠ 0 ∨ size < totlen sep list + 1 ∨ (respGiven = false ∧ callocOk = false) ∨
          backslashes list ≤ 2 * list.length + (size - (totlen sep list + 1)))) ∧
    ((exportPass2 sep list).length ≤ totlen sep list + 1 ↔ sep ≠ 0 ∨ backslashes list ≤ 2 * list.length) := by
  have hlen := length_exportPass2 sep list
  refine ⟨?_, ?_⟩
  · intro callocOk respGiven size hsize
    have hout : ((qsort cmpkey list).flatMap (exportEntry sep) ++ [0]).length = (exportPass2 sep list).length := rfl
    rw [hexportR, hlist]
    simp only [ne_eq, show size ≠ 0 by omega, not_false_eq_true, true_and, if_true, hout]
    by_cases hsmall : size < totlen sep list + 1
    · simp [hsmall]
    by_cases hmem : respGiven = false ∧ callocOk = false
    · simp [hsmall, hmem.1, hmem.2]
    have hmem' : (!respGiven && !callocOk) = false := by
      revert hmem
      cases respGiven <;> cases callocOk <;> simp
    simp only [hsmall, hmem, hmem', if_false, Bool.false_eq_true, false_or]
    by_cases hfit : (exportPass2 sep list).length ≤ size
    · simp only [hfit, if_true, Option.isSome_some, and_true, or_true, true_iff]
      split_ifs at hlen with hs
      · exact Or.inr (by omega)
      · exact Or.inl hs
    · simp only [hfit, if_false, Option.isSome_none, and_false, or_false, reduceCtorEq, false_iff]
      split_ifs at hlen with hs
      · subst hs
        simp only [not_true_eq_false, false_or]
        omega
      · omega
  · split_ifs at hlen with hs
    · simp only [hs, ne_eq, not_true_eq_false, false_or] at hlen ⊢
      omega
    · simp only [hs, ne_eq, not_false_eq_true, true_or, iff_true]
      omega

/-- A value of three backslashes. -/
def threeBackslashes : CString := CString.ofBytes [chBackslash, chBackslash, chBackslash]

/-- With a newline as the separator the export of a variable with three backslashes stays inside a buffer of exactly the length asked for. -/
theorem hexport_stays_inside_newline : (hexportR true true (oneVariable threeBackslashes) chNewline 12 []).isSome ∧
      (exportPass2 chNewline [(oneChar 0x61, threeBackslashes)]).length ≤ 12 := by
  have hlist : (oneVariable threeBackslashes).usedEntries [] (List.range' 1 (oneVariable threeBackslashes).size) =
      some [(oneChar 0x61, threeBackslashes)] := rfl
  have hiff := (hexport_stays_inside_iff _ chNewline [] _ hlist).1 true true 12 (by decide)
  rcases hiff.2 (Or.inl (by decide)) with herr | hok
  · have hok : (hexportR true true (oneVariable threeBackslashes) chNewline 12 []) ≠ some (.error .ENOMEM) := by
      intro h
      cases h
    exact absurd herr hok
  · exact hok

/-- With NUL as the separator it does not: the nine bytes that pass 1 asks for are taken, and ten are written. -/
theorem hexport_stays_inside_false : (oneVariable threeBackslashes).usedEntries [] (List.range' 1 (oneVariable threeBackslashes).size) =
      some [(oneChar 0x61, threeBackslashes)] ∧
    totlen 0 [(oneChar 0x61, threeBackslashes)] + 1 = 9 ∧
    (exportPass2 0 [(oneChar 0x61, threeBackslashes)]).length = 10 ∧
    hexportR true true (oneVariable threeBackslashes) 0 9 [] = none :=
  ⟨rfl, rfl, rfl, rfl⟩

end

end UBoot
