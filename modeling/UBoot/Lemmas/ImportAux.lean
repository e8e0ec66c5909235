import UBoot.Export
import UBoot.Import
import UBoot.Lemmas.Calls

/-!
# What an import reads back

The character loops of `himport_r` on an entry as `hexport_r` writes it, and the loop over the entries into a table without
deleted slots.
-/

namespace UBoot

open Htab HashMapAux List

/-- A name an export can be read back for: not empty, without `=` and without the separator, and not starting with
a blank or a `#`. -/
structure NameOk (sep : UInt8) (k : CString) : Prop where
  ne_nil : k.bytes ≠ []
  no_equals : chEquals ∉ k.bytes
  no_sep : sep ∉ k.bytes
  head : ∀ c, k.bytes.head? = some c → isblank c = false ∧ c ≠ chHash

/-- A separator that neither ends a name early nor escapes: `'\n'` and `'\0'` are two. -/
structure SepOk (sep : UInt8) : Prop where
  ne_equals : sep ≠ chEquals
  ne_backslash : sep ≠ chBackslash

namespace ImportAux

/-! ## The character loops -/

variable {c : UInt8} {v : List UInt8} {k : CString} {h : Htab} {n : Nat} {L : List (CString × CString)}

theorem skipBlanks_of_head (cs : List UInt8) (hc : isblank c = false) : skipBlanks (c :: cs) = some (c :: cs) := by
  rw [skipBlanks, hc]
  rfl

/-- A name ends at the first `=`, NUL or separator. -/
theorem parseName_append (sep : UInt8) {name : List UInt8} (hn : ∀ c ∈ name, c ≠ chEquals ∧ c ≠ 0 ∧ c ≠ sep) {d : UInt8}
    (hd : d = chEquals ∨ d = 0 ∨ d = sep) (rest : List UInt8) :
    parseName sep (name ++ d :: rest) = some (name, d :: rest) := by
  induction name with
  | nil =>
    rw [nil_append, parseName, if_neg]
    rintro ⟨h1, h2, h3⟩
    rcases hd with h | h | h <;> contradiction
  | cons c name ih =>
    rw [cons_append, parseName, if_pos (hn c mem_cons_self), ih fun x hx => hn x (mem_cons_of_mem _ hx)]
    rfl

theorem parseValue_stop (hc : c = 0 ∨ c = sep) (cs : List UInt8) : parseValue sep (c :: cs) = some ([], cs) := by
  unfold parseValue
  rw [if_neg fun h => hc.elim h.1 h.2]

theorem parseValue_plain (hc : c ≠ 0 ∧ c ≠ sep) (hb : c ≠ chBackslash) (cs : List UInt8) :
    parseValue sep (c :: cs) = (parseValue sep cs).map fun r => (c :: r.1, r.2) := by
  rw [parseValue.eq_def]
  simp only [if_pos hc, if_neg hb]

theorem parseValue_escape (hs : chBackslash ≠ sep) (hc : c ≠ 0) (cs : List UInt8) :
    parseValue sep (chBackslash :: c :: cs) = (parseValue sep cs).map fun r => (c :: r.1, r.2) := by
  have hb : chBackslash ≠ 0 ∧ chBackslash ≠ sep := ⟨by decide, hs⟩
  rw [parseValue.eq_def]
  simp only [if_pos hb, if_pos hc, if_true]

theorem parseValue_escaped (hs : SepOk sep) (hv : (0 : UInt8) ∉ v) (rest : List UInt8) :
    parseValue sep (v.flatMap (escapeByte sep) ++ sep :: rest) = some (v, rest) := by
  induction v with
  | nil => exact parseValue_stop (Or.inr rfl) rest
  | cons c v ih =>
    have hc : c ≠ 0 := fun h => hv (h ▸ mem_cons_self)
    have ih' := ih fun h => hv (mem_cons_of_mem _ h)
    rw [flatMap_cons, append_assoc]
    by_cases he : c = sep ∨ c = chBackslash
    · rw [escapeByte, if_pos he, cons_append, cons_append, nil_append, parseValue_escape hs.ne_backslash.symm hc, ih']
      rfl
    · rw [escapeByte, if_neg he, singleton_append, parseValue_plain ⟨hc, fun h => he (Or.inl h)⟩ fun h => he (Or.inr h), ih']
      rfl

theorem isDeleteEntry_escaped (hs : SepOk sep) (hv : (0 : UInt8) ∉ v) (hne : v ≠ [])
    (rest : List UInt8) : isDeleteEntry sep (chEquals :: (v.flatMap (escapeByte sep) ++ rest)) = some false := by
  cases v with
  | nil => exact absurd rfl hne
  | cons c v =>
    have hc : c ≠ 0 := fun h => hv (h ▸ mem_cons_self)
    have h0 : chEquals ≠ 0 := by decide
    rw [flatMap_cons, append_assoc]
    by_cases he : c = sep ∨ c = chBackslash
    · have hb : chBackslash ≠ 0 := by decide
      rw [escapeByte, if_pos he]
      simp [isDeleteEntry, h0, hb, hs.ne_equals.symm, hs.ne_backslash.symm]
    · have hcs : c ≠ sep := fun h => he (Or.inl h)
      rw [escapeByte, if_neg he]
      simp [isDeleteEntry, h0, hc, hs.ne_equals.symm, hcs]

variable {apply : Option ApplyFn} {sep : UInt8} {flag : Nat} {doApply : Bool}

/-- One round of the loop on a name, an `=` and what is read as a value enters the variable. -/
theorem importEntry_named {v : CString} (hk : NameOk sep k) {text rest : List UInt8}
    (hdel : isDeleteEntry sep (chEquals :: text) = some false) (hval : parseValue sep text = some (v.bytes, rest)) (h : Htab)
    (vars : List (Option CString)) :
    importEntry apply sep flag doApply (k.bytes ++ chEquals :: text) h vars =
      importEnter apply flag doApply k v rest h vars := by
  obtain ⟨c, cs, hcs⟩ := exists_cons_of_ne_nil hk.ne_nil
  obtain ⟨hblank, hhash⟩ := hk.head c (by rw [hcs]; rfl)
  have hskip : skipBlanks (k.bytes ++ chEquals :: text) = some (k.bytes ++ chEquals :: text) := by
    rw [hcs]
    exact skipBlanks_of_head _ hblank
  have hhead : (k.bytes ++ chEquals :: text).head? ≠ some chHash := by
    rw [hcs]
    simpa using hhash
  have hname : ∀ c ∈ k.bytes, c ≠ chEquals ∧ c ≠ 0 ∧ c ≠ sep := fun c hc =>
    ⟨fun h => hk.no_equals (h ▸ hc), fun h => k.nul_free (h ▸ hc), fun h => hk.no_sep (h ▸ hc)⟩
  rw [importEntry, hskip]
  simp only [if_neg hhead]
  rw [parseName_append sep hname (Or.inl rfl)]
  simp only [hdel, drop_succ_cons, drop_zero, hval, CString.ofBytes_bytes]

theorem importEntry_exportEntry (hs : SepOk sep) {v : CString} (hk : NameOk sep k) (hv : v.bytes ≠ [])
    (rest : List UInt8) (h : Htab) (vars : List (Option CString)) :
    importEntry apply sep flag doApply (exportEntry sep (k, v) ++ rest) h vars =
      importEnter apply flag doApply k v rest h vars := by
  have hbytes : exportEntry sep (k, v) ++ rest = k.bytes ++ chEquals :: (v.bytes.flatMap (escapeByte sep) ++ sep :: rest) := by
    simp [exportEntry]
  rw [hbytes]
  exact importEntry_named hk (isDeleteEntry_escaped hs v.nul_free hv _) (parseValue_escaped hs v.nul_free rest) h vars

/-! ## The loop over the entries -/

/-- The callback, if it is asked, accepts every value. -/
def Approves (apply : Option ApplyFn) (flag : Nat) (doApply : Bool) : Prop :=
  doApply = true → ∀ f, apply = some f → ∀ name old new, f name old new flag = false

/-- A table of `n` slots, none deleted, that holds exactly the variables listed. -/
structure Filled (h : Htab) (n : Nat) (L : List (CString × CString)) : Prop where
  wf : h.WF
  size_eq : h.size = n
  no_deleted : ∀ i, (h.table i).used ≠ -1
  mem_iff : ∀ k v, hfind h k = some v ↔ (k, v) ∈ L
  nodup : (L.map Prod.fst).Nodup

/-- `filled` is the number of variables listed. -/
theorem Filled.filled_eq (hf : Filled h n L) : h.filled = L.length := by
  have hset : {k | (hfind h k).isSome} = ((L.map Prod.fst).toFinset : Set CString) := by
    ext k
    simp only [Set.mem_ofPred_eq, coe_toFinset, mem_map, Prod.exists, exists_and_right, exists_eq_right, Option.isSome_iff_exists, hf.mem_iff]
  rw [← ncard_keys hf.wf, hset, Set.ncard_coe_finset, toFinset_card_of_nodup hf.nodup, length_map]

theorem Filled.hfind_none (hf : Filled h n L)
    (hk : k ∉ L.map Prod.fst) : hfind h k = none := by
  apply Option.eq_none_iff_forall_ne_some.2
  intro v hv
  exact hk (mem_map.2 ⟨(k, v), (hf.mem_iff k v).1 hv, rfl⟩)

/-- Entering a new variable into such a table, with room left, succeeds and adds the variable to the list. -/
theorem Filled.enter (hf : Filled h n L)
    (hk : k ∉ L.map Prod.fst) (hroom : L.length < n) (v : CString) :
    ∃ r, hsearchR .ok ⟨k, some v⟩ .enter h = some r ∧ r.retval.isSome ∧ Filled r.htab n (L ++ [(k, v)]) := by
  have hnone := hf.hfind_none hk
  have hno := not_holds_of_hfind_none hf.wf.toValid hnone
  have hne : h.filled ≠ h.size := by
    rw [hf.filled_eq, hf.size_eq]
    omega
  have hzero : ∃ i, 1 ≤ i ∧ i ≤ h.size ∧ (h.table i).used = 0 := by
    by_contra hall
    refine hne ((filled_eq_size_iff hf.wf).2 ?_)
    intro i h1 h2
    rcases hf.wf.slots i h1 h2 with h0 | hd | ⟨k', v', hs⟩
    · exact absurd ⟨i, h1, h2, h0⟩ hall
    · exact absurd hd (hf.no_deleted i)
    · exact (hf.wf.used_pos_iff h1 h2).2 ⟨k', v', h1, h2, hs⟩
  obtain ⟨r, j, hr, -, hret, hrep, hw', hfind', hother⟩ := enter_new hf.wf hno hne (Or.inl hzero) v
  refine ⟨r, hr, by rw [hret]; rfl, hw', by rw [hrep.size_eq, hf.size_eq], fun i => ?_, fun k' v' => ?_, ?_⟩
  · by_cases hi : i = j
    · subst hi
      rw [hrep.table_self]
      have := h.hval_pos k
      show ((h.hval k : Nat) : Int) ≠ -1
      omega
    · rw [hrep.table_ne hi]
      exact hf.no_deleted i
  · rw [mem_append, mem_singleton, Prod.mk.injEq]
    by_cases hkk : k' = k
    · subst hkk
      rw [hfind', Option.some.injEq]
      refine ⟨fun h => Or.inr ⟨rfl, h.symm⟩, ?_⟩
      intro h
      rcases h with h | h
      · exact absurd (mem_map.2 ⟨_, h, rfl⟩) hk
      · exact h.2.symm
    · rw [hother k' hkk, hf.mem_iff]
      exact ⟨Or.inl, fun h => h.resolve_right fun h => hkk h.1⟩
  · rw [map_append, map_singleton, nodup_append]
    refine ⟨hf.nodup, nodup_singleton k, ?_⟩
    intro a ha b hb
    rw [mem_singleton] at hb
    rintro rfl
    exact hk (by rwa [hb] at ha)

theorem importEnter_filled (happ : Approves apply flag doApply)
    (hf : Filled h n L) (hk : k ∉ L.map Prod.fst) (hroom : L.length < n) (v : CString) (dp : List UInt8) :
    ∃ h', importEnter apply flag doApply k v dp h [] = some (.next dp h' []) ∧ Filled h' n (L ++ [(k, v)]) := by
  obtain ⟨r, hr, hret, hf'⟩ := hf.enter hk hroom v
  refine ⟨r.htab, ?_, hf'⟩
  have hdrop : dropVarFromSet k [] = (true, []) := rfl
  cases apply with
  | none => simp [importEnter, hdrop, hr, hret]
  | some f =>
    cases doApply with
    | false => simp [importEnter, hdrop, hr, hret]
    | true => simp [importEnter, hdrop, hr, hret, happ rfl f rfl]

theorem importEnter_full (happ : Approves apply flag doApply)
    (hf : Filled h n L) (hk : k ∉ L.map Prod.fst) (hfull : L.length = n) (v : CString) (dp : List UInt8) :
    importEnter apply flag doApply k v dp h [] = some (.insertFailed h) := by
  have hno := not_holds_of_hfind_none hf.wf.toValid (hf.hfind_none hk)
  have hr := enter_full hf.wf.toValid hno (by rw [hf.filled_eq, hf.size_eq, hfull]) v
  have hdrop : dropVarFromSet k [] = (true, []) := rfl
  cases apply with
  | none => simp [importEnter, hdrop, hr]
  | some f =>
    cases doApply with
    | false => simp [importEnter, hdrop, hr]
    | true => simp [importEnter, hdrop, hr, happ rfl f rfl]

/-- The bytes `bs` are an entry of the variable `e`: they do not start with a NUL, and a round of the loop enters `e`. -/
structure Encodes (apply : Option ApplyFn) (sep : UInt8) (flag : Nat) (doApply : Bool) (bs : List UInt8)
    (e : CString × CString) : Prop where
  head : ∃ c cs, bs = c :: cs ∧ c ≠ 0
  enters : ∀ rest h vars, importEntry apply sep flag doApply (bs ++ rest) h vars = importEnter apply flag doApply e.1 e.2 rest h vars

theorem encodes_exportEntry (hs : SepOk sep) {e : CString × CString} (hk : NameOk sep e.1) (hv : e.2.bytes ≠ []) :
    Encodes apply sep flag doApply (exportEntry sep e) e where
  head := by
    obtain ⟨c, cs, hcs⟩ := exists_cons_of_ne_nil hk.ne_nil
    refine ⟨c, _, by rw [exportEntry, hcs]; rfl, fun h => e.1.nul_free ?_⟩
    rw [hcs, h]
    exact mem_cons_self
  enters := importEntry_exportEntry hs hk hv

section Entries

variable {ι : Type} {enc : ι → List UInt8} {var : ι → CString × CString}

theorem importLoop_goes_on {e : ι} (he : Encodes apply sep flag doApply (enc e) (var e)) (M : List ι) (tail : List UInt8) :
    ¬((e :: M).flatMap enc ++ 0 :: tail = [] ∨ ((e :: M).flatMap enc ++ 0 :: tail).head? = some 0) := by
  obtain ⟨c, cs, hcs, hc⟩ := he.head
  simp [hcs, hc]

/-- The loop over entries enters them one after the other and stops at the NUL; without room for all of them it gives up. -/
theorem importLoop_encoded (happ : Approves apply flag doApply) (n : Nat) (tail : List UInt8) (M : List ι)
    (hM : ∀ e ∈ M, Encodes apply sep flag doApply (enc e) (var e)) (hne : M ≠ []) (fuel : Nat) (hfuel : M.length ≤ fuel)
    (h : Htab) (L : List (CString × CString)) (hf : Filled h n L) (hnd : ((L ++ M.map var).map Prod.fst).Nodup)
    (hL : L.length ≤ n) :
    ∃ h', (importLoop apply sep flag doApply fuel (M.flatMap enc ++ 0 :: tail) h [] = some (true, h', []) ∧
        (L ++ M.map var).length ≤ n ∧ Filled h' n (L ++ M.map var)) ∨
      (importLoop apply sep flag doApply fuel (M.flatMap enc ++ 0 :: tail) h [] = some (false, h', []) ∧ n < (L ++ M.map var).length) := by
  induction M generalizing fuel h L with
  | nil => exact absurd rfl hne
  | cons e M ih =>
    obtain ⟨fuel, rfl⟩ : ∃ f, fuel = f + 1 := ⟨fuel - 1, by simp only [length_cons] at hfuel; omega⟩
    have henc := hM e mem_cons_self
    have hkL : (var e).1 ∉ L.map Prod.fst := by
      rw [map_append, map_cons, map_cons, nodup_append] at hnd
      exact fun hmem => hnd.2.2 _ hmem _ mem_cons_self rfl
    have happend : L ++ [var e] ++ M.map var = L ++ (e :: M).map var := by simp
    rw [flatMap_cons, append_assoc, importLoop, henc.enters]
    by_cases hroom : L.length = n
    · rw [importEnter_full happ hf hkL hroom]
      refine ⟨h, Or.inr ⟨rfl, ?_⟩⟩
      rw [length_append, map_cons, length_cons]
      omega
    obtain ⟨h', hent, hf'⟩ := importEnter_filled happ hf hkL (by omega) (var e).2 (M.flatMap enc ++ 0 :: tail)
    have hL' : (L ++ [var e]).length ≤ n := by
      rw [length_append, length_singleton]
      omega
    rw [hent]
    cases M with
    | nil => exact ⟨h', Or.inl ⟨by simp, hL', hf'⟩⟩
    | cons e' M =>
      simp only [if_neg (importLoop_goes_on (hM e' (by simp)) M tail)]
      have ih' := ih (fun e he => hM e (mem_cons_of_mem _ he)) (by simp) fuel
        (by simp only [length_cons] at hfuel ⊢; omega) h' (L ++ [var e]) hf' (by rw [happend]; exact hnd) hL'
      rw [happend] at ih'
      exact ih'

end Entries

theorem importLoop_empty {n : Nat} {h : Htab} (hf : Filled h n []) (fuel : Nat) (rest : List UInt8) :
    importLoop apply sep flag doApply (fuel + 1) (0 :: rest) h [] =
      if rest = [] ∨ rest.head? = some 0 then some (true, h, []) else importLoop apply sep flag doApply fuel rest h [] := by
  have hdel : hdeleteR (CString.ofBytes []) h = some (0, h) :=
    delete_absent hf.wf.toValid (not_holds_of_hfind_none hf.wf.toValid (hf.hfind_none (by simp)))
  have hent : importEntry apply sep flag doApply (0 :: rest) h [] = some (.next rest h []) := by
    rw [importEntry, skipBlanks_of_head _ (by decide)]
    have h1 : (0 : UInt8) ≠ chHash := by decide
    have h2 : (0 : UInt8) ≠ chEquals := by decide
    simp [parseName, isDeleteEntry, importDelete, dropVarFromSet, hdel, h1, h2]
  rw [importLoop, hent]

end ImportAux
end UBoot
