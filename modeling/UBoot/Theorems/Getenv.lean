import UBoot.Lemmas.StoredEnv
import UBoot.Theorems.EnvRoundTrip

/-!
# Reading a variable before and after relocation

`hexport_r` escapes a backslash for every separator; `himport_r` undoes the escape and `getenv_f` does not.
-/

namespace UBoot

open Lib Htab HashMapAux ExportAux ImportAux StoredEnvAux EnvRoundTripAux List Option

namespace GetenvAux

variable {envGetChar : Nat → UInt8}
variable {val : Nat} {w : List UInt8}

/-! ## The loops -/

theorem copyOut_fits (h0 : (0 : UInt8) ∉ w) {left n : Nat} (buf : Nat → UInt8)
    (hst : Stored envGetChar (val + n) (w ++ [0])) (hfit : w.length < left) :
    copyOut envGetChar val left n buf = (n + w.length, store buf n (w ++ [0])) := by
  induction w generalizing left n buf with
  | nil =>
    obtain ⟨left, rfl⟩ : ∃ l, left = l + 1 := ⟨left - 1, by simp at hfit; omega⟩
    obtain ⟨h, -⟩ := stored_cons.1 hst
    simp only [copyOut, h, if_true, length_nil, Nat.add_zero, nil_append, store_cons]
    congr 1
    funext b
    rw [store_of_outside (by simp; omega)]
  | cons c w ih =>
    obtain ⟨left, rfl⟩ : ∃ l, left = l + 1 := ⟨left - 1, by simp at hfit; omega⟩
    obtain ⟨h, hst⟩ := stored_cons.1 hst
    have hc : c ≠ 0 := fun he => h0 (he ▸ mem_cons_self)
    have hfit' : w.length < left := by simpa using hfit
    rw [copyOut]
    simp only [h, if_neg hc]
    rw [ih (fun he => h0 (mem_cons_of_mem _ he)) _ hst hfit', cons_append, store_cons, length_cons, Nat.add_assoc, Nat.add_comm 1]

theorem copyOut_short (h0 : (0 : UInt8) ∉ w) {left n : Nat} (buf : Nat → UInt8)
    (hst : Stored envGetChar (val + n) (w ++ [0])) (hfit : left ≤ w.length) :
    (copyOut envGetChar val left n buf).1 = n + left := by
  induction left generalizing w n buf with
  | zero => rfl
  | succ left ih =>
    cases w with
    | nil => simp at hfit
    | cons c w =>
      obtain ⟨h, hst⟩ := stored_cons.1 hst
      have hc : c ≠ 0 := fun he => h0 (he ▸ mem_cons_self)
      rw [copyOut]
      simp only [h, if_neg hc]
      rw [ih (fun he => h0 (mem_cons_of_mem _ he)) _ hst (by simpa using hfit), Nat.add_assoc, Nat.add_comm 1]

/-! ## The scan -/

/-- The scan of `getenv_f` is the one of the Linux tool, followed by the copy. -/
theorem getenvLoop_eq_fwSearch (envSize : Nat) (name : CString) (buf : Nat → UInt8) (len fuel i : Nat) :
    getenvLoop envGetChar envSize name buf len fuel i =
      match fwSearch envGetChar envSize name fuel i with
      | none => none
      | some (.found _ _ val) => some (((copyOut envGetChar val len 0 buf).1 : Int), (copyOut envGetChar val len 0 buf).2)
      | some _ => some (-1, buf) := by
  induction fuel generalizing i with
  | zero => rfl
  | succ fuel ih =>
    rw [getenvLoop, fwSearch]
    by_cases h0 : envGetChar i = 0
    · rw [if_pos h0, if_pos h0]
    · rw [if_neg h0, if_neg h0]
      cases entryEnd envGetChar (envSize - i) i with
      | none => rfl
      | some nxt =>
        simp only
        cases envmatch envGetChar name.bytes i with
        | none => rfl
        | some o =>
          cases o with
          | none => exact ih (nxt + 1)
          | some val => rfl

/-- `getenv_f` on the export of a table, before relocation: it copies the stored value of the variable that the string names
up to its first equals sign, or returns `-1`. -/
theorem getenvF_hexportR {h : Htab} (hx : h.Exportable 0) {callocOk respGiven : Bool} {size : Nat} {env : List UInt8}
    (he : hexportR callocOk respGiven h 0 size [] = some (.ok env)) (hst : Stored envGetChar 0 env) {envSize : Nat}
    (hsize : env.length ≤ envSize) (name : CString) (buf : Nat → UInt8) (len : Nat) :
    (∀ v, hfind h name.beforeEquals = some v → ∃ val, Stored envGetChar val (escaped v ++ [0]) ∧ getenvF envGetChar envSize name buf len =
        some (((copyOut envGetChar val len 0 buf).1 : Int), (copyOut envGetChar val len 0 buf).2)) ∧
    (hfind h name.beforeEquals = none → getenvF envGetChar envSize name buf len = some (-1, buf)) := by
  obtain ⟨L, m, hl, henv⟩ := hexportR_eq hx.valid he
  have hlen : env.length = (L.flatMap (exportEntry 0)).length + 1 + m := by
    rw [henv, length_append, length_cons, length_replicate]
    omega
  rw [henv, ← singleton_append, ← append_assoc, stored_append, flatMap_exportEntry] at hst
  rw [flatMap_exportEntry] at hlen
  have hnames : ∀ e ∈ L.map escapedEntry, chEquals ∉ e.1.bytes := by
    rintro ⟨k, t⟩ hkt
    obtain ⟨v, -, hkv⟩ := exists_of_mem_escapedEntry hkt
    exact (hx.name_ok k v ((hl.mem_iff k v).1 hkv)).no_equals
  obtain ⟨hsome, hnone⟩ := fwSearch_block envSize name hnames (by rw [map_fst_escapedEntry]; exact hl.nodup) hst.1 (by omega)
  rw [getenvF, getenvLoop_eq_fwSearch]
  refine ⟨?_, ?_⟩
  · intro v hv
    obtain ⟨env, nxt, val, hstv, hs⟩ := hsome (escapedString v) (mem_escapedEntry ((hl.mem_iff _ _).2 hv))
    exact ⟨val, hstv, by rw [hs]⟩
  · intro hno
    rw [hnone fun v hv => ?_]
    obtain ⟨u, -, hu⟩ := exists_of_mem_escapedEntry hv
    rw [(hl.mem_iff _ _).1 hu] at hno
    cases hno

end GetenvAux

open GetenvAux

/-- The two readers agree on a name: when the table finds a value, `getenv_f` returns its length and leaves it in the buffer, and
when the table finds nothing, it returns `-1`. -/
def ReadsAlike (envGetChar : Nat → UInt8) (envSize : Nat) (name : CString) (buf : Nat → UInt8) (len : Nat) (h : Htab) : Prop :=
  match hfind h name with
  | some v => ∃ buf', getenvF envGetChar envSize name buf len = some ((v.bytes.length : Int), buf') ∧ Stored buf' 0 (v.bytes ++ [0])
  | none => ∃ buf', getenvF envGetChar envSize name buf len = some (-1, buf')

/-- For every table and name, and a buffer longer than the value, reading before relocation agrees with reading after it exactly
when the value has no backslash and, if the name has an equals sign, no variable is named by what stands before it. -/
theorem getenv_f_agrees_iff (h : Htab) (hx : h.Exportable 0) (callocOk respGiven : Bool) (size : Nat) (env : List UInt8)
    (he : hexportR callocOk respGiven h 0 size [] = some (.ok env)) (apply : Option ApplyFn) (doApply : Bool)
    (happ : Approves apply 0 doApply) (old : Option Htab) (h' : Htab)
    (himp : himportR true true apply old env 0 0 [] doApply = some (1, some h')) (envGetChar : Nat → UInt8)
    (hst : Stored envGetChar 0 env) (envSize : Nat) (hsize : env.length ≤ envSize) (name : CString) (buf : Nat → UInt8)
    (len : Nat) (hlen : ∀ v, hfind h' name = some v → v.bytes.length < len) :
    ReadsAlike envGetChar envSize name buf len h' ↔ (∀ v, hfind h name = some v → chBackslash ∉ v.bytes) ∧
        (chEquals ∈ name.bytes → hfind h name.beforeEquals = none) := by
  obtain ⟨n, hn, -⟩ := hcreateR_spec (importEntries env.length)
    (by have := importEntries_bounds env.length; omega) (by have := importEntries_bounds env.length; omega)
  have hfind' : ∀ k, hfind h' k = hfind h k := by
    obtain ⟨h₁, ⟨himp₁, -, -, hf⟩ | ⟨himp₀, -⟩⟩ :=
      himportR_hexportR ⟨by decide, by decide⟩ hx he hn happ old
    · rw [himp₁] at himp
      simp only [some.injEq, Prod.mk.injEq, true_and] at himp
      exact himp ▸ hf
    · rw [himp₀] at himp
      simp at himp
  obtain ⟨hsome, hnone⟩ := getenvF_hexportR hx he hst hsize name buf len
  unfold ReadsAlike
  cases hf : hfind h' name with
  | some v =>
    have hv : hfind h name = some v := hfind' name ▸ hf
    have hbefore := beforeEquals_eq_self (hx.name_ok name v hv).no_equals
    have hne : chEquals ∉ name.bytes := (hx.name_ok name v hv).no_equals
    have hl := hlen v hf
    obtain ⟨val, hstv, hget⟩ := hsome v (by rw [hbefore, hv])
    rcases escaped_cases v with ⟨hno, heq⟩ | ⟨hin, hlt⟩
    · rw [heq] at hstv
      have hcopy := copyOut_fits (n := 0) v.nul_free buf hstv hl
      simp only [hget, hcopy, Nat.zero_add]
      refine ⟨fun _ => ⟨?_, fun h => absurd h hne⟩, fun _ => ⟨_, rfl, stored_store _ _ _⟩⟩
      intro u hu
      rw [hv] at hu
      exact some.inj hu ▸ hno
    · constructor
      · rintro ⟨buf', hret, -⟩
        rw [hget, some.injEq, Prod.mk.injEq] at hret
        have hret' : (copyOut envGetChar val len 0 buf).1 = v.bytes.length := by exact_mod_cast hret.1
        by_cases hfit : (escaped v).length < len
        · rw [copyOut_fits (n := 0) (nul_notMem_escaped v) buf hstv hfit] at hret'
          simp only at hret'
          omega
        · rw [copyOut_short (n := 0) (nul_notMem_escaped v) buf hstv (by omega)] at hret'
          omega
      · intro hcond
        exact absurd hin (hcond.1 v hv)
  | none =>
    have hv : hfind h name = none := hfind' name ▸ hf
    simp only [hv]
    constructor
    · rintro ⟨buf', hret⟩
      refine ⟨fun u hu => by simp at hu, ?_⟩
      intro _
      cases hb : hfind h name.beforeEquals with
      | none => rfl
      | some v =>
        obtain ⟨val, -, hget⟩ := hsome v hb
        rw [hget, some.injEq, Prod.mk.injEq] at hret
        omega
    · intro hcond
      refine ⟨buf, hnone ?_⟩
      by_cases hmem : chEquals ∈ name.bytes
      · exact hcond.2 hmem
      · rw [beforeEquals_eq_self hmem, hv]

namespace GetenvAux

theorem himportR_oneVariable {v : CString} (hv : v.bytes ≠ []) {env : List UInt8}
    (he : hexportR true true (oneVariable v) 0 64 [] = some (.ok env)) :
    ∃ h', himportR true true none none env 0 0 [] false = some (1, some h') ∧ hfind h' (oneChar 0x61) = some v := by
  have hb := importEntries_bounds env.length
  obtain ⟨n, hn, -, hle, -⟩ := hcreateR_spec (importEntries env.length) (by omega) (by omega)
  have hroom := oneVariable_room v hb.1 hle
  have happ : Approves none 0 false := by
    intro h
    cases h
  obtain ⟨h', ⟨himp, -, -, hf⟩ | ⟨-, hlt⟩⟩ := himportR_hexportR (show SepOk 0 from ⟨by decide, by decide⟩)
    (oneVariable_exportable (Or.inr rfl) hv) he hn happ none
  · exact ⟨h', himp, (hf _).trans (hfind_oneVariable v)⟩
  · simp only at hlt
    omega

end GetenvAux

/-- The two readers agree on a plain value. -/
theorem getenv_f_agrees_plain : ∃ env h', hexportR true true (oneVariable (oneChar 0x31)) 0 64 [] = some (.ok env) ∧
    himportR true true none none env 0 0 [] false = some (1, some h') ∧
    ReadsAlike (fun i => env.getD i 0) 64 (oneChar 0x61) (fun _ => 0) 32 h' := by
  obtain ⟨env, henv, hlen⟩ : ∃ env, hexportR true true (oneVariable (oneChar 0x31)) 0 64 [] = some (.ok env) ∧ env.length = 64 := ⟨_, rfl, rfl⟩
  obtain ⟨h', himp, hf⟩ := himportR_oneVariable (by decide) henv
  have hv : (oneChar 0x31).bytes.length < 32 := by decide
  refine ⟨env, h', henv, himp, (getenv_f_agrees_iff _ (oneVariable_exportable (Or.inr rfl) (by decide)) true true 64 env henv
    none false (by intro h; cases h) none h' himp _ ?_ 64 (Nat.le_of_eq hlen) (oneChar 0x61) _ 32 ?_).2 ⟨?_, ?_⟩⟩
  · intro i c hc
    simp [hc]
  · intro v h
    rw [hf, some.injEq] at h
    exact h ▸ hv
  · intro v h
    rw [hfind_oneVariable, some.injEq] at h
    rw [← h]
    decide
  · intro h
    exact absurd h (by decide)

/-- The two readers differ on a value with a backslash: `getenv_f` returns 4 for a value of 3 characters. -/
theorem getenv_f_agrees_false : ∃ env h', hexportR true true (oneVariable oddValue) 0 64 [] = some (.ok env) ∧
    himportR true true none none env 0 0 [] false = some (1, some h') ∧ hfind h' (oneChar 0x61) = some oddValue ∧
    oddValue.bytes.length = 3 ∧
    ((getenvF (fun i => env.getD i 0) 64 (oneChar 0x61) (fun _ => 0) 32).map Prod.fst) = some 4 ∧
    ¬ReadsAlike (fun i => env.getD i 0) 64 (oneChar 0x61) (fun _ => 0) 32 h' := by
  obtain ⟨env, henv, hget⟩ : ∃ env, hexportR true true (oneVariable oddValue) 0 64 [] = some (.ok env) ∧
    ((getenvF (fun i => env.getD i 0) 64 (oneChar 0x61) (fun _ => 0) 32).map Prod.fst) = some 4 := ⟨_, rfl, by decide⟩
  obtain ⟨h', himp, hf⟩ := himportR_oneVariable (by decide) henv
  have hlen : oddValue.bytes.length = 3 := by decide
  refine ⟨env, h', henv, himp, hf, hlen, hget, ?_⟩
  unfold ReadsAlike
  rw [hf]
  rintro ⟨buf', hret, -⟩
  rw [hret, hlen] at hget
  simp at hget

end UBoot
