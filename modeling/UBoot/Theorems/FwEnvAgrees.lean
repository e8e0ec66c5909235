import UBoot.Lemmas.FwEnvAux
import UBoot.Theorems.EnvRoundTrip

/-!
# The Linux tool and the boot loader on one environment

`hexport_r` escapes the backslashes of a value and `himport_r` undoes it; the Linux tool does neither.
-/

namespace UBoot

open List

section

open Lib Htab HashMapAux ExportAux ImportAux StoredEnvAux FwEnvAux EnvRoundTripAux

/-- What `fw_getenv` reports for a name: a value, or that there is none. -/
def FwReports (data : Nat → UInt8) (envSize : Nat) (name : CString) : Option CString → Prop
  | some v => ∃ p, fwGetenv (some data) envSize name = some (some p) ∧ Stored data p (v.bytes ++ [0])
  | none => fwGetenv (some data) envSize name = some none

/-- The import of a block gives the variable just written its value, and every other variable the value the tool reports. -/
def ImportsAsReported (apply : Option ApplyFn) (doApply : Bool) (old : Option Htab) (data : Nat → UInt8) (envSize : Nat)
    (name value : CString) : Prop :=
  ∃ h', himportR true true apply old (blockBytes data envSize) 0 0 [] doApply = some (1, some h') ∧
    hfind h' name = some value ∧ ∀ k, k ≠ name → chEquals ∉ k.bytes → FwReports data envSize k (hfind h' k)

namespace FwEnvAux

variable {data : Nat → UInt8} {envSize : Nat} {L : List (CString × CString)}
variable {name : CString} {h t : Htab} {env : List UInt8} {apply : Option ApplyFn} {doApply : Bool} {M : List (CString × CString)}

/-- The tool reports what the entries of its block say. -/
theorem fwReports_iff (hb : FwBlock data envSize L) (hname : chEquals ∉ name.bytes) (o : Option CString) :
    FwReports data envSize name o ↔ ∀ v, o = some v ↔ (name, v) ∈ L := by
  obtain ⟨hfound, habsent⟩ := fwSearch_block envSize name (FwBlock.listed hb).names hb.nodup hb.stored (Nat.le_of_lt hb.fits)
  rw [beforeEquals_eq_self hname] at hfound habsent
  by_cases hmem : ∃ v, (name, v) ∈ L
  · obtain ⟨v, hv⟩ := hmem
    obtain ⟨env, nxt, val, hst, hs⟩ := hfound v hv
    have hget : fwGetenv (some data) envSize name = some (some val) := by
      simp only [fwGetenv, hs]
    have huniq (w : CString) : (name, w) ∈ L ↔ w = v := by
      refine ⟨?_, fun hw => hw ▸ hv⟩
      intro hw
      have := inj_on_of_nodup_map hb.nodup hw hv rfl
      exact (Prod.mk.inj this).2
    simp only [huniq]
    cases o with
    | none => simp [FwReports, hget]
    | some u =>
      simp only [FwReports, hget, Option.some.injEq, exists_eq_left']
      refine ⟨?_, ?_⟩
      · intro hu w
        rw [stored_string_inj hu hst, eq_comm]
      · intro hu
        rw [(hu u).1 rfl]
        exact hst
  · have hno : ∀ v, (name, v) ∉ L := fun v hv => hmem ⟨v, hv⟩
    have hget : fwGetenv (some data) envSize name = some none := by
      simp only [fwGetenv, habsent hno]
    cases o with
    | none => simp [FwReports, hget, hno]
    | some u => simp [FwReports, hget, hno]

theorem fwBlock_hexportR (hx : h.Exportable 0) {callocOk respGiven : Bool} {size : Nat}
    (he : hexportR callocOk respGiven h 0 size [] = some (.ok env)) (hst : Stored data 0 env) :
    ∃ L, Lists h L ∧ FwBlock data env.length (L.map escapedEntry) := by
  obtain ⟨L, m, hl, rfl⟩ := hexportR_eq hx.valid he
  refine ⟨L, hl, ?_, by rw [map_fst_escapedEntry]; exact hl.nodup, ?_, ?_, ?_⟩
  · rintro ⟨k, t⟩ hkt
    obtain ⟨v, -, hkv⟩ := exists_of_mem_escapedEntry hkt
    exact hx.name_ok k v ((hl.mem_iff k v).1 hkv)
  · rw [← singleton_append, ← append_assoc, stored_append, flatMap_exportEntry] at hst
    exact hst.1
  · rw [← flatMap_exportEntry, length_append, length_cons]
    omega
  · rintro hnil hlt
    obtain rfl : L = [] := by simpa using hnil
    simp only [flatMap_nil, nil_append, length_cons, length_replicate] at hlt
    obtain ⟨m, rfl⟩ : ∃ j, m = j + 1 := ⟨m - 1, by omega⟩
    exact (stored_cons.1 (stored_cons.1 hst).2).1

theorem mem_escaped_iff (hl : Lists h L) (k t : CString) :
    (k, t) ∈ L.map escapedEntry ↔ ∃ v, hfind h k = some v ∧ t = escapedString v := by
  constructor
  · intro hkt
    obtain ⟨v, rfl, hkv⟩ := exists_of_mem_escapedEntry hkt
    exact ⟨v, (hl.mem_iff k v).1 hkv, rfl⟩
  · rintro ⟨v, hv, rfl⟩
    exact mem_escapedEntry ((hl.mem_iff k v).2 hv)

theorem same_text_iff (hl : Lists h L) (k : CString) :
    (∀ v, hfind h k = some v ↔ (k, v) ∈ L.map escapedEntry) ↔ ∀ v, hfind h k = some v → chBackslash ∉ v.bytes := by
  simp only [mem_escaped_iff hl]
  cases hf : hfind h k with
  | none => simp
  | some u =>
    simp only [Option.some.injEq, exists_eq_left', forall_eq']
    rw [← escapedString_eq_self_iff]
    constructor
    · intro h
      exact ((h u).1 rfl).symm
    · intro h v
      rw [h, eq_comm]

theorem blockBytes_eq (hb : FwBlock data envSize L) : ∃ tail, blockBytes data envSize = L.flatMap storedEntry ++ 0 :: tail := by
  have hlen : (L.flatMap storedEntry ++ [0]).length ≤ envSize := by
    rw [length_append]
    exact hb.fits
  have hpre := hb.stored.prefix_map_range hlen
  simp only [Nat.zero_add] at hpre
  obtain ⟨tail, htail⟩ := hpre
  exact ⟨tail, by rw [blockBytes, ← htail, append_assoc]; rfl⟩

/-- The import of stored entries, at least one, up to a NUL: with room for the variables it enters what it reads back from each
entry, without room it returns 0. -/
theorem himportR_storedEntries (hnames : ∀ e ∈ L, NameOk 0 e.1) (hval : ∀ e ∈ L, e.2.bytes ≠ [])
    (hnd : (L.map Prod.fst).Nodup) (hne : L ≠ []) {tail : List UInt8} (henv : env = L.flatMap storedEntry ++ 0 :: tail) (happ : Approves apply 0 doApply)
    (ht : hcreateR true (importEntries env.length) none = some t) (old : Option Htab) :
    ∃ h', (himportR true true apply old env 0 0 [] doApply = some (1, some h') ∧ L.length ≤ t.size ∧ h'.WF ∧
        ∀ k v, hfind h' k = some v ↔ (k, v) ∈ L.map importedEntry) ∨
      (himportR true true apply old env 0 0 [] doApply = some (0, some h') ∧ t.size < L.length) := by
  have hbounds := importEntries_bounds env.length
  obtain ⟨n, hn, hp, hle, -⟩ := hcreateR_spec (importEntries env.length) (by omega) (by omega)
  obtain rfl : _ = t := Option.some.inj (hn.symm.trans ht)
  have htab : importTable true 0 env.length old = some ⟨fun _ => Slot.zero, n, 0⟩ := by
    simpa [importTable, noclear] using hn
  have hfst : (L.map importedEntry).map Prod.fst = L.map Prod.fst := by
    rw [map_map]
    rfl
  have hfuel : L.length ≤ env.length := by
    rw [henv, length_append]
    exact Nat.le_trans (length_le_flatMap_storedEntry L) (Nat.le_add_right _ _)
  obtain ⟨h', hloop⟩ := importLoop_block storedEntry importedEntry happ
    (fun e he => encodes_storedEntry (hnames e he) (hval e he)) (by rw [hfst]; exact hnd)
    (filled_fresh hp (by omega)) tail (fun h => absurd h hne) env.length hfuel
  rw [← henv] at hloop
  refine ⟨h', ?_⟩
  rcases hloop with ⟨hloop, hroom, hf'⟩ | ⟨hloop, hroom⟩
  · exact Or.inl ⟨by simp [himportR, htab, hloop, deleteLeft], hroom, hf'.wf, hf'.mem_iff⟩
  · exact Or.inr ⟨by simp [himportR, htab, hloop], hroom⟩

theorem himportR_block (hb : FwBlock data envSize L) (hval : ∀ e ∈ L, e.2.bytes ≠ []) (hne : L ≠ []) (happ : Approves apply 0 doApply) (ht : hcreateR true (importEntries envSize) none = some t)
    (old : Option Htab) :
    ∃ h', (himportR true true apply old (blockBytes data envSize) 0 0 [] doApply = some (1, some h') ∧ L.length ≤ t.size ∧
        ∀ k v, hfind h' k = some v ↔ (k, v) ∈ L.map importedEntry) ∨
      (himportR true true apply old (blockBytes data envSize) 0 0 [] doApply = some (0, some h') ∧ t.size < L.length) := by
  obtain ⟨tail, hbytes⟩ := blockBytes_eq hb
  have hlen : (blockBytes data envSize).length = envSize := by simp [blockBytes]
  obtain ⟨h', himp⟩ := himportR_storedEntries hb.names hval hb.nodup hne hbytes happ (by rw [hlen]; exact ht) old
  refine ⟨h', ?_⟩
  rcases himp with ⟨himp, hroom, -, hfind⟩ | himp
  · exact Or.inl ⟨himp, hroom, hfind⟩
  · exact Or.inr himp

/-- The entries after a write, and how many they are. -/
theorem length_written (hl : Lists h L) (name value : CString) :
    ((L.map escapedEntry).filter (·.1 ≠ name) ++ [(name, value)]).length = {k | k = name ∨ (hfind h k).isSome}.ncard := by
  have hfst : ((L.map escapedEntry).filter (·.1 ≠ name) ++ [(name, value)]).map Prod.fst = (L.map Prod.fst).filter (· ≠ name) ++ [name] := by
    have hmap (M : List (CString × CString)) : (M.filter (·.1 ≠ name)).map Prod.fst = (M.map Prod.fst).filter (· ≠ name) := by
      rw [filter_map]
      rfl
    rw [map_append, hmap, map_fst_escapedEntry]
    rfl
  have hset : {k | k = name ∨ (hfind h k).isSome} = (((L.map Prod.fst).filter (· ≠ name) ++ [name]).toFinset : Set CString) := by
    ext k
    simp only [Set.mem_ofPred_eq, coe_toFinset, mem_append, mem_filter, mem_map, Prod.exists,
      exists_and_right, exists_eq_right, Option.isSome_iff_exists, ← hl.mem_iff, mem_singleton, ne_eq, decide_not,
      Bool.not_eq_eq_eq_not, Bool.not_true, decide_eq_false_iff_not]
    constructor
    · rintro (hk | hk)
      · exact Or.inr hk
      · by_cases hkn : k = name
        · exact Or.inr hkn
        · exact Or.inl ⟨hk, hkn⟩
    · rintro (hk | hk)
      · exact Or.inr hk.1
      · exact Or.inl hk
  have hnd : ((L.map Prod.fst).filter (· ≠ name) ++ [name]).Nodup := by
    rw [nodup_append]
    refine ⟨hl.nodup.filter _, by simp, ?_⟩
    intro a ha b hb
    rintro rfl
    simp [mem_singleton.1 hb] at ha
  rw [hset, Set.ncard_coe_finset, toFinset_card_of_nodup hnd, ← hfst, length_map]

theorem mem_written {value k v : CString} (hk : k ≠ name) :
    (k, v) ∈ M.filter (·.1 ≠ name) ++ [(name, value)] ↔ (k, v) ∈ M := by
  simp [hk]

/-- What an import reads back after a write. -/
theorem mem_imported_iff (hl : Lists h L) (name value k v : CString) :
    (k, v) ∈ ((L.map escapedEntry).filter (·.1 ≠ name) ++ [(name, value)]).map importedEntry ↔
      (k ≠ name ∧ hfind h k = some v) ∨ (k, v) = importedEntry (name, value) := by
  rw [map_append, mem_append, map_singleton, mem_singleton]
  refine or_congr ?_ Iff.rfl
  rw [mem_map, ← hl.mem_iff]
  constructor
  · rintro ⟨e, he, hkv⟩
    obtain ⟨hmem, hne⟩ := mem_filter.1 he
    obtain ⟨d, hd, rfl⟩ := mem_map.1 hmem
    rw [importedEntry_escapedEntry] at hkv
    subst hkv
    exact ⟨of_decide_eq_true hne, hd⟩
  · rintro ⟨hk, hkv⟩
    exact ⟨escapedEntry (k, v), mem_filter.2 ⟨mem_escapedEntry hkv, decide_eq_true hk⟩, importedEntry_escapedEntry _⟩

/-- After a write that succeeds, the import agrees with the tool exactly when there is room, no backslash stands before the last
byte written, and no other value has a backslash. -/
theorem importsAsReported_iff (hx : h.Exportable 0) (hl : Lists h L) (hb : FwBlock data envSize (L.map escapedEntry))
    {cfg : OnceConfig} {value : CString} (hname : NameOk 0 name) (hvalue : value.bytes ≠ []) {data' : Nat → UInt8}
    (hw : fwEnvWrite cfg data envSize name (some value) = some (none, data'))
    (happ : Approves apply 0 doApply) (old : Option Htab)
    (ht : hcreateR true (importEntries envSize) none = some t) :
    ImportsAsReported apply doApply old data' envSize name value ↔
      {k | k = name ∨ (hfind h k).isSome}.ncard ≤ t.size ∧ chBackslash ∉ value.bytes.dropLast ∧
        ∀ k v, k ≠ name → hfind h k = some v → chBackslash ∉ v.bytes := by
  have hb' := fwEnvWrite_block hb cfg hname hvalue hw
  have hval : ∀ e ∈ (L.map escapedEntry).filter (·.1 ≠ name) ++ [(name, value)], e.2.bytes ≠ [] := by
    rintro ⟨k, u⟩ hku
    rcases mem_append.1 hku with hku | hku
    · obtain ⟨v, hv, rfl⟩ := (mem_escaped_iff hl k u).1 (mem_filter.1 hku).1
      intro hnil
      exact hx.value_ok k v hv (by rw [← unescape_escaped v, show escaped v = [] from hnil]; rfl)
    · obtain ⟨-, rfl⟩ := Prod.mk.inj (mem_singleton.1 hku)
      exact hvalue
  -- what the tool reports for the other variables
  have hreport (k : CString) (hk : k ≠ name) (hke : chEquals ∉ k.bytes) :
      FwReports data' envSize k (hfind h k) ↔ ∀ v, hfind h k = some v → chBackslash ∉ v.bytes := by
    rw [fwReports_iff hb' hke, ← same_text_iff hl]
    simp only [mem_written hk]
  obtain ⟨h', ⟨himp, hroom, hfind'⟩ | ⟨himp, hroom⟩⟩ := himportR_block hb' hval (by simp) happ ht old
  · rw [length_written hl] at hroom
    have hother (k : CString) (hk : k ≠ name) : hfind h' k = hfind h k := by
      apply Option.ext
      intro v
      rw [hfind', mem_imported_iff hl]
      refine ⟨?_, fun hv => Or.inl ⟨hk, hv⟩⟩
      intro hor
      rcases hor with ⟨-, hv⟩ | hv
      · exact hv
      · exact absurd (Prod.mk.inj hv).1 hk
    have hself : hfind h' name = some value ↔ chBackslash ∉ value.bytes.dropLast := by
      rw [hfind', mem_imported_iff hl, ← importedEntry_eq_self_iff name value, eq_comm (a := (name, value))]
      simp
    constructor
    · rintro ⟨h₁, himp₁, hname₁, hrep⟩
      obtain rfl : h' = h₁ := by simpa using himp.symm.trans himp₁
      refine ⟨hroom, hself.1 hname₁, ?_⟩
      intro k v hk hv
      have hke := (hx.name_ok k v hv).no_equals
      have := hrep k hk hke
      rw [hother k hk] at this
      exact (hreport k hk hke).1 this v hv
    · rintro ⟨-, hdrop, hno⟩
      refine ⟨h', himp, hself.2 hdrop, ?_⟩
      intro k hk hke
      rw [hother k hk]
      exact (hreport k hk hke).2 fun v hv => hno k v hk hv
  · rw [length_written hl] at hroom
    constructor
    · rintro ⟨h₁, himp₁, -⟩
      rw [himp] at himp₁
      simp at himp₁
    · rintro ⟨hle, -⟩
      omega

end FwEnvAux

/-- The tool and the boot loader on the block of an export. First, for every name, `fw_getenv` reports what U-Boot has exactly
when the value has no backslash. Second, after every write that succeeds, the import gives the variable its value and
every other variable what the tool reports exactly when the new table has room for the variables, no backslash stands before the
last byte of the value written, and no other value has a backslash. -/
theorem fw_env_agrees_iff (h : Htab) (hx : h.Exportable 0) (callocOk respGiven : Bool) (size : Nat) (env : List UInt8)
    (he : hexportR callocOk respGiven h 0 size [] = some (.ok env)) (data : Nat → UInt8) (hst : Stored data 0 env) :
    (∀ name, chEquals ∉ name.bytes → (FwReports data env.length name (hfind h name) ↔ ∀ v, hfind h name = some v → chBackslash ∉ v.bytes)) ∧
    ∀ (cfg : OnceConfig) (name value : CString) (data' : Nat → UInt8), NameOk 0 name → value.bytes ≠ [] →
      fwEnvWrite cfg data env.length name (some value) = some (none, data') →
      ∀ (apply : Option ApplyFn) (doApply : Bool) (old : Option Htab) (t : Htab), Approves apply 0 doApply →
      hcreateR true (importEntries env.length) none = some t →
      (ImportsAsReported apply doApply old data' env.length name value ↔
        {k | k = name ∨ (hfind h k).isSome}.ncard ≤ t.size ∧ chBackslash ∉ value.bytes.dropLast ∧
          ∀ k v, k ≠ name → hfind h k = some v → chBackslash ∉ v.bytes) := by
  obtain ⟨L, hl, hb⟩ := fwBlock_hexportR hx he hst
  refine ⟨?_, ?_⟩
  · intro name hname
    rw [fwReports_iff hb hname, same_text_iff hl]
  · intro cfg name value data' hname hvalue hw apply doApply old t happ ht
    exact importsAsReported_iff hx hl hb hname hvalue hw happ old ht

namespace FwEnvAux

theorem oneVariable_block {v : CString} (hv : v.bytes ≠ []) {env : List UInt8}
    (he : hexportR true true (oneVariable v) 0 32 [] = some (.ok env)) :
    ∃ L, Lists (oneVariable v) L ∧ FwBlock (fun i => env.getD i 0) env.length (L.map escapedEntry) := by
  refine fwBlock_hexportR (oneVariable_exportable (Or.inr rfl) hv) he ?_
  intro i c hc
  simp [hc]

end FwEnvAux

/-- The tool and the boot loader agree on plain values: `a` is `1`, and `b` is written as `2`. -/
theorem fw_env_agrees_plain : ∃ env data', hexportR true true (oneVariable (oneChar 0x31)) 0 32 [] = some (.ok env) ∧
    FwReports (fun i => env.getD i 0) env.length (oneChar 0x61) (some (oneChar 0x31)) ∧
    fwEnvWrite ⟨false, none⟩ (fun i => env.getD i 0) env.length (oneChar 0x62) (some (oneChar 0x32)) = some (none, data') ∧
    ImportsAsReported none false none data' env.length (oneChar 0x62) (oneChar 0x32) := by
  obtain ⟨env, data', henv, hw⟩ : ∃ env data', hexportR true true (oneVariable (oneChar 0x31)) 0 32 [] = some (.ok env) ∧
    fwEnvWrite ⟨false, none⟩ (fun i => env.getD i 0) env.length (oneChar 0x62) (some (oneChar 0x32)) = some (none, data') :=
    ⟨_, _, rfl, rfl⟩
  have hb := importEntries_bounds env.length
  obtain ⟨n, hn, -, hle, -⟩ := hcreateR_spec (importEntries env.length) (by omega) (by omega)
  have hroom : {k | k = oneChar 0x62 ∨ (hfind (oneVariable (oneChar 0x31)) k).isSome}.ncard ≤ n := by
    have h1 := Set.ncard_insert_le (oneChar 0x62) {k | (hfind (oneVariable (oneChar 0x31)) k).isSome}
    rw [ncard_keys (oneVariable_filled _).wf, (oneVariable_filled _).filled_eq, length_singleton] at h1
    exact Nat.le_trans h1 (by omega)
  have hvalue (k v : CString) (h : hfind (oneVariable (oneChar 0x31)) k = some v) : chBackslash ∉ v.bytes := by
    obtain ⟨-, rfl⟩ : k = oneChar 0x61 ∧ v = oneChar 0x31 := by simpa using ((oneVariable_filled _).mem_iff k v).1 h
    decide
  obtain ⟨hread, hwrite⟩ := fw_env_agrees_iff (oneVariable (oneChar 0x31)) (oneVariable_exportable (Or.inr rfl) (by decide)) true
    true 32 env henv (fun i => env.getD i 0) (by intro i c hc; simp [hc])
  refine ⟨env, data', henv, ?_, hw, ?_⟩
  · rw [← hfind_oneVariable (oneChar 0x31)]
    exact (hread (oneChar 0x61) (by decide)).2 fun v => hvalue _ v
  · refine (hwrite ⟨false, none⟩ (oneChar 0x62) (oneChar 0x32) data' ?_ (by decide) hw none false none _ ?_ hn).2 ⟨hroom, ?_, ?_⟩
    · exact oneChar_nameOk (by decide) (by decide) (by decide) (by decide)
    · intro h
      cases h
    · decide
    · intro k v _
      exact hvalue k v

/-- They differ on a backslash: a value that has one is reported longer than it is, and one written with it is imported
shorter. -/
theorem fw_env_agrees_false : ∃ env data', hexportR true true (oneVariable oddValue) 0 32 [] = some (.ok env) ∧
    hfind (oneVariable oddValue) (oneChar 0x61) = some oddValue ∧
    ¬FwReports (fun i => env.getD i 0) env.length (oneChar 0x61) (some oddValue) ∧
    fwEnvWrite ⟨false, none⟩ (fun i => env.getD i 0) env.length (oneChar 0x62) (some oddValue) = some (none, data') ∧
    ¬ImportsAsReported none false none data' env.length (oneChar 0x62) oddValue := by
  obtain ⟨env, data', henv, hw⟩ : ∃ env data', hexportR true true (oneVariable oddValue) 0 32 [] = some (.ok env) ∧
    fwEnvWrite ⟨false, none⟩ (fun i => env.getD i 0) env.length (oneChar 0x62) (some oddValue) = some (none, data') :=
    ⟨_, _, rfl, rfl⟩
  have hx := oneVariable_exportable (v := oddValue) (Or.inr rfl : (0 : UInt8) = chNewline ∨ (0 : UInt8) = 0) (by decide)
  obtain ⟨L, hl, hb⟩ := oneVariable_block (by decide) henv
  have hbounds := importEntries_bounds env.length
  obtain ⟨n, hn, -⟩ := hcreateR_spec (importEntries env.length) (by omega) (by omega)
  refine ⟨env, data', henv, hfind_oneVariable oddValue, ?_, hw, ?_⟩
  · intro hrep
    rw [← hfind_oneVariable oddValue, fwReports_iff hb (by decide), same_text_iff hl] at hrep
    exact hrep oddValue (hfind_oneVariable oddValue) (by decide)
  · intro himp
    have hname := oneChar_nameOk (c := 0x62) (by decide) (by decide) (by decide) (by decide)
    have happ : Approves none 0 false := by
      intro h
      cases h
    exact ((importsAsReported_iff hx hl hb hname (by decide) hw happ none hn).1 himp).2.1 (by decide)

end

/-!
## Writing the environment from Linux

`fw_env_write` finds the end of the block by two NULs in a row, so the list has to end with two also when it is empty.
-/

section

open Lib StoredEnvAux FwEnvAux

/-- The entry a write is asked for. No value and an empty one ask for none. -/
def askedEntry (name : CString) : Option CString → List (CString × CString)
  | none => []
  | some value => if value.bytes = [] then [] else [(name, value)]

/-- `fw_env_write` on a well-formed block for a variable that can be set any number of times: it succeeds or runs out of room. If it
succeeds, the block is well formed, with the entry of the name replaced by the one asked for and all others as they were and in order;
if there is no room, it is well formed with all others and none for the name. It writes nothing outside the environment. -/
theorem fw_env_write_updates (data : Nat → UInt8) (envSize : Nat) (L : List (CString × CString)) (hb : FwWellFormed data envSize L)
    (cfg : OnceConfig) (name : CString) (hname : chEquals ∉ name.bytes) (heth : name ≠ ethaddrName) (hserial : name ≠ serialName)
    (value : Option CString) :
    ∃ err data', fwEnvWrite cfg data envSize name value = some (err, data') ∧
      (err = none ∧ FwWellFormed data' envSize (L.filter (·.1 ≠ name) ++ askedEntry name value) ∨
        err = some .overflow ∧ FwWellFormed data' envSize (L.filter (·.1 ≠ name))) ∧
      ∀ i, envSize ≤ i → data' i = data i := by
  rcases fwEnvWrite_wellFormed hb cfg hname value with ⟨old, honce, -⟩ | ⟨data₁, hb₁, hframe, hw⟩
  · simp [setOnce, heth, hserial] at honce
  · rw [hw]
    cases value with
    | none => exact ⟨_, _, rfl, Or.inl ⟨rfl, by simpa [askedEntry] using hb₁⟩, hframe⟩
    | some value =>
      by_cases hvalue : value.bytes = []
      · simp only [if_pos hvalue]
        exact ⟨_, _, rfl, Or.inl ⟨rfl, by simpa [askedEntry, hvalue] using hb₁⟩, hframe⟩
      · simp only [if_neg hvalue, fwAppend_wellFormed hb₁, askedEntry]
        split <;> rename_i hroom
        · exact ⟨_, _, rfl, Or.inr ⟨rfl, hb₁⟩, hframe⟩
        · have hroom := Nat.le_of_not_lt hroom
          refine ⟨_, _, rfl, Or.inl ⟨rfl, append_listed hb₁.toFwListed hname (by simp) hroom⟩, ?_⟩
          intro i hi
          rw [store_of_outside, hframe i hi]
          rw [length_append, length_storedEntry, length_singleton]
          simp only
          omega

/-- In a block with `a=1` the variable `b` is set. -/
theorem fw_env_write_updates_two :
    ∃ err data', fwEnvWrite ⟨false, none⟩ (fun i => [0x61, 0x3D, 0x31].getD i 0) 16 ⟨[0x62], by decide⟩ (some ⟨[0x32], by decide⟩) =
        some (err, data') ∧
      (err = none ∧ FwWellFormed data' 16 [(⟨[0x61], by decide⟩, ⟨[0x31], by decide⟩), (⟨[0x62], by decide⟩, ⟨[0x32], by decide⟩)] ∨
        err = some .overflow ∧ FwWellFormed data' 16 [(⟨[0x61], by decide⟩, ⟨[0x31], by decide⟩)]) ∧
      ∀ i, 16 ≤ i → data' i = [0x61, 0x3D, 0x31].getD i 0 := by
  have hb : FwWellFormed (fun i => [0x61, 0x3D, 0x31].getD i 0) 16 [(⟨[0x61], by decide⟩, ⟨[0x31], by decide⟩)] := by
    refine ⟨⟨by decide, by decide, ?_, by decide⟩, by simp⟩
    simp [storedEntry, chEquals, stored_cons, stored_nil]
  exact fw_env_write_updates _ _ _ hb ⟨false, none⟩ ⟨[0x62], by decide⟩ (by decide) (by decide) (by decide) (some ⟨[0x32], by decide⟩)

/-- Behind a single NUL: the list is empty and well formed but for the second NUL, and a write of `a=1` that succeeds leaves a block in
which there is still no variable. -/
theorem fw_env_write_updates_false : FwListed (fun i => [0, 1].getD i 0) 16 [] ∧
      ∃ data', fwEnvWrite ⟨false, none⟩ (fun i => [0, 1].getD i 0) 16 ⟨[0x61], by decide⟩ (some ⟨[0x31], by decide⟩) = some (none, data') ∧
        ¬FwListed data' 16 [(⟨[0x61], by decide⟩, ⟨[0x31], by decide⟩)] := by
  refine ⟨⟨by simp, by simp, ?_, by simp⟩, _, rfl, ?_⟩
  · simp [stored_cons, stored_nil]
  · intro hl
    have h := (stored_cons.1 hl.stored).1
    revert h
    decide

end

end UBoot
