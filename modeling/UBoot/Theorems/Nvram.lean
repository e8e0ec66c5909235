import UBoot.Lemmas.NvramAux
import UBoot.Theorems.HashMap

/-!
# The NVRAM store is a map that survives commits

A run of `nvram_set`, `nvram_unset` and `_nvram_commit`, on the table as it is before anything was set.
-/

namespace UBoot

section

open Lib NvramAux

/-- A call on the store. -/
inductive NvramOp where
  | set (name value : CString)
  | unset (name : CString)
  | commit

/-- The table a call leaves, with every allocation successful. -/
def nvramStep (hndcrc8 : List UInt8 → UInt8 → UInt8) (s : Nvram) : NvramOp → Nvram
  | .set name value => (nvramSet true name value s).2
  | .unset name => nvramUnset name s
  | .commit => (nvramRegenerate hndcrc8 (fun _ => true) s).2

/-- The condition on a call: a name to set has no equals sign, and a commit has room for every tuple with its terminator. -/
def NvramOk (s : Nvram) : NvramOp → Prop
  | .set name _ => chEquals ∉ name.bytes
  | .unset _ => True
  | .commit => textLength s.tuples ≤ nvramRoom

/-- What a call means for the map of names to values. -/
def nvramSpec (m : CString → Option CString) : NvramOp → CString → Option CString
  | .set name value => Function.update m name (some value)
  | .unset name => Function.update m name none
  | .commit => fun k => (m k).or (sdramText m k)

namespace NvramAux
variable {s : Nvram} {hndcrc8 : List UInt8 → UInt8 → UInt8} {m : CString → Option CString}


/-- The table finds what the map says, and no name has an equals sign. -/
structure NvramRefines (s : Nvram) (m : CString → Option CString) : Prop where
  wf : s.WF
  get_eq : nvramGet s = m
  names : ∀ k v, nvramGet s k = some v → chEquals ∉ k.bytes

theorem names_tuples (hs : s.WF) (hn : ∀ k v, nvramGet s k = some v → chEquals ∉ k.bytes) :
    ∀ t ∈ s.tuples, chEquals ∉ t.name.bytes := fun t ht => hn t.name t.value ((get_eq_some_iff hs _ _).2 ht)

theorem get_commit_of_fits (hndcrc8 : List UInt8 → UInt8 → UInt8) (hs : s.WF)
    (hn : ∀ k v, nvramGet s k = some v → chEquals ∉ k.bytes) (hfits : textLength s.tuples ≤ nvramRoom) (k : CString) :
    nvramGet (nvramRegenerate hndcrc8 (fun _ => true) s).2 k = (nvramGet s k).or (sdramText (nvramGet s) k) := by
  have hwr := written_eq_tuples hfits
  rw [get_regenerate hndcrc8 (fun _ => rfl) s (by rw [hwr]; exact names_tuples hs hn), hwr]
  congr 1
  apply Option.ext
  intro v
  rw [get_setAll_iff (nodup_tuples hs), get_eq_some_iff hs]

theorem NvramRefines.step {s' : Nvram}
    (hr : NvramRefines s m) {op : NvramOp} (hstep : Guarded NvramOk (stepFn (nvramStep hndcrc8)) s op s') :
    NvramRefines s' (nvramSpec m op) := by
  obtain ⟨hok, rfl⟩ := hstep
  cases op with
  | set name value =>
    refine ⟨wf_set hr.wf name value, ?_, ?_⟩
    · funext k
      rw [nvramStep, get_set, hr.get_eq]
      by_cases hk : k = name <;> simp [nvramSpec, hk]
    · intro k v hk
      rw [nvramStep, get_set] at hk
      split at hk
      · rename_i he
        exact he ▸ hok
      · exact hr.names k v hk
  | unset name =>
    refine ⟨wf_unset hr.wf name, ?_, ?_⟩
    · funext k
      rw [nvramStep, get_unset hr.wf, hr.get_eq]
      by_cases hk : k = name <;> simp [nvramSpec, hk]
    · intro k v hk
      rw [nvramStep, get_unset hr.wf] at hk
      split at hk
      · cases hk
      · exact hr.names k v hk
  | commit =>
    have hget := get_commit_of_fits hndcrc8 hr.wf hr.names hok
    refine ⟨wf_regenerate hndcrc8 (fun _ => rfl) s, ?_, ?_⟩
    · funext k
      rw [nvramStep, hget, hr.get_eq]
      rfl
    · intro k v hk
      rw [nvramStep, hget] at hk
      rcases Option.or_eq_some_iff.1 hk with hk | ⟨-, hk⟩
      · exact hr.names k v hk
      · exact sdramText_names hk

end NvramAux

/-- The store refines the map of its calls: over every run of sets, unsets and commits whose names have no equals sign and whose
commits have room for every tuple, `nvram_get` finds for every name what the map says. -/
theorem nvram_refines_map (hndcrc8 : List UInt8 → UInt8 → UInt8) (ops : List NvramOp) (s : Nvram)
    (hrun : Exec (Guarded NvramOk (stepFn (nvramStep hndcrc8))) Nvram.empty ops s) (name : CString) :
    nvramGet s name = ops.foldl nvramSpec (fun _ => none) name := by
  have hempty : NvramRefines Nvram.empty fun _ => none := by
    refine ⟨wf_empty, rfl, ?_⟩
    intro k v hk
    cases hk
  have hstep (s : Nvram) (op : NvramOp) (s' : Nvram) (m : CString → Option CString) (h : NvramRefines s m)
      (hs : Guarded NvramOk (stepFn (nvramStep hndcrc8)) s op s') : NvramRefines s' (nvramSpec m op) := h.step hs
  rw [(hrun.refines hstep hempty).get_eq]

/-- A value survives a commit: `a` is `1=` after it, and `sdram_ncdl` is there as the header has it. -/
theorem nvram_refines_map_commit : ∃ s, Exec (Guarded NvramOk (stepFn (nvramStep fun _ c => c))) Nvram.empty
      [.set (oneChar 0x61) (CString.ofBytes [0x31, chEquals]), .commit] s ∧
    nvramGet s (oneChar 0x61) = some (CString.ofBytes [0x31, chEquals]) ∧
    nvramGet s sdramNcdlName = some (hexText 8 0) := by
  have hset : NvramOk Nvram.empty (.set (oneChar 0x61) (CString.ofBytes [0x31, chEquals])) := by
    show chEquals ∉ (oneChar 0x61).bytes
    decide
  have hfits : NvramOk (nvramStep (fun _ c => c) Nvram.empty (.set (oneChar 0x61) (CString.ofBytes [0x31, chEquals]))) .commit := by
    show textLength _ ≤ nvramRoom
    decide
  have hrun : Exec (Guarded NvramOk (stepFn (nvramStep fun _ c => c))) Nvram.empty
      [.set (oneChar 0x61) (CString.ofBytes [0x31, chEquals]), .commit] _ :=
    Exec.cons ⟨hset, rfl⟩ (Exec.single ⟨hfits, rfl⟩)
  refine ⟨_, hrun, ?_, ?_⟩
  · rw [nvram_refines_map _ _ _ hrun]
    decide
  · rw [nvram_refines_map _ _ _ hrun]
    decide

end

/-!
## What a commit of the NVRAM loses

`_nvram_commit` leaves a chain at the first tuple that does not fit, goes on with the next chain, and returns 0.
-/

section

open Lib NvramAux

/-- A commit loses nothing: if it returns 0, every variable is found with its value afterwards, and also in the table parsed
from the image that was written; otherwise the table is unchanged. -/
def CommitKeeps (hndcrc8 : List UInt8 → UInt8 → UInt8) (headerOk : Bool) (malloc : Nat → Bool) (s : Nvram) : Prop :=
  let r := nvramCommit hndcrc8 headerOk malloc s
  (r.1 = 0 → ∃ image, r.2.1 = some image ∧ ∀ name v, nvramGet s name = some v →
    nvramGet r.2.2 name = some v ∧ nvramGet (nvramRehash (fun _ => true) image).2 name = some v) ∧
  (r.1 ≠ 0 → r.2.2 = s)

namespace NvramAux
variable {hndcrc8 : List UInt8 → UInt8 → UInt8} {s : Nvram}


theorem commitKeeps_no_header (hndcrc8 : List UInt8 → UInt8 → UInt8) (malloc : Nat → Bool) (s : Nvram) : CommitKeeps hndcrc8 false malloc s :=
  ⟨fun h => absurd h (by show ¬((1 : Int) = 0); decide), fun _ => rfl⟩

theorem wf_of_exec {ops : List NvramOp} {s' : Nvram}
    (h : Exec (stepFn (nvramStep hndcrc8)) s ops s') (hs : s.WF) : s'.WF := by
  have hstep (s : Nvram) (op : NvramOp) (s' : Nvram) (hs : s.WF) (hop : stepFn (nvramStep hndcrc8) s op s') : s'.WF := by
    rw [stepFn] at hop
    subst hop
    cases op with
    | set name value => exact wf_set hs name value
    | unset name => exact wf_unset hs name
    | commit => exact wf_regenerate hndcrc8 (fun _ => rfl) s
  exact h.invariant hstep hs

theorem nvramCommit_ok (hndcrc8 : List UInt8 → UInt8 → UInt8) (malloc : Nat → Bool) (s : Nvram) : nvramCommit hndcrc8 true malloc s =
      (0, some (nvramRegenerate hndcrc8 malloc s).1, (nvramRegenerate hndcrc8 malloc s).2) := rfl

theorem commitKeeps_tuples {malloc : Nat → Bool} (hs : s.WF)
    (h : CommitKeeps hndcrc8 true malloc s) {t : NvramTuple} (ht : t ∈ s.tuples) :
    nvramGet (nvramRegenerate hndcrc8 malloc s).2 t.name = some t.value := by
  unfold CommitKeeps at h
  simp only [nvramCommit_ok] at h
  obtain ⟨image, -, hkeep⟩ := h.1 trivial
  exact (hkeep t.name t.value ((get_eq_some_iff hs _ _).2 ht)).1

end NvramAux

/-- For every table reached by calls of the store and every commit with memory for its tuples: the commit loses nothing exactly
when the header has no memory (and it returns 1), or no name has an equals sign and the tuples fit; where they do not fit, the
tuples left out have to be SDRAM parameters with the values the header has for them. -/
theorem nvram_commit_keeps_iff (hndcrc8 : List UInt8 → UInt8 → UInt8) (ops : List NvramOp) (s : Nvram)
    (hrun : Exec (stepFn (nvramStep hndcrc8)) Nvram.empty ops s) (headerOk : Bool) (malloc : Nat → Bool)
    (hm : ∀ n, malloc n = true) :
    CommitKeeps hndcrc8 headerOk malloc s ↔ headerOk = false ∨ (∀ t ∈ s.tuples, chEquals ∉ t.name.bytes) ∧ (textLength s.tuples ≤ nvramRoom ∨
        ∀ t ∈ s.tuples, t ∉ written s → sdramText (nvramGet s) t.name = some t.value) := by
  have hs := wf_of_exec hrun wf_empty
  cases headerOk with
  | false => exact ⟨fun _ => Or.inl rfl, fun _ => commitKeeps_no_header hndcrc8 malloc s⟩
  | true =>
    constructor
    · intro hkeep
      have hnames : ∀ t ∈ s.tuples, chEquals ∉ t.name.bytes := by
        intro t ht hk
        have := commitKeeps_tuples hs hkeep ht
        rw [get_regenerate_equals hndcrc8 hm s hk] at this
        cases this
      refine Or.inr ⟨hnames, Or.inr ?_⟩
      intro t ht hw
      have := commitKeeps_tuples hs hkeep ht
      rwa [get_regenerate_tuple hndcrc8 hm hs hnames ht, if_neg hw] at this
    · rintro (h | ⟨hnames, hroom⟩)
      · cases h
      have hleft : ∀ t ∈ s.tuples, t ∉ written s → sdramText (nvramGet s) t.name = some t.value := by
        rcases hroom with hfits | hleft
        · intro t ht hw
          rw [written_eq_tuples hfits] at hw
          exact absurd ht hw
        · exact hleft
      have hget (m : Nat → Bool) (hm : ∀ n, m n = true) (name v : CString) (hv : nvramGet s name = some v) :
          nvramGet (nvramRegenerate hndcrc8 m s).2 name = some v := by
        have ht := (get_eq_some_iff hs name v).1 hv
        rw [get_regenerate_tuple hndcrc8 hm hs hnames ht]
        split
        · rfl
        · rename_i hw
          exact hleft _ ht hw
      have himage : (nvramRegenerate hndcrc8 malloc s).1 = commitImage hndcrc8 s := by
        rw [nvramRegenerate_eq hndcrc8 hm s fun t ht => hnames t ((written_sublist s).subset ht)]
      unfold CommitKeeps
      simp only [nvramCommit_ok]
      refine ⟨fun _ => ⟨_, rfl, fun name v hv => ⟨hget malloc hm name v hv, ?_⟩⟩, fun h => absurd rfl h⟩
      rw [himage]
      exact hget (fun _ => true) (fun _ => rfl) name v hv

/-- A commit after four calls that leave the variables `b` and `c` loses nothing. -/
theorem nvram_commit_keeps_two : ∃ s, Exec (stepFn (nvramStep fun _ c => c)) Nvram.empty
      [.set (oneChar 0x61) (oneChar 0x31), .set (oneChar 0x62) (oneChar 0x32), .unset (oneChar 0x61), .set (oneChar 0x63) (oneChar 0x33)] s ∧
    s.tuples.map NvramTuple.name = [oneChar 0x62, oneChar 0x63] ∧ CommitKeeps (fun _ c => c) true (fun _ => true) s := by
  have hrun := Exec.foldl (nvramStep fun _ c => c) Nvram.empty
    [.set (oneChar 0x61) (oneChar 0x31), .set (oneChar 0x62) (oneChar 0x32), .unset (oneChar 0x61), .set (oneChar 0x63) (oneChar 0x33)]
  refine ⟨_, hrun, by decide, (nvram_commit_keeps_iff _ _ _ hrun true _ fun _ => rfl).2 (Or.inr ⟨?_, Or.inl ?_⟩)⟩
  · decide
  · show textLength _ ≤ nvramRoom
    decide

/-- A value of as many bytes as the whole image. -/
def longValue : CString where
  bytes := List.replicate CONFIG_NVRAM_SIZE 0x31
  nul_free h := absurd (List.eq_of_mem_replicate h) (by decide)

theorem length_longValue : longValue.bytes.length = CONFIG_NVRAM_SIZE := by
  unfold longValue
  exact List.length_replicate

theorem room_lt_text {t : NvramTuple} (h : t.value.bytes.length = CONFIG_NVRAM_SIZE) : nvramRoom < t.text.length := by
  have hroom : nvramRoom < CONFIG_NVRAM_SIZE := by decide
  rw [length_text, h]
  omega

/-- A commit of a variable that does not fit returns 0 and loses it. -/
theorem nvram_commit_keeps_false : ∃ s, Exec (stepFn (nvramStep fun _ c => c)) Nvram.empty [.set (oneChar 0x61) longValue] s ∧
    nvramGet s (oneChar 0x61) = some longValue ∧ (nvramCommit (fun _ c => c) true (fun _ => true) s).1 = 0 ∧
    nvramGet (nvramCommit (fun _ c => c) true (fun _ => true) s).2.2 (oneChar 0x61) = none ∧
    ¬CommitKeeps (fun _ c => c) true (fun _ => true) s := by
  have hrun : Exec (stepFn (nvramStep fun _ c => c)) Nvram.empty [.set (oneChar 0x61) longValue]
      (nvramSet true (oneChar 0x61) longValue Nvram.empty).2 := Exec.single rfl
  have hs := wf_of_exec hrun wf_empty
  have hget (k : CString) : nvramGet (nvramSet true (oneChar 0x61) longValue Nvram.empty).2 k =
      if k = oneChar 0x61 then some longValue else none := get_set _ _ _ k
  generalize (nvramSet true (oneChar 0x61) longValue Nvram.empty).2 = s at hrun hs hget
  have ha : nvramGet s (oneChar 0x61) = some longValue := by rw [hget, if_pos rfl]
  have ht : (⟨oneChar 0x61, longValue⟩ : NvramTuple) ∈ s.tuples := (get_eq_some_iff hs _ _).1 ha
  have hnames : ∀ t ∈ s.tuples, chEquals ∉ t.name.bytes := by
    intro t ht
    have hv := (get_eq_some_iff hs t.name t.value).2 ht
    rw [hget] at hv
    split at hv
    · rename_i he
      rw [he]
      decide
    · cases hv
  -- a tuple longer than the room is not written
  have hw : (⟨oneChar 0x61, longValue⟩ : NvramTuple) ∉ written s := by
    intro hw
    have hle : textLength (written s) ≤ nvramRoom := textLength_kept_le _ _
    have hlong := room_lt_text (t := ⟨oneChar 0x61, longValue⟩) length_longValue
    exact absurd ((textLength_mem_le hw).trans hle) (Nat.not_le.2 hlong)
  have hlost : nvramGet (nvramRegenerate (fun _ c => c) (fun _ => true) s).2 (oneChar 0x61) = none := by
    rw [get_regenerate_tuple _ (fun _ => rfl) hs hnames ht, if_neg hw]
    exact sdramText_other (by decide)
  refine ⟨s, hrun, ha, ?_, ?_, fun hkeep => ?_⟩
  · rw [nvramCommit_ok]
  · simp only [nvramCommit_ok]
    exact hlost
  have := commitKeeps_tuples hs hkeep ht
  rw [hlost] at this
  cases this

end

end UBoot
