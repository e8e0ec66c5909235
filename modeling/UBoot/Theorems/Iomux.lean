import UBoot.Iomux
import UBoot.Lib.Fields

/-!
# The devices of a console

`iomux_doenv` cuts its argument at the commas twice and finds the same names both times. It gives the console the devices of the list that
can be used, each once, or leaves the console as it was, except where `realloc` fails: the console has lost its array then.
-/

namespace UBoot

open List Option

namespace Iomux

open Lib

variable {devs : List StdioDev} {allocs : Allocs} {errors : Nat → Int} {console : Int} {flag : UInt32} {arg : CString} {s : Consoles}
variable {f : List UInt8} {n : Nat} {ds : List Nat} {t : ConsSet}

/-! ## The names -/

/-- The names of a comma-separated list. -/
def names (arg : CString) : List CString := (arg.bytes.splitOn chComma).map CString.ofBytes

/-- No comma and no NUL. -/
def Plain (f : List UInt8) : Prop := ∀ c ∈ f, c ≠ chComma ∧ c ≠ 0

theorem plain_splitOn (arg : CString) : ∀ f ∈ arg.bytes.splitOn chComma, Plain f := by
  intro f hf c hc
  obtain ⟨hsep, hmem⟩ := mem_of_mem_splitOn hf hc
  exact ⟨hsep, fun h0 => arg.nul_free (h0 ▸ hmem)⟩

theorem strchrFrom_comma (hf : Plain f) (rest : List UInt8) :
    strchrFrom chComma (f ++ chComma :: rest) = some (some f.length) := by
  induction f with
  | nil => simp [strchrFrom]
  | cons c f ih =>
    have hc := hf c mem_cons_self
    rw [cons_append, strchrFrom, if_neg hc.1, if_neg hc.2, ih fun d hd => hf d (mem_cons_of_mem c hd)]
    rfl

theorem strchrFrom_end (hf : Plain f) (rest : List UInt8) : strchrFrom chComma (f ++ 0 :: rest) = some none := by
  induction f with
  | nil => simp [strchrFrom, chComma]
  | cons c f ih =>
    have hc := hf c mem_cons_self
    rw [cons_append, strchrFrom, if_neg hc.1, if_neg hc.2, ih fun d hd => hf d (mem_cons_of_mem c hd)]
    rfl

theorem ofBytes_plain (hf : Plain f) (rest : List UInt8) : CString.ofBytes (f ++ 0 :: rest) = CString.ofBytes f := by
  have hall : ∀ c ∈ f, (c != 0) = true := fun c hc => by simpa using (hf c hc).2
  simp only [CString.ofBytes, CString.mk.injEq]
  rw [takeWhile_append_of_pos hall, takeWhile_eq_self_iff.mpr hall]
  simp

/-- The first loop counts the fields that are left. -/
theorem countArgs_joined (fs : List (List UInt8)) (f done : List UInt8) (fuel i : Nat) (hplain : ∀ g ∈ f :: fs, Plain g)
    (hfuel : fs.length < fuel) : countArgs (done ++ joined chComma 0 (f :: fs)) fuel done.length i = some (i + fs.length + 1) := by
  induction fs generalizing f done fuel i with
  | nil =>
    obtain ⟨fuel, rfl⟩ := Nat.exists_eq_add_one.2 hfuel
    rw [countArgs, drop_left, joined, strchrFrom_end (hplain f mem_cons_self)]
    rfl
  | cons g fs ih =>
    obtain ⟨fuel, rfl⟩ := Nat.exists_eq_add_one.2 (Nat.zero_lt_of_lt hfuel)
    rw [length_cons] at hfuel
    have hdone : done ++ joined chComma 0 (f :: g :: fs) = (done ++ f ++ [chComma]) ++ joined chComma 0 (g :: fs) := by simp [joined]
    have hlen : (done ++ f ++ [chComma]).length = done.length + f.length + 1 := by simp [Nat.add_assoc]
    have ih' := ih g (done ++ f ++ [chComma]) fuel (i + 1) (fun g' hg' => hplain g' (mem_cons_of_mem f hg')) (by omega)
    rw [hlen, ← hdone] at ih'
    simp only [joined] at ih' ⊢
    simp only [countArgs, drop_left, strchrFrom_comma (hplain f mem_cons_self)]
    rw [ih', length_cons]
    congr 1
    omega

/-- The entries of `start` from `i` on are the places of names. -/
def Placed (args : List UInt8) (start : List (Option Nat)) (i : Nat) (fs : List (List UInt8)) : Prop :=
  ∀ k, ∀ h : k < fs.length, ∃ p, start[i + k]? = some (some p) ∧ CString.ofBytes (args.drop p) = CString.ofBytes fs[k]

/-- The second loop finds the same number of fields, and stays inside `start`: by induction on the fields that are left, where `done` is
what was cut already. -/
theorem fillStart_joined (fs : List (List UInt8)) (f done : List UInt8) (start : List (Option Nat)) (fuel i : Nat)
    (hplain : ∀ g ∈ f :: fs, Plain g) (hfuel : fs.length < fuel) (hlen : i + fs.length < start.length)
    (hstart : start[i]? = some (some done.length)) :
    ∃ start', fillStart fuel (done ++ joined chComma 0 (f :: fs)) start i = some (done ++ joined 0 0 (f :: fs), start', i + fs.length + 1) ∧
      (∀ k ≤ i, start'[k]? = start[k]?) ∧ Placed (done ++ joined 0 0 (f :: fs)) start' i (f :: fs) := by
  have hf := hplain f mem_cons_self
  induction fs generalizing f done start fuel i with
  | nil =>
    obtain ⟨fuel, rfl⟩ := Nat.exists_eq_add_one.2 hfuel
    refine ⟨start, ?_, fun k _ => rfl, ?_⟩
    · rw [fillStart, hstart]
      simp only [join_some, drop_left, joined, strchrFrom_end hf]
      rfl
    · intro k hk
      obtain rfl : k = 0 := by simpa using hk
      exact ⟨done.length, hstart, by rw [drop_left, joined]; exact ofBytes_plain hf []⟩
  | cons g fs ih =>
    obtain ⟨fuel, rfl⟩ := Nat.exists_eq_add_one.2 (Nat.zero_lt_of_lt hfuel)
    rw [length_cons] at hfuel hlen
    have hset : (done ++ joined chComma 0 (f :: g :: fs)).set (done.length + f.length) 0 =
        (done ++ f ++ [0]) ++ joined chComma 0 (g :: fs) := by simp [joined, set_append_right]
    have hcut : done ++ joined 0 0 (f :: g :: fs) = (done ++ f ++ [0]) ++ joined 0 0 (g :: fs) := by simp [joined]
    have hdone : (done ++ f ++ [(0 : UInt8)]).length = done.length + f.length + 1 := by simp [Nat.add_assoc]
    obtain ⟨start', hfill, hkeep, hplaced⟩ := ih g (done ++ f ++ [0]) (start.set (i + 1) (some (done.length + f.length + 1))) fuel (i + 1)
      (fun g' hg' => hplain g' (mem_cons_of_mem f hg')) (by omega) (by rw [length_set]; omega)
      (by rw [hdone, getElem?_set_self (by omega)]) (hplain g (mem_cons_of_mem f mem_cons_self))
    refine ⟨start', ?_, ?_, ?_⟩
    · rw [joined] at hset ⊢
      simp only [fillStart, hstart, join_some, drop_left, strchrFrom_comma hf]
      rw [if_pos (by omega), hset, hfill, hcut, length_cons]
      congr 3
      omega
    · intro k hk
      rw [hkeep k (by omega), getElem?_set_ne (by omega)]
    · intro k hk
      cases k with
      | zero =>
        refine ⟨done.length, ?_, by rw [drop_left, joined]; exact ofBytes_plain hf _⟩
        rw [Nat.add_zero, hkeep i (by omega), getElem?_set_ne (by omega), hstart]
      | succ k =>
        obtain ⟨p, hp, hname⟩ := hplaced k (by simpa using hk)
        rw [← hcut] at hname
        exact ⟨p, by rw [← hp]; congr 1; omega, hname⟩

/-! ## The devices -/

/-- The device of a name that can be used: it has the flag and starts. -/
def usableAt (devs : List StdioDev) (flag : UInt32) (errors : Nat → Int) (arg : CString) (j : Nat) : Option Nat :=
  ((names arg)[j]?).bind fun name => (searchDevice devs flag name).filter fun dev => decide (0 ≤ startResult devs dev (errors j))

/-- The usable devices of the first `j` names, each where it is first. -/
def wantedOf (devs : List StdioDev) (flag : UInt32) (errors : Nat → Int) (arg : CString) (j : Nat) : List Nat :=
  ((List.range j).filterMap (usableAt devs flag errors arg)).eraseDups

/-- The distinct usable devices of a list in order of first occurrence. -/
def wanted (devs : List StdioDev) (flag : UInt32) (errors : Nat → Int) (arg : CString) : List Nat :=
  wantedOf devs flag errors arg (names arg).length

/-- One more device behind those found so far, if there is one and it is none of them. -/
def withDevice (ds : List Nat) : Option Nat → List Nat
  | none => ds
  | some dev => if dev ∈ ds then ds else ds ++ [dev]

theorem wantedOf_succ (j : Nat) :
    wantedOf devs flag errors arg (j + 1) = withDevice (wantedOf devs flag errors arg j) (usableAt devs flag errors arg j) := by
  unfold wantedOf
  rw [range_succ, filterMap_append]
  cases h : usableAt devs flag errors arg j with
  | none => simp [h, withDevice]
  | some dev => simp only [filterMap_cons, h, filterMap_nil, eraseDups_concat, withDevice]

theorem length_withDevice_le (ds : List Nat) (dev : Option Nat) : (withDevice ds dev).length ≤ ds.length + 1 := by
  unfold withDevice
  split
  · exact Nat.le_succ _
  · split
    · exact Nat.le_succ _
    · rw [length_append, length_singleton]

theorem length_wantedOf_le (devs : List StdioDev) (flag : UInt32) (errors : Nat → Int) (arg : CString) (j : Nat) :
    (wantedOf devs flag errors arg j).length ≤ j := by
  induction j with
  | zero => exact Nat.le_refl 0
  | succ j ih =>
    rw [wantedOf_succ]
    exact Nat.le_trans (length_withDevice_le _ _) (Nat.succ_le_succ ih)

theorem consoleAssign_eq (hflag : ioFlag console = some flag) {name : CString} {dev : Nat} (hdev : searchDevice devs flag name = some dev)
    (error : Int) (s : Consoles) :
    ∃ stdio, consoleAssign devs console name error s = (startResult devs dev error, { s with stdioDevices := stdio }) := by
  have hfile : console = STDIN ∨ console = STDOUT ∨ console = STDERR := by
    unfold ioFlag at hflag
    split at hflag
    next h => exact Or.inl h
    next =>
      split at hflag
      next h => exact Or.inr h
      next => cases hflag
  simp only [consoleAssign, hflag, hdev, consoleSetfile, if_pos hfile]
  split
  · exact ⟨s.stdioDevices, rfl⟩
  · exact ⟨_, rfl⟩

/-- Looking for a device behind the first `k` entries of an array that begins with `ds`. -/
theorem isRepeat_eq (ds : List Nat) (rest : List (Option Nat)) (dev n k : Nat) (hk : k + n = ds.length) :
    isRepeat (ds.map some ++ rest) dev n k = some (decide (dev ∈ ds.drop k)) := by
  induction n generalizing k with
  | zero => simp [isRepeat, drop_of_length_le (show ds.length ≤ k by omega)]
  | succ n ih =>
    have hlt : k < ds.length := by omega
    have hget : ((ds.map some ++ rest)[k]?).join = some ds[k] := by
      rw [getElem?_append_left (by rw [length_map]; exact hlt), getElem?_map, getElem?_eq_getElem hlt]
      rfl
    rw [isRepeat, hget]
    simp only [ih (k + 1) (by omega), drop_eq_getElem_cons hlt, mem_cons]
    by_cases hdev : dev = ds[k]
    · simp [hdev]
    · simp [hdev]

/-- `cons_set` begins with the devices found so far, and the arrays of the consoles are as they were. -/
structure Built (s : Consoles) (n : Nat) (ds : List Nat) (t : ConsSet) : Prop where
  consSet : t.consSet = ds.map some ++ List.replicate (n - ds.length) none
  csIdx : t.csIdx = ds.length
  kept : ∃ stdio, t.consoles = { s with stdioDevices := stdio }

theorem Built.store (ht : Built s n ds t) (hlen : ds.length < n) (dev : Nat) (stdio : Int → Option Nat) :
    Built s n (ds ++ [dev]) ⟨t.consSet.set t.csIdx (some dev), t.csIdx + 1, { t.consoles with stdioDevices := stdio }⟩ := by
  obtain ⟨m, hm⟩ : ∃ m, n - ds.length = m + 1 := ⟨n - ds.length - 1, by omega⟩
  obtain ⟨stdio', hkept⟩ := ht.kept
  refine ⟨?_, by simp [ht.csIdx], stdio, by rw [hkept]⟩
  have hrest : n - (ds ++ [dev]).length = m := by
    rw [length_append, length_singleton]
    omega
  have hset := set_append_right (s := ds.map some) (t := List.replicate (m + 1) none) ds.length (some dev) (by rw [length_map])
  rw [length_map, Nat.sub_self, replicate_succ, set_cons_zero] at hset
  simp only [ht.consSet, ht.csIdx, hm, hrest, replicate_succ, hset]
  simp

theorem addName_built (hflag : ioFlag console = some flag) (ht : Built s n ds t) (hlen : ds.length < n)
    (name : CString) (error : Int) :
    ∃ t', addName devs console flag name error t = some t' ∧
      Built s n (withDevice ds ((searchDevice devs flag name).filter fun dev => decide (0 ≤ startResult devs dev error))) t' := by
  cases hdev : searchDevice devs flag name with
  | none => exact ⟨t, by rw [addName, hdev], ht⟩
  | some dev =>
    have hrep : isRepeat t.consSet dev t.csIdx 0 = some (decide (dev ∈ ds)) := by
      rw [ht.consSet, ht.csIdx, isRepeat_eq ds _ dev _ 0 (Nat.zero_add _), drop_zero]
    obtain ⟨stdio, hassign⟩ := consoleAssign_eq hflag hdev error t.consoles
    rw [addName, hdev, filter_some]
    by_cases hmem : dev ∈ ds
    · -- a repeated device is not started again, and would not be stored either
      refine ⟨t, by simp only [hrep, hmem, decide_true], ?_⟩
      split
      · rw [withDevice, if_pos hmem]
        exact ht
      · exact ht
    · simp only [hrep, hmem, decide_false, hassign, decide_eq_true_eq]
      by_cases hstart : 0 ≤ startResult devs dev error
      · have hroom : t.csIdx < t.consSet.length := by
          rw [ht.consSet, ht.csIdx, length_append, length_map, length_replicate]
          omega
        rw [if_neg (Int.not_lt.mpr hstart), if_pos hroom, if_pos hstart, withDevice, if_neg hmem]
        exact ⟨_, rfl, ht.store hlen dev stdio⟩
      · obtain ⟨stdio', hkept⟩ := ht.kept
        rw [if_pos (Int.not_le.mp hstart), if_neg hstart]
        exact ⟨_, rfl, ht.consSet, ht.csIdx, stdio, by rw [hkept]⟩

/-- The third loop for the first `j` of the names, by induction on `j`. -/
theorem foldlM_addStart (devs : List StdioDev) (errors : Nat → Int) (hflag : ioFlag console = some flag) {args : List UInt8}
    {start : List (Option Nat)}
    (hplaced : Placed args start 0 (arg.bytes.splitOn chComma)) (s : Consoles) (j : Nat) (hj : j ≤ (names arg).length) :
    ∃ t, (List.range j).foldlM (addStart devs console flag args start errors) ⟨List.replicate (names arg).length none, 0, s⟩ = some t ∧
      Built s (names arg).length (wantedOf devs flag errors arg j) t := by
  induction j with
  | zero => exact ⟨_, rfl, rfl, rfl, s.stdioDevices, rfl⟩
  | succ j ih =>
    obtain ⟨t, hfold, ht⟩ := ih (by omega)
    have hlt : j < (arg.bytes.splitOn chComma).length := by simpa [names, Nat.succ_le_iff] using hj
    obtain ⟨p, hp, hname⟩ := hplaced j hlt
    have hget : (names arg)[j]? = some (CString.ofBytes (args.drop p)) := by
      rw [names, getElem?_map, getElem?_eq_getElem hlt, hname]
      rfl
    have hroom := Nat.lt_of_le_of_lt (length_wantedOf_le devs flag errors arg j) hj
    obtain ⟨t', hadd, ht'⟩ := addName_built hflag ht hroom (CString.ofBytes (args.drop p)) (errors j)
    refine ⟨t', ?_, ?_⟩
    · rw [range_succ, foldlM_append, hfold]
      rw [Nat.zero_add] at hp
      simp only [bind_eq_bind, bind_some, foldlM_cons, foldlM_nil, addStart, hp, join_some]
      rw [hadd]
      rfl
    · rw [wantedOf_succ, usableAt, hget, bind_some]
      exact ht'

/-! ## The whole of `iomux_doenv` -/

/-- Both loops over the argument find its names, whatever is done with them. -/
theorem iomuxDoenv_cut (devs : List StdioDev) (allocs : Allocs) (errors : Nat → Int) (console : Int) (arg : CString) (s : Consoles) :
    ∃ args start, Placed args start 0 (arg.bytes.splitOn chComma) ∧
    iomuxDoenv devs allocs errors console arg s =
      if allocs.strdup = false ∨ allocs.malloc = false ∨ allocs.calloc = false then some (1, s)
      else
        match ioFlag console with
        | none => some (1, s)
        | some flag =>
          ((List.range (names arg).length).foldlM (addStart devs console flag args start errors)
            ⟨List.replicate (names arg).length none, 0, s⟩).bind (storeConsoles allocs console) := by
  obtain ⟨f, fs, hsplit⟩ := exists_cons_of_ne_nil (splitOn_ne_nil chComma arg.bytes)
  have hplain := plain_splitOn arg
  have hjoined := joined_splitOn chComma 0 arg.bytes
  have hfuel := length_splitOn_le chComma arg.bytes
  rw [hsplit] at hplain hjoined hfuel
  rw [length_cons] at hfuel
  have hlen : (names arg).length = fs.length + 1 := by rw [names, length_map, hsplit, length_cons]
  have hcount := countArgs_joined fs f [] (arg.bytes.length + 1) 0 hplain hfuel
  obtain ⟨start, hfill, -, hplaced⟩ := fillStart_joined fs f [] ((List.replicate (fs.length + 1) none).set 0 (some 0))
    (arg.bytes.length + 1) 0 hplain hfuel (by simp) (by simp)
  rw [nil_append, hjoined, Nat.zero_add] at hcount hfill
  rw [← hsplit, nil_append] at hplaced
  refine ⟨_, start, hplaced, ?_⟩
  rw [iomuxDoenv, hlen]
  rw [length_nil] at hcount
  by_cases hstrdup : allocs.strdup = false
  · rw [if_pos hstrdup, if_pos (Or.inl hstrdup)]
  · rw [if_neg hstrdup, hcount, bind_some]
    by_cases hmalloc : allocs.malloc = false
    · rw [if_pos hmalloc, if_pos (Or.inr (Or.inl hmalloc))]
    · rw [if_neg hmalloc, if_neg (Nat.succ_ne_zero _), hfill, bind_some]
      by_cases hcalloc : allocs.calloc = false
      · rw [if_pos hcalloc, if_pos (Or.inr (Or.inr hcalloc))]
      · rw [if_neg hcalloc, if_neg (by simp [hstrdup, hmalloc, hcalloc]), hsplit]
        rfl

/-- The array of the console is given to `realloc`: there is a usable device, and memory for all that comes before. -/
def Reallocs (devs : List StdioDev) (allocs : Allocs) (errors : Nat → Int) (console : Int) (arg : CString) : Prop :=
  allocs.strdup = true ∧ allocs.malloc = true ∧ allocs.calloc = true ∧ ∃ flag, ioFlag console = some flag ∧ wanted devs flag errors arg ≠ []

/-- The console has `ds` in its array. -/
def Holds (console : Int) (ds : List Nat) (s : Consoles) : Prop :=
  s.consoleDevices console = some (ds.map some) ∧ s.cdCount console = ds.length

theorem iomuxDoenv_reallocs (hreallocs : Reallocs devs allocs errors console arg) (s : Consoles) :
    (allocs.realloc = true ∧ ∃ flag s', ioFlag console = some flag ∧ iomuxDoenv devs allocs errors console arg s = some (0, s') ∧
      Holds console (wanted devs flag errors arg) s') ∨
    (allocs.realloc = false ∧ ∃ s', iomuxDoenv devs allocs errors console arg s = some (1, s') ∧
      s'.consoleDevices console = none ∧ s'.cdCount console = s.cdCount console) := by
  obtain ⟨hstrdup, hmalloc, hcalloc, flag, hflag, hne⟩ := hreallocs
  obtain ⟨args, start, hplaced, heq⟩ := iomuxDoenv_cut devs allocs errors console arg s
  obtain ⟨t, hfold, ht⟩ := foldlM_addStart devs errors hflag hplaced s (names arg).length (Nat.le_refl _)
  obtain ⟨stdio, hkept⟩ := ht.kept
  have hpos : t.csIdx ≠ 0 := by
    rw [ht.csIdx]
    exact mt eq_nil_of_length_eq_zero hne
  have hle := length_wantedOf_le devs flag errors arg (names arg).length
  rw [if_neg (by simp [hstrdup, hmalloc, hcalloc]), hflag] at heq
  simp only [hfold, bind_some, storeConsoles, if_neg hpos] at heq
  cases hrealloc : allocs.realloc with
  | false =>
    rw [if_pos hrealloc] at heq
    exact Or.inr ⟨rfl, _, heq, Function.update_self .., by rw [hkept]⟩
  | true =>
    have htake : t.consSet.take t.csIdx = (wanted devs flag errors arg).map some := by
      rw [ht.consSet, ht.csIdx]
      exact take_left' (by rw [length_map])
    have hroom : t.csIdx ≤ t.consSet.length := by
      rw [ht.consSet, ht.csIdx, length_append, length_map]
      exact Nat.le_add_right _ _
    rw [if_neg (by simp [hrealloc]), if_pos hroom, htake] at heq
    exact Or.inl ⟨rfl, flag, _, hflag, heq, Function.update_self .., (Function.update_self ..).trans ht.csIdx⟩

/-- Where it does not, it returns 1 and has not touched the console. -/
theorem iomuxDoenv_not_reallocs (hnot : ¬Reallocs devs allocs errors console arg) (s : Consoles) :
    ∃ s', iomuxDoenv devs allocs errors console arg s = some (1, s') ∧ s'.consoleDevices = s.consoleDevices ∧ s'.cdCount = s.cdCount := by
  obtain ⟨args, start, hplaced, heq⟩ := iomuxDoenv_cut devs allocs errors console arg s
  rw [heq]
  by_cases halloc : allocs.strdup = false ∨ allocs.malloc = false ∨ allocs.calloc = false
  · exact ⟨s, if_pos halloc, rfl, rfl⟩
  · rw [if_neg halloc]
    simp only [not_or, Bool.not_eq_false] at halloc
    cases hflag : ioFlag console with
    | none => exact ⟨s, rfl, rfl, rfl⟩
    | some flag =>
      obtain ⟨t, hfold, ht⟩ := foldlM_addStart devs errors hflag hplaced s (names arg).length (Nat.le_refl _)
      obtain ⟨stdio, hkept⟩ := ht.kept
      have hnil : wanted devs flag errors arg = [] := by
        by_contra hne
        exact hnot ⟨halloc.1, halloc.2.1, halloc.2.2, flag, hflag, hne⟩
      have hzero : t.csIdx = 0 := by rw [ht.csIdx, ← wanted, hnil, length_nil]
      refine ⟨t.consoles, ?_, by rw [hkept], by rw [hkept]⟩
      simp only [hfold, bind_some, storeConsoles, if_pos hzero]

/-- All or nothing: with 1 the console is as before, with 0 it has exactly the distinct usable devices, and every array was big enough. -/
def AllOrNothing (devs : List StdioDev) (allocs : Allocs) (errors : Nat → Int) (console : Int) (arg : CString) (s : Consoles) : Prop :=
  ∃ r s', iomuxDoenv devs allocs errors console arg s = some (r, s') ∧ (r = 0 ∨ r = 1) ∧
    (r = 1 → s'.consoleDevices console = s.consoleDevices console ∧ s'.cdCount console = s.cdCount console) ∧
    (r = 0 → ∃ flag, ioFlag console = some flag ∧ Holds console (wanted devs flag errors arg) s')

/-- It is all or nothing unless `realloc` fails for a console that has an array. -/
theorem iomuxDoenv_all_or_nothing_iff : AllOrNothing devs allocs errors console arg s ↔
    ¬(Reallocs devs allocs errors console arg ∧ allocs.realloc = false ∧ s.consoleDevices console ≠ none) := by
  constructor
  · rintro ⟨r, s', heq, -, hone, -⟩ ⟨hreallocs, hrealloc, hnull⟩
    rcases iomuxDoenv_reallocs hreallocs s with ⟨htrue, -⟩ | ⟨-, s'', heq', hlost, -⟩
    · cases hrealloc.symm.trans htrue
    · obtain ⟨rfl, rfl⟩ := Prod.mk.inj (some.inj (heq.symm.trans heq'))
      exact hnull ((hone rfl).1.symm.trans hlost)
  · intro hcond
    by_cases hreallocs : Reallocs devs allocs errors console arg
    · rcases iomuxDoenv_reallocs hreallocs s with ⟨-, flag, s', hflag, heq, hholds⟩ | ⟨hrealloc, s', heq, hlost, hcount⟩
      · exact ⟨0, s', heq, Or.inl rfl, fun h => absurd h (by decide), fun _ => ⟨flag, hflag, hholds⟩⟩
      · have hnull : s.consoleDevices console = none := by
          by_contra hnull
          exact hcond ⟨hreallocs, hrealloc, hnull⟩
        exact ⟨1, s', heq, Or.inr rfl, fun _ => ⟨hlost.trans hnull.symm, hcount⟩, fun h => absurd h (by decide)⟩
    · obtain ⟨s', heq, hdevices, hcount⟩ := iomuxDoenv_not_reallocs hreallocs s
      exact ⟨1, s', heq, Or.inr rfl, fun _ => ⟨by rw [hdevices], by rw [hcount]⟩, fun h => absurd h (by decide)⟩

/-! ## An array that is lost -/

def serialName : CString := ⟨[0x73, 0x65, 0x72, 0x69, 0x61, 0x6c], by decide⟩

/-- A device for input and output with this name. -/
def serialDev : StdioDev := ⟨DEV_FLAGS_INPUT ||| DEV_FLAGS_OUTPUT, serialName, false⟩

/-- Every console has this device. -/
def onSerial : Consoles := ⟨fun _ => some 0, fun _ => some [some 0], fun _ => 1⟩

theorem onSerial_run : (iomuxDoenv [serialDev] ⟨true, true, true, false⟩ (fun _ => 0) STDOUT serialName onSerial).map
    (fun r => (r.1, r.2.consoleDevices STDOUT, r.2.cdCount STDOUT)) = some (1, none, 1) := by decide

/-- It returns 1, and the console has no array with a count of one. -/
theorem iomuxDoenv_array_lost : ¬AllOrNothing [serialDev] ⟨true, true, true, false⟩ (fun _ => 0) STDOUT serialName onSerial := by
  rintro ⟨r, s', heq, -, hone, -⟩
  have hrun := onSerial_run
  rw [heq, map_some, some.injEq, Prod.mk.injEq, Prod.mk.injEq] at hrun
  have hkept := (hone hrun.1).1
  rw [hrun.2.1] at hkept
  cases hkept

end Iomux

end UBoot
