import UBoot.AutoComplete
import UBoot.Theorems.EnvEnumeration

/-!
# When tab completion is sound

Statements about one call of `cmd_auto_complete`, for any table of commands, any environment and any line that is shorter than the buffer.
-/

namespace UBoot

open Lib List Option CString

/-! ## Common prefixes -/

theorem take_matchLen (len : Nat) (s t : List UInt8) : s.take (matchLen len s t) = commonPrefix (s.take len) t := by
  induction len generalizing s t with
  | zero =>
    rw [take_zero]
    exact take_zero
  | succ len ih =>
    cases s with
    | nil => simp [commonPrefix]
    | cons a s =>
      cases t with
      | nil => simp [matchLen, commonPrefix_nil_right]
      | cons b t =>
        rw [matchLen, take_succ_cons, commonPrefix]
        by_cases hba : b = a
        · rw [if_pos hba, if_pos hba.symm, take_succ_cons, ih]
        · rw [if_neg hba, if_neg (Ne.symm hba), take_zero]

theorem matchLen_le (len : Nat) (s t : List UInt8) : matchLen len s t ≤ len := by
  induction len generalizing s t with
  | zero => exact Nat.le_refl 0
  | succ len ih =>
    cases s with
    | nil => exact Nat.zero_le _
    | cons a s =>
      cases t with
      | nil => exact Nat.zero_le _
      | cons b t =>
        rw [matchLen]
        split
        · exact Nat.succ_le_succ (ih s t)
        · exact Nat.zero_le _

def bytesOf (cmdv : List CString) : List (List UInt8) := cmdv.map CString.bytes

theorem take_findCommonPrefix (cmd : CString) (cmdv : List CString) :
    cmd.bytes.take (findCommonPrefix (cmd :: cmdv)) = longestCommonPrefix (bytesOf (cmd :: cmdv)) := by
  have hfold : ∀ len, cmd.bytes.take (cmdv.foldl (fun len t => matchLen len cmd.bytes t.bytes) len) =
      (cmdv.map CString.bytes).foldl commonPrefix (cmd.bytes.take len) := by
    induction cmdv with
    | nil => exact fun _ => rfl
    | cons t cmdv ih =>
      intro len
      rw [foldl_cons, map_cons, foldl_cons, ih, take_matchLen]
  rw [findCommonPrefix, hfold, take_length]
  rfl

theorem findCommonPrefix_le (cmd : CString) (cmdv : List CString) : findCommonPrefix (cmd :: cmdv) ≤ cmd.bytes.length := by
  have hfold : ∀ len, cmdv.foldl (fun len t => matchLen len cmd.bytes t.bytes) len ≤ len := by
    induction cmdv with
    | nil => exact Nat.le_refl
    | cons t cmdv ih => exact fun len => (ih _).trans (matchLen_le _ _ _)
  exact hfold _

theorem findCommonPrefix_eq (cmd : CString) (cmdv : List CString) :
    findCommonPrefix (cmd :: cmdv) = (longestCommonPrefix (bytesOf (cmd :: cmdv))).length := by
  rw [← take_findCommonPrefix, length_take, Nat.min_eq_left (findCommonPrefix_le _ _)]

/-! ## Candidates -/

/-- What the last word is looked for in: the commands whose name begins with a string, or the variables. -/
inductive Asked where
  | cmds (start : List UInt8)
  | vars (start : CString)
  | nothing

/-- The variables, for the next argument of a command or for its first one. -/
def askedVar (argv : List CString) (lastChar : UInt8) : Asked :=
  match argv, spaceAt lastChar with
  | [_], true => .vars (ofBytes [])
  | [_, var], false => .vars var
  | _, _ => .nothing

/-- Any command, a variable for a command that takes one, or a command with this name up to a dot. -/
def asked (table : List CmdTbl) (argv : List CString) (lastChar : UInt8) : Asked :=
  match argv with
  | [] => .cmds []
  | cmd :: _ =>
    if 1 < argv.length ∨ spaceAt lastChar then
      match findCmd table cmd with
      | none => .nothing
      | some cmdtp => if cmdtp.complete then askedVar argv lastChar else .nothing
    else .cmds (beforeDot cmd)

/-- The names of the commands that begin with a string. -/
def cmdNames (table : List CmdTbl) (cmd : List UInt8) : List CString := (table.map CmdTbl.name).filter fun name => cmd.isPrefixOf name.bytes

/-- The name in a slot that is in use, if it begins with a string. -/
def slotName (h : Htab) (var : CString) (i : Nat) : Option CString :=
  if 0 < (h.table i).used then (h.table i).key.filter fun key => var.bytes.isPrefixOf key.bytes else none

/-- The names of the variables in some slots that begin with a string. -/
def varNames (h : Htab) (var : CString) (slots : List Nat) : List CString := slots.filterMap (slotName h var)

/-- What the last word can be completed to. -/
def Asked.candidates (table : List CmdTbl) (h : Htab) : Asked → List CString
  | .cmds start => cmdNames table start
  | .vars start => varNames h start (List.range' 1 h.size)
  | .nothing => []

/-- The first names, up to a number of them and a number of bytes for them with their NULs. -/
def roomFor : Nat → Nat → List CString → List CString
  | n + 1, room, name :: names => if name.bytes.length + 1 ≤ room then name :: roomFor n (room - (name.bytes.length + 1)) names else []
  | _, _, _ => []

/-- The candidates that completion works with: the first 18 commands; or the names that fit of the variables in the slots before the last
one, sorted. The marker is behind them if there are more. -/
def Asked.strings (table : List CmdTbl) (h : Htab) : Asked → List CString
  | .cmds start =>
    let names := cmdNames table start
    names.take (CMDV_SIZE - 2) ++ if CMDV_SIZE - 2 < names.length then [dots] else []
  | .vars start =>
    let names := varNames h start (List.range' 1 (h.size - 1))
    let shown := roomFor (CMDV_SIZE - 2) VAR_BUFSZ names
    qsort strcmp shown ++ if shown.length < names.length then [dots] else []
  | .nothing => []

/-- Each slot in use has a name, up to the first one whose name does not fit. -/
def NamesKnown (h : Htab) (var : CString) (n room : Nat) (slots : List Nat) : Prop :=
  ∀ before i after, slots = before ++ i :: after → 0 < (h.table i).used →
    roomFor n room (varNames h var before) = varNames h var before → (h.table i).key.isSome

/-- The names that are looked at are there. -/
def Asked.Readable (h : Htab) : Asked → Prop
  | .vars start => NamesKnown h start (CMDV_SIZE - 2) VAR_BUFSZ (List.range' 1 (h.size - 1))
  | _ => True

section

variable {table : List CmdTbl} {h : Htab} {var : CString} {n room : Nat} {slots : List Nat} {i : Nat}
variable {name : CString} {idx : Nat}

theorem roomFor_length_le (n room : Nat) (names : List CString) : (roomFor n room names).length ≤ names.length := by
  induction names generalizing n room with
  | nil => cases n <;> exact Nat.le_refl 0
  | cons name names ih =>
    cases n with
    | zero => exact Nat.zero_le _
    | succ n =>
      rw [roomFor]
      split
      · exact Nat.succ_le_succ (ih n _)
      · exact Nat.zero_le _

theorem Asked.length_strings_le (table : List CmdTbl) (h : Htab) (a : Asked) : (a.strings table h).length ≤ (a.candidates table h).length := by
  cases a with
  | cmds start =>
    simp only [Asked.strings, Asked.candidates, length_append, length_take]
    split
    · rw [length_singleton]
      omega
    · rw [length_nil]
      omega
  | vars start =>
    have hle := roomFor_length_le (CMDV_SIZE - 2) VAR_BUFSZ (varNames h start (List.range' 1 (h.size - 1)))
    have hsub : (List.range' 1 (h.size - 1)).Sublist (List.range' 1 h.size) := range'_sublist_right.2 (Nat.sub_le _ _)
    have hall : (varNames h start (List.range' 1 (h.size - 1))).length ≤ (varNames h start (List.range' 1 h.size)).length :=
      (hsub.filterMap _).length_le
    simp only [Asked.strings, Asked.candidates, length_append, (ExportAux.qsort_perm strcmp _).length_eq]
    split
    · rw [length_singleton]
      omega
    · rw [length_nil]
      omega
  | nothing => exact Nat.le_refl 0

theorem matchCmds_eq (start : List UInt8) {cmdv : List CString} (hle : cmdv.length ≤ CMDV_SIZE - 2) (table : List CmdTbl) :
    matchCmds CMDV_SIZE start cmdv table = (cmdv ++ cmdNames table start).take (CMDV_SIZE - 2) ++
      if CMDV_SIZE - 2 < (cmdv ++ cmdNames table start).length then [dots] else [] := by
  unfold CMDV_SIZE at *
  induction table generalizing cmdv with
  | nil => simp [matchCmds, cmdNames, take_of_length_le hle, Nat.not_lt.2 hle]
  | cons cmdtp table ih =>
    rw [matchCmds]
    split
    next hstarts =>
      have hnames : cmdNames (cmdtp :: table) start = cmdtp.name :: cmdNames table start := by
        simp only [cmdNames, map_cons]
        exact filter_cons_of_pos hstarts
      rw [hnames]
      split
      next hfull =>
        have hlen : cmdv.length = 18 := by omega
        rw [if_pos (by rw [length_append, length_cons]; omega), take_append_of_le_length (by omega), take_of_length_le (by omega)]
      next hroom =>
        rw [ih (by rw [length_append, length_singleton]; omega), append_assoc, singleton_append]
    next hother =>
      have hnames : cmdNames (cmdtp :: table) start = cmdNames table start := by
        simp only [cmdNames, map_cons]
        exact filter_cons_of_neg hother
      rw [hnames, ih hle]

/-! ## The names of variables -/

theorem namesKnown_skip (hname : slotName h var i = none) (hkey : 0 < (h.table i).used → (h.table i).key.isSome) :
    NamesKnown h var n room (i :: slots) ↔ NamesKnown h var n room slots := by
  have hbefore (before : List Nat) : varNames h var (i :: before) = varNames h var before := filterMap_cons_none hname
  constructor
  · intro hall before j after hslots hused hfit
    refine hall (i :: before) j after (by rw [hslots, cons_append]) hused ?_
    rw [hbefore, hfit]
  · intro hall before j after hslots hused hfit
    cases before with
    | nil =>
      obtain ⟨rfl, -⟩ := cons.inj hslots
      exact hkey hused
    | cons x before =>
      obtain ⟨rfl, hrest⟩ := cons.inj hslots
      rw [hbefore] at hfit
      exact hall before j after hrest hused hfit

theorem key_of_slotName (hname : slotName h var i = some name) :
    0 < (h.table i).used ∧ (h.table i).key = some name ∧ var.bytes.isPrefixOf name.bytes := by
  unfold slotName at hname
  split at hname
  next hused => exact ⟨hused, (Option.filter_eq_some_iff.1 hname).1, (Option.filter_eq_some_iff.1 hname).2⟩
  next => cases hname

theorem namesKnown_take (hname : slotName h var i = some name) (hroom : name.bytes.length + 1 ≤ room) :
    NamesKnown h var (n + 1) room (i :: slots) ↔ NamesKnown h var n (room - (name.bytes.length + 1)) slots := by
  have hbefore (before : List Nat) : varNames h var (i :: before) = name :: varNames h var before := filterMap_cons_some hname
  constructor
  · intro hall before j after hslots hused hfit
    refine hall (i :: before) j after (by rw [hslots, cons_append]) hused ?_
    rw [hbefore, roomFor, if_pos hroom, hfit]
  · intro hall before j after hslots hused hfit
    cases before with
    | nil =>
      obtain ⟨rfl, -⟩ := cons.inj hslots
      rw [(key_of_slotName hname).2.1]
      rfl
    | cons x before =>
      obtain ⟨rfl, hrest⟩ := cons.inj hslots
      rw [hbefore, roomFor, if_pos hroom] at hfit
      exact hall before j after hrest hused (cons.inj hfit).2

theorem namesKnown_stop (hname : slotName h var i = some name) (hfull : ∀ names, roomFor n room (name :: names) = []) :
    NamesKnown h var n room (i :: slots) := by
  intro before j after hslots _ hfit
  cases before with
  | nil =>
    obtain ⟨rfl, -⟩ := cons.inj hslots
    rw [(key_of_slotName hname).2.1]
    rfl
  | cons x before =>
    obtain ⟨rfl, -⟩ := cons.inj hslots
    rw [varNames, filterMap_cons_some hname, hfull] at hfit
    cases hfit

theorem scan_succ (test : Slot → Option Bool) {fuel : Nat} (hfuel : h.size < idx + (fuel + 1)) :
    h.scan test (fuel + 1 + 1) idx = h.scan test (fuel + 1) idx := by
  induction fuel generalizing idx with
  | zero => simp [Htab.scan, Nat.not_lt.2 (Nat.le_of_lt_succ hfuel)]
  | succ fuel ih =>
    have ih' := ih (show h.size < idx + 1 + (fuel + 1) by omega)
    unfold Htab.scan
    rw [ih']

theorem hmatchR_skip (hlt : idx + 1 < h.size) (hname : slotName h var (idx + 1) = none)
    (hkey : 0 < (h.table (idx + 1)).used → (h.table (idx + 1)).key.isSome) : hmatchR var idx h = hmatchR var (idx + 1) h := by
  obtain ⟨size, hsize⟩ := Nat.exists_eq_succ_of_ne_zero (show h.size ≠ 0 by omega)
  have hrest : hmatchR var (idx + 1) h = h.scan (matchTest var) h.size (idx + 1 + 1) := by
    rw [hmatchR, hsize]
    exact scan_succ _ (by omega)
  rw [hrest, hmatchR, Htab.scan, if_pos hlt]
  split
  · rfl
  next hused =>
    obtain ⟨key, hsome⟩ := isSome_iff_exists.1 (hkey (Int.not_le.1 hused))
    have hother : var.bytes.isPrefixOf key.bytes = false := by
      simpa [slotName, hsome, Int.not_le.1 hused, Option.filter, Bool.eq_false_iff] using hname
    rw [matchTest, hsome, Option.map_some, hother]

theorem hmatchR_here (hlt : idx + 1 < h.size) (hname : slotName h var (idx + 1) = some name) :
    hmatchR var idx h = some (idx + 1) := by
  obtain ⟨hused, hkey, hstarts⟩ := key_of_slotName hname
  rw [hmatchR, Htab.scan, if_pos hlt, if_neg (Int.not_le.2 hused), matchTest, hkey, Option.map_some, hstarts]

theorem hmatchR_stuck (hlt : idx + 1 < h.size) (hused : 0 < (h.table (idx + 1)).used) (hkey : (h.table (idx + 1)).key = none) :
    hmatchR var idx h = none := by
  rw [hmatchR, Htab.scan, if_pos hlt, if_neg (Int.not_le.2 hused), matchTest, hkey]
  rfl

theorem envCompleteBody_name (room : Nat) (hkey : (h.table i).key = some name) {names : List CString}
    (hn : names.length + n = CMDV_SIZE - 2) :
    envCompleteBody h CMDV_SIZE i (names, (room : Int)) =
      some (if n = 0 ∨ room < name.bytes.length + 1 then (false, names, (room : Int))
        else (true, names ++ [name], ((room - (name.bytes.length + 1) : Nat) : Int))) := by
  unfold CMDV_SIZE at *
  rw [envCompleteBody, hkey, Option.map_some]
  dsimp only
  by_cases hfull : n = 0 ∨ room < name.bytes.length + 1
  · rw [if_pos hfull, if_pos (by omega)]
  · have hroom : ((room - (name.bytes.length + 1) : Nat) : Int) = (room : Int) - (name.bytes.length + 1) := by omega
    rw [if_neg hfull, if_neg (by omega), hroom]

theorem envLoop_eq (room : Nat) (names : List CString) (fuel : Nat) (hslots : slots = List.range' (idx + 1) (h.size - (idx + 1)))
    (hn : names.length + n = CMDV_SIZE - 2) (hfuel : h.size < idx + fuel) (h0 : 0 < fuel) :
    (NamesKnown h var n room slots → ∃ last left,
      whileNext (fun idx => hmatchR var idx h) (envCompleteBody h CMDV_SIZE) fuel idx (names, (room : Int)) =
        some (last, names ++ roomFor n room (varNames h var slots), left) ∧
      (last ≠ 0 ↔ (roomFor n room (varNames h var slots)).length < (varNames h var slots).length)) ∧
    (¬NamesKnown h var n room slots →
      whileNext (fun idx => hmatchR var idx h) (envCompleteBody h CMDV_SIZE) fuel idx (names, (room : Int)) = none) := by
  induction slots generalizing idx names n room fuel with
  | nil =>
    have hend : hmatchR var idx h = some 0 := by
      have hge : ¬idx + 1 < h.size := by
        intro hlt
        have hlen := congrArg List.length hslots
        rw [length_nil, length_range'] at hlen
        omega
      rw [hmatchR, Htab.scan, if_neg hge]
    obtain ⟨fuel, rfl⟩ := Nat.exists_eq_succ_of_ne_zero (Nat.ne_of_gt h0)
    have hnone : roomFor n room (varNames h var []) = [] := by cases n <;> rfl
    refine ⟨fun _ => ⟨0, room, ?_, ?_⟩, fun hno => absurd ?_ hno⟩
    · rw [whileNext, hend, hnone, append_nil]
      rfl
    · rw [hnone]
      exact iff_of_false (fun hne => hne rfl) (Nat.lt_irrefl 0)
    · intro before i after hnil
      simp at hnil
  | cons i slots ih =>
    have hlt : idx + 1 < h.size := by
      by_contra hge
      rw [Nat.sub_eq_zero_of_le (Nat.not_lt.1 hge)] at hslots
      cases hslots
    obtain ⟨rfl, hrest⟩ : i = idx + 1 ∧ slots = List.range' (idx + 1 + 1) (h.size - (idx + 1 + 1)) := by
      rw [show h.size - (idx + 1) = (h.size - (idx + 1 + 1)) + 1 by omega, range'_succ] at hslots
      exact cons.inj hslots
    obtain ⟨fuel, rfl⟩ := Nat.exists_eq_succ_of_ne_zero (Nat.ne_of_gt h0)
    -- the loop goes on behind the slot
    have hskip (hname : slotName h var (idx + 1) = none) (hkey : 0 < (h.table (idx + 1)).used → (h.table (idx + 1)).key.isSome) :
        whileNext (fun idx => hmatchR var idx h) (envCompleteBody h CMDV_SIZE) (fuel + 1) idx (names, (room : Int)) =
          whileNext (fun idx => hmatchR var idx h) (envCompleteBody h CMDV_SIZE) (fuel + 1) (idx + 1) (names, (room : Int)) := by
      rw [whileNext, whileNext, hmatchR_skip hlt hname hkey]
    cases hname : slotName h var (idx + 1) with
    | none =>
      by_cases hkey : 0 < (h.table (idx + 1)).used → (h.table (idx + 1)).key.isSome
      · rw [namesKnown_skip hname hkey, hskip hname hkey, varNames, filterMap_cons_none hname]
        exact ih room names (fuel + 1) hrest hn (by omega) h0
      · push Not at hkey
        have hnone := not_isSome_iff_eq_none.1 hkey.2
        refine ⟨fun hknown => absurd (hknown [] _ slots rfl hkey.1 (by cases n <;> rfl)) hkey.2, fun _ => ?_⟩
        rw [whileNext, hmatchR_stuck hlt hkey.1 hnone]
    | some name =>
      have hkey := (key_of_slotName hname).2.1
      have hnames : varNames h var ((idx + 1) :: slots) = name :: varNames h var slots := filterMap_cons_some hname
      have hbody := envCompleteBody_name room hkey hn
      by_cases hfull : n = 0 ∨ room < name.bytes.length + 1
      · have hnone (names : List CString) : roomFor n room (name :: names) = [] := by
          cases n with
          | zero => rfl
          | succ n => rw [roomFor, if_neg (by omega)]
        refine ⟨fun _ => ⟨idx + 1, room, ?_, ?_⟩, fun hno => absurd (namesKnown_stop hname hnone) hno⟩
        · rw [whileNext, hmatchR_here hlt hname]
          dsimp only
          rw [if_neg (Nat.succ_ne_zero idx), hbody, if_pos hfull, hnames, hnone, append_nil]
        · rw [hnames, hnone]
          exact iff_of_true (Nat.succ_ne_zero idx) (Nat.succ_pos _)
      · obtain ⟨n, rfl⟩ := Nat.exists_eq_succ_of_ne_zero (not_or.1 hfull).1
        have hroom := Nat.not_lt.1 (not_or.1 hfull).2
        have hnext : whileNext (fun idx => hmatchR var idx h) (envCompleteBody h CMDV_SIZE) (fuel + 1) idx (names, (room : Int)) =
            whileNext (fun idx => hmatchR var idx h) (envCompleteBody h CMDV_SIZE) fuel (idx + 1)
              (names ++ [name], ((room - (name.bytes.length + 1) : Nat) : Int)) := by
          rw [whileNext, hmatchR_here hlt hname]
          dsimp only
          rw [if_neg (Nat.succ_ne_zero idx), hbody, if_neg hfull]
        have hrec := ih (room - (name.bytes.length + 1)) (names ++ [name]) fuel hrest (n := n)
          (by rw [length_append, length_singleton]; omega) (by omega) (by omega)
        rw [namesKnown_take hname hroom, hnext, hnames, roomFor, if_pos hroom, length_cons, length_cons, Nat.succ_lt_succ_iff]
        simpa only [append_assoc, singleton_append] using hrec

theorem envComplete_strings (h : Htab) (var : CString) :
    ((Asked.vars var).Readable h → envComplete var CMDV_SIZE VAR_BUFSZ h = some ((Asked.vars var).strings [] h)) ∧
      (¬(Asked.vars var).Readable h → envComplete var CMDV_SIZE VAR_BUFSZ h = none) := by
  have hslots : List.range' 1 (h.size - 1) = List.range' (0 + 1) (h.size - (0 + 1)) := rfl
  obtain ⟨hgood, hbad⟩ := envLoop_eq VAR_BUFSZ [] (h.size + 1) hslots (Nat.zero_add (CMDV_SIZE - 2)) (by omega) (Nat.succ_pos _)
  constructor
  · intro hknown
    obtain ⟨last, left, hloop, hlast⟩ := hgood hknown
    unfold envComplete
    rw [hloop, Option.map_some, nil_append]
    simp only [Asked.strings, hlast]
  · intro hknown
    unfold envComplete
    rw [hbad hknown]
    rfl

theorem readable_of_valid (hw : h.Valid) (a : Asked) : a.Readable h := by
  cases a with
  | vars start =>
    intro before i after hslots hused _
    have hi : i ∈ List.range' 1 (h.size - 1) := by
      rw [hslots]
      exact mem_append_right before mem_cons_self
    rw [mem_range'_1] at hi
    obtain ⟨k, v, hholds⟩ := (hw.used_pos_iff hi.1 (by omega)).1 hused
    rw [hholds.2.2]
    rfl
  | cmds start => trivial
  | nothing => trivial

theorem completeCmdv_eq (table : List CmdTbl) (h : Htab) (argv : List CString) (lastChar : UInt8) :
    ((asked table argv lastChar).Readable h →
      completeCmdv table h argv lastChar CMDV_SIZE = some ((asked table argv lastChar).strings table h)) ∧
    (¬(asked table argv lastChar).Readable h → completeCmdv table h argv lastChar CMDV_SIZE = none) := by
  have hcmds (start : List UInt8) : matchCmds CMDV_SIZE start [] table = (Asked.cmds start).strings table h :=
    matchCmds_eq start (by decide) table
  have hvars : ((askedVar argv lastChar).Readable h →
        varComplete h argv lastChar CMDV_SIZE = some ((askedVar argv lastChar).strings table h)) ∧
      (¬(askedVar argv lastChar).Readable h → varComplete h argv lastChar CMDV_SIZE = none) := by
    have hnothing : (Asked.nothing.Readable h → some [] = some (Asked.nothing.strings table h)) ∧
        (¬Asked.nothing.Readable h → some ([] : List CString) = none) := ⟨fun _ => rfl, fun hno => absurd trivial hno⟩
    unfold askedVar varComplete
    rcases argv with _ | ⟨cmd, _ | ⟨var, _ | ⟨_, _⟩⟩⟩
    · exact hnothing
    · cases spaceAt lastChar
      · exact hnothing
      · exact envComplete_strings h _
    · cases spaceAt lastChar
      · exact envComplete_strings h var
      · exact hnothing
    · exact hnothing
  cases argv with
  | nil => exact ⟨fun _ => congrArg some (hcmds []), fun hno => absurd trivial hno⟩
  | cons cmd argv =>
    unfold asked completeCmdv
    dsimp only
    split
    · cases findCmd table cmd with
      | none => exact ⟨fun _ => rfl, fun hno => absurd trivial hno⟩
      | some cmdtp =>
        dsimp only
        split
        · exact hvars
        · exact ⟨fun _ => rfl, fun hno => absurd trivial hno⟩
    · exact ⟨fun _ => congrArg some (hcmds _), fun hno => absurd trivial hno⟩

end

/-! ## The last argument -/

/-- `argv[argc - 1]`, if there is one. -/
def lastArg (argv : List CString) : List UInt8 := (argv.getLast?.map CString.bytes).getD []

/-- The word that is to be completed: the last one of the line, or an empty one behind a blank. -/
def lastWord (argv : List CString) (lastChar : UInt8) : List UInt8 := if spaceAt lastChar then [] else lastArg argv

/-- What the strings in `cmdv` have in common. -/
def shared (cmdv : List CString) : List UInt8 := longestCommonPrefix (bytesOf cmdv)

theorem shared_begins {cmdv : List CString} {cmd : CString} (h : cmd ∈ cmdv) : shared cmdv <+: cmd.bytes :=
  longestCommonPrefix_begins (mem_map_of_mem h)

theorem shared_single (cmd : CString) : shared [cmd] = cmd.bytes := rfl

/-- The separator: a blank behind the only string. -/
def sepFor (strings : List CString) : List UInt8 := if strings.length = 1 then [chSpace] else []

/-- The text behind as many characters as the last argument has is to be put behind the line, and it fits. -/
def Adds (cbsize : Nat) (buf : CString) (argv cmdv : List CString) : Prop :=
  (cmdv.length = 1 ∨ (lastArg argv).length < (shared cmdv).length) ∧
    buf.bytes.length + ((shared cmdv).drop (lastArg argv).length).length + (sepFor cmdv).length + 2 < cbsize

/-- What a call is to leave: the line with text behind it that makes the last word a common prefix of all candidates, and a blank just if
there is one; or the line as it was. -/
structure Completed (cbsize : Nat) (buf : CString) (word : List UInt8) (cands : List CString) (c : Completion) : Prop where
  line : c.line = buf.bytes ++ c.text ++ c.sep
  np : c.np = c.line.length
  room : c.line.length < cbsize
  word : c.text ++ c.sep ≠ [] → c.sep = sepFor cands ∧ ∀ name ∈ cands, word ++ c.text <+: name.bytes

/-- The condition on the last argument, for the strings and the candidates. The argument is there, and is not longer than an only string.
Where text is put behind the line, an only string is that of an only candidate; the last argument is a prefix of what the strings have in
common, or behind a blank this goes on as it begins; and a candidate that is not among the strings goes on in the same way. -/
structure CompletesArg (cbsize : Nat) (buf : CString) (argv : List CString) (lastChar : UInt8) (cmdv cands : List CString) : Prop where
  arg : cmdv.length = 1 ∨ shared cmdv ≠ [] → argv ≠ []
  inside : cmdv.length = 1 → (lastArg argv).length ≤ (shared cmdv).length
  only : Adds cbsize buf argv cmdv → cmdv.length = 1 → cands.length = 1
  word : Adds cbsize buf argv cmdv → (∃ name ∈ cands, name ∈ cmdv) →
    if spaceAt lastChar then (shared cmdv).drop (lastArg argv).length <+: shared cmdv else lastArg argv <+: shared cmdv
  hidden : Adds cbsize buf argv cmdv → ∀ name ∈ cands, name ∉ cmdv →
    lastWord argv lastChar ++ (shared cmdv).drop (lastArg argv).length <+: name.bytes

section

variable {cbsize : Nat} {buf : CString} {argv cmdv cands : List CString} {lastChar : UInt8}

/-- The candidates in `cmdv` continue the word just if their common prefix does. -/
theorem continues_iff (hle : (lastArg argv).length ≤ (shared cmdv).length) :
    (∀ name ∈ cands, lastWord argv lastChar ++ (shared cmdv).drop (lastArg argv).length <+: name.bytes) ↔ ((∃ name ∈ cands, name ∈ cmdv) →
        if spaceAt lastChar then (shared cmdv).drop (lastArg argv).length <+: shared cmdv else lastArg argv <+: shared cmdv) ∧
      ∀ name ∈ cands, name ∉ cmdv → lastWord argv lastChar ++ (shared cmdv).drop (lastArg argv).length <+: name.bytes := by
  have hshared : (lastWord argv lastChar ++ (shared cmdv).drop (lastArg argv).length <+: shared cmdv) ↔
      if spaceAt lastChar then (shared cmdv).drop (lastArg argv).length <+: shared cmdv else lastArg argv <+: shared cmdv := by
    unfold lastWord
    split
    · rfl
    · exact append_drop_prefix_iff hle
  have hlen : (lastWord argv lastChar ++ (shared cmdv).drop (lastArg argv).length).length ≤ (shared cmdv).length := by
    rw [length_append, length_drop]
    unfold lastWord
    split
    · rw [length_nil]
      omega
    · omega
  rw [← hshared]
  constructor
  · refine fun h => ⟨?_, fun name hname _ => h name hname⟩
    rintro ⟨name, hname, hin⟩
    exact prefix_of_prefix_length_le (h name hname) (shared_begins hin) hlen
  · rintro ⟨hword, hrest⟩ name hname
    by_cases hin : name ∈ cmdv
    · exact (hword ⟨name, hname, hin⟩).trans (shared_begins hin)
    · exact hrest name hname hin

theorem completed_keepLine (hbuf : buf.bytes.length < cbsize) (word : List UInt8) (col : Int) (ret : Nat) :
    Completed cbsize buf word cands (keepLine buf buf.bytes.length col ret) where
  line := by
    unfold keepLine
    rw [append_nil, append_nil]
  np := rfl
  room := hbuf
  word h := absurd rfl h

theorem sepFor_eq_nil_iff : sepFor cmdv = [] ↔ cmdv.length ≠ 1 := by
  unfold sepFor
  split
  · rename_i hone
    exact iff_of_false (cons_ne_nil _ _) fun hne => hne hone
  · rename_i hne
    exact iff_of_true rfl hne

theorem sepFor_eq_iff : sepFor cmdv = sepFor cands ↔ (cmdv.length = 1 ↔ cands.length = 1) := by
  constructor
  · intro h
    rw [← not_iff_not, ← ne_eq, ← ne_eq, ← sepFor_eq_nil_iff, ← sepFor_eq_nil_iff, h]
  · intro h
    simp only [sepFor, h]

/-- What is put behind the line completes the last word just if the condition holds. -/
theorem completed_appendText_iff (hbuf : buf.bytes.length < cbsize) (hlen : cmdv.length ≤ cands.length) (harg : argv ≠ [])
    (hle : (lastArg argv).length ≤ (shared cmdv).length)
    (hadds : cmdv.length = 1 ∨ (lastArg argv).length < (shared cmdv).length) (col : Int) :
    Completed cbsize buf (lastWord argv lastChar) cands
      (appendText cbsize buf buf.bytes.length col ((shared cmdv).drop (lastArg argv).length) (sepFor cmdv)) ↔
      CompletesArg cbsize buf argv lastChar cmdv cands := by
  unfold appendText
  dsimp only
  split
  · rename_i hfull
    have hnone : ¬Adds cbsize buf argv cmdv := fun h => by
      have := h.2
      omega
    refine iff_of_true (completed_keepLine hbuf _ _ _) ⟨fun _ => harg, fun _ => hle, ?_, ?_, ?_⟩
    · exact fun h => absurd h hnone
    · exact fun h => absurd h hnone
    · exact fun h => absurd h hnone
  · rename_i hfits
    have hall : Adds cbsize buf argv cmdv := ⟨hadds, by omega⟩
    have hne : (shared cmdv).drop (lastArg argv).length ++ sepFor cmdv ≠ [] := by
      intro h
      have hlen := congrArg List.length h
      rw [length_append, length_drop, length_nil] at hlen
      rcases hadds with hone | hless
      · rw [sepFor, if_pos hone, length_singleton] at hlen
        omega
      · omega
    constructor
    · intro h
      obtain ⟨hsep, hwords⟩ := h.word hne
      obtain ⟨hword, hhidden⟩ := (continues_iff hle).1 hwords
      exact ⟨fun _ => harg, fun _ => hle, fun _ => (sepFor_eq_iff.1 hsep).1, fun _ => hword, fun _ => hhidden⟩
    · intro h
      have hmany (hmore : cmdv.length ≠ 1) : 1 < cmdv.length := by
        have hcmdv : cmdv ≠ [] := by
          rintro rfl
          rcases hadds with hone | hless
          · cases hone
          · exact absurd hless (Nat.not_lt_zero _)
        have hpos := length_pos_of_ne_nil hcmdv
        omega
      have hone : cmdv.length = 1 ↔ cands.length = 1 := by
        refine ⟨h.only hall, fun hone => ?_⟩
        by_contra hmore
        have hless := hmany hmore
        omega
      refine ⟨rfl, ?_, ?_, fun _ => ⟨sepFor_eq_iff.2 hone, (continues_iff hle).2 ⟨h.word hall, h.hidden hall⟩⟩⟩
      · simp only [length_append]
        omega
      · simp only [length_append]
        omega

end

/-! ## A call -/

section

variable {cbsize : Nat} {buf : CString} {argv cands : List CString} {lastChar : UInt8}

theorem completesArg_of_none {cmdv : List CString} (harg : cmdv.length = 1 ∨ shared cmdv ≠ [] → argv ≠ [])
    (hmany : cmdv.length ≠ 1) (hle : (shared cmdv).length ≤ (lastArg argv).length) : CompletesArg cbsize buf argv lastChar cmdv cands := by
  have hnone : ¬Adds cbsize buf argv cmdv := by
    rintro ⟨hone | hless, -⟩
    · exact hmany hone
    · omega
  refine ⟨harg, fun hone => absurd hone hmany, ?_, ?_, ?_⟩
  · exact fun h => absurd h hnone
  · exact fun h => absurd h hnone
  · exact fun h => absurd h hnone

theorem completeLine_many (np : Nat) (col : Int) (cmd cmd' : CString) (cmdv : List CString) :
    completeLine cbsize buf np col argv (cmd :: cmd' :: cmdv) =
      if (shared (cmd :: cmd' :: cmdv)).length = 0 then some (keepLine buf np col 1)
      else argv.getLast? >>= fun arg =>
        if (shared (cmd :: cmd' :: cmdv)).length ≤ arg.bytes.length then some (keepLine buf np col 1)
        else some (appendText cbsize buf np col ((shared (cmd :: cmd' :: cmdv)).drop arg.bytes.length) []) := by
  have htake : cmd.bytes.take (findCommonPrefix (cmd :: cmd' :: cmdv)) = shared (cmd :: cmd' :: cmdv) := take_findCommonPrefix cmd _
  have hlen : findCommonPrefix (cmd :: cmd' :: cmdv) = (shared (cmd :: cmd' :: cmdv)).length := findCommonPrefix_eq cmd _
  have hline : completeLine cbsize buf np col argv (cmd :: cmd' :: cmdv) =
      if findCommonPrefix (cmd :: cmd' :: cmdv) = 0 then some (keepLine buf np col 1)
      else argv.getLast? >>= fun arg =>
        if findCommonPrefix (cmd :: cmd' :: cmdv) ≤ arg.bytes.length then some (keepLine buf np col 1)
        else some (appendText cbsize buf np col ((cmd.bytes.take (findCommonPrefix (cmd :: cmd' :: cmdv))).drop arg.bytes.length) []) := rfl
  rw [hline, htake, hlen]

theorem lastArg_cases (argv : List CString) : argv = [] ∨ argv ≠ [] ∧ ∃ arg, argv.getLast? = some arg ∧ lastArg argv = arg.bytes := by
  cases hlast : argv.getLast? with
  | none => exact Or.inl (getLast?_eq_none_iff.1 hlast)
  | some arg =>
    have hne : argv ≠ [] := by
      rintro rfl
      cases hlast
    exact Or.inr ⟨hne, arg, rfl, by rw [lastArg, hlast]; rfl⟩

/-- With one string, the end of it and a blank are put behind the line. -/
theorem completeLine_one_iff (hbuf : buf.bytes.length < cbsize) (col : Int) (cmd : CString) (hlen : [cmd].length ≤ cands.length) :
    (∃ c, completeLine cbsize buf buf.bytes.length col argv [cmd] = some c ∧ Completed cbsize buf (lastWord argv lastChar) cands c) ↔
      CompletesArg cbsize buf argv lastChar [cmd] cands := by
  rcases lastArg_cases argv with rfl | ⟨harg, arg, hlast, hbytes⟩
  · refine iff_of_false ?_ fun h => h.arg (Or.inl rfl) rfl
    rintro ⟨c, hc, -⟩
    cases hc
  · rw [completeLine, hlast, bind_eq_bind, bind_some, ← hbytes, ← shared_single]
    by_cases hless : (shared [cmd]).length < (lastArg argv).length
    · rw [if_pos hless]
      refine iff_of_false ?_ fun h => Nat.not_le.2 hless (h.inside rfl)
      rintro ⟨c, hc, -⟩
      cases hc
    · rw [if_neg hless, ← completed_appendText_iff hbuf hlen harg (Nat.not_lt.1 hless) (Or.inl rfl) col]
      exact ⟨fun ⟨c, hc, hcomp⟩ => some.inj hc ▸ hcomp, fun h => ⟨_, rfl, h⟩⟩

/-- With more strings, what they have in common is. -/
theorem completeLine_many_iff (hbuf : buf.bytes.length < cbsize) (col : Int) (cmd cmd' : CString) (cmdv : List CString)
    (hlen : (cmd :: cmd' :: cmdv).length ≤ cands.length) :
    (∃ c, completeLine cbsize buf buf.bytes.length col argv (cmd :: cmd' :: cmdv) = some c ∧
      Completed cbsize buf (lastWord argv lastChar) cands c) ↔ CompletesArg cbsize buf argv lastChar (cmd :: cmd' :: cmdv) cands := by
  have hmany : (cmd :: cmd' :: cmdv).length ≠ 1 := by simp
  have hsep : sepFor (cmd :: cmd' :: cmdv) = [] := if_neg hmany
  rw [completeLine_many]
  by_cases hnil : (shared (cmd :: cmd' :: cmdv)).length = 0
  · rw [if_pos hnil]
    refine iff_of_true ⟨_, rfl, completed_keepLine hbuf _ _ _⟩ (completesArg_of_none ?_ hmany (by omega))
    rintro (hone | hne)
    · exact absurd hone hmany
    · exact absurd (length_eq_zero_iff.1 hnil) hne
  · rw [if_neg hnil]
    rcases lastArg_cases argv with rfl | ⟨harg, arg, hlast, hbytes⟩
    · refine iff_of_false ?_ fun h => h.arg (Or.inr fun h0 => hnil (congrArg List.length h0)) rfl
      rintro ⟨c, hc, -⟩
      cases hc
    · rw [hlast, bind_eq_bind, bind_some, ← hbytes]
      by_cases hle : (shared (cmd :: cmd' :: cmdv)).length ≤ (lastArg argv).length
      · rw [if_pos hle]
        exact iff_of_true ⟨_, rfl, completed_keepLine hbuf _ _ _⟩ (completesArg_of_none (fun _ => harg) hmany hle)
      · rw [if_neg hle, ← hsep, ← completed_appendText_iff hbuf hlen harg (Nat.le_of_not_le hle) (Or.inr (Nat.not_le.1 hle)) col]
        exact ⟨fun ⟨c, hc, hcomp⟩ => some.inj hc ▸ hcomp, fun h => ⟨_, rfl, h⟩⟩

theorem completeLine_iff (hbuf : buf.bytes.length < cbsize) (col : Int) (cmdv : List CString) (hlen : cmdv.length ≤ cands.length) :
    (∃ c, completeLine cbsize buf buf.bytes.length col argv cmdv = some c ∧ Completed cbsize buf (lastWord argv lastChar) cands c) ↔
      CompletesArg cbsize buf argv lastChar cmdv cands := by
  match cmdv with
  | [] =>
    refine iff_of_true ⟨_, rfl, completed_keepLine hbuf _ _ _⟩ (completesArg_of_none ?_ (by decide) (Nat.zero_le _))
    rintro (hone | hne)
    · cases hone
    · exact absurd rfl hne
  | [cmd] => exact completeLine_one_iff hbuf col cmd hlen
  | cmd :: cmd' :: cmdv => exact completeLine_many_iff hbuf col cmd cmd' cmdv hlen

end

/-! ## A call -/

section

variable (cfg : CompleteConfig) (table : List CmdTbl) (h : Htab) (prompt buf : CString) (col : Int)

/-- What the last word of a line is looked for in. -/
def askedLine : Asked := asked table (makeArgv cfg.maxargs buf.bytes) (lastCharOf buf)

/-- The call reads inside, and leaves what it is to leave. -/
def CompletesSoundly : Prop :=
  ∃ c, cmdAutoComplete cfg table h prompt buf buf.bytes.length col = some c ∧
    Completed cfg.cbsize buf (lastWord (makeArgv cfg.maxargs buf.bytes) (lastCharOf buf)) ((askedLine cfg table buf).candidates table h) c

/-- **Completion is sound just if the last argument is what the candidates are for.** -/
theorem cmd_auto_complete_iff (hbuf : buf.bytes.length < cfg.cbsize) : CompletesSoundly cfg table h prompt buf col ↔
    (strcmp prompt cfg.prompt = 0 → (askedLine cfg table buf).Readable h ∧
      CompletesArg cfg.cbsize buf (makeArgv cfg.maxargs buf.bytes) (lastCharOf buf) ((askedLine cfg table buf).strings table h)
        ((askedLine cfg table buf).candidates table h)) := by
  obtain ⟨hgood, hbad⟩ := completeCmdv_eq table h (makeArgv cfg.maxargs buf.bytes) (lastCharOf buf)
  unfold CompletesSoundly cmdAutoComplete
  by_cases hprompt : strcmp prompt cfg.prompt ≠ 0
  · rw [if_pos hprompt]
    exact iff_of_true ⟨_, rfl, completed_keepLine hbuf _ _ _⟩ fun h0 => absurd h0 hprompt
  · rw [if_neg hprompt, forall_prop_of_true (not_not.1 hprompt)]
    dsimp only
    by_cases hreadable : (askedLine cfg table buf).Readable h
    · rw [hgood hreadable, bind_eq_bind, bind_some, and_iff_right hreadable]
      exact completeLine_iff hbuf col _ (Asked.length_strings_le table h _)
    · rw [hbad hreadable]
      refine iff_of_false ?_ fun hcond => hreadable hcond.1
      rintro ⟨c, hc, -⟩
      cases hc

end

/-- A configuration, the command `cp`, and an environment without variables. -/
def cpConfig : CompleteConfig := ⟨256, 16, ofBytes [0x3d, 0x3e, 0x20]⟩

def cpTable : List CmdTbl := [⟨ofBytes [0x63, 0x70], false⟩]

def noVars : Htab := ⟨fun _ => Slot.zero, 5, 0⟩

/-- With the command `ls`, which takes a variable, as well. -/
def lsTable : List CmdTbl := cpTable ++ [⟨ofBytes [0x6c, 0x73], true⟩]

theorem completesArg_of_eq {cbsize : Nat} {buf : CString} {argv cands : List CString} {lastChar : UInt8}
    (harg : argv ≠ []) (hinside : (lastArg argv).length ≤ (shared cands).length)
    (hword : if spaceAt lastChar then (shared cands).drop (lastArg argv).length <+: shared cands else lastArg argv <+: shared cands) :
    CompletesArg cbsize buf argv lastChar cands cands :=
  ⟨fun _ => harg, fun _ => hinside, fun _ hone => hone, fun _ _ => hword, fun _ _ hname hout => absurd hname hout⟩

/-- The theorem where `c` becomes `cp` with a blank, and `ls a` gets a blank behind the variable `a`. -/
theorem cmd_auto_complete_cp : CompletesSoundly cpConfig lsTable filledTable cpConfig.prompt (ofBytes [0x63]) 0 ∧
    CompletesSoundly cpConfig lsTable filledTable cpConfig.prompt (ofBytes [0x6c, 0x73, 0x20, 0x61]) 0 := by
  have hw : filledTable.Valid := EnterFailureAux.valid_of_strdupExec (HashMapAux.wf_fresh (by decide) (by decide)).toValid
    (Exec.of_guarded_foldlM (Option.some_get _).symm)
  have hc : (askedLine cpConfig lsTable (ofBytes [0x63])).strings lsTable filledTable =
      (askedLine cpConfig lsTable (ofBytes [0x63])).candidates lsTable filledTable := by decide
  have hls : (askedLine cpConfig lsTable (ofBytes [0x6c, 0x73, 0x20, 0x61])).strings lsTable filledTable =
      (askedLine cpConfig lsTable (ofBytes [0x6c, 0x73, 0x20, 0x61])).candidates lsTable filledTable := by decide
  constructor
  · refine (cmd_auto_complete_iff cpConfig lsTable filledTable cpConfig.prompt (ofBytes [0x63]) 0 (by decide)).2 fun _ => ?_
    exact ⟨readable_of_valid hw _, hc ▸ completesArg_of_eq (by decide) (by decide) (by decide)⟩
  · refine (cmd_auto_complete_iff cpConfig lsTable filledTable cpConfig.prompt (ofBytes [0x6c, 0x73, 0x20, 0x61]) 0 (by decide)).2 fun _ => ?_
    exact ⟨readable_of_valid hw _, hls ▸ completesArg_of_eq (by decide) (by decide) (by decide)⟩

/-- With `cp.b` the text that is put behind the line begins behind the NUL of the candidate `cp`. -/
theorem cmd_auto_complete_suffix : ¬CompletesSoundly cpConfig cpTable noVars cpConfig.prompt (ofBytes [0x63, 0x70, 0x2e, 0x62]) 0 := by
  rintro ⟨c, hc, -⟩
  have hnone : cmdAutoComplete cpConfig cpTable noVars cpConfig.prompt (ofBytes [0x63, 0x70, 0x2e, 0x62]) 4 0 = none := by rfl
  cases hnone.symm.trans hc

end UBoot
