import UBoot.Hashtable

/-!
# Importing a linearised environment

`himport_r` of lib/hashtable.c. The copy `data` of the input is the list of its bytes from the read pointer `dp` to the
end, so that reading or writing at `dp` past the end is a match on the empty list and makes the result `none`. The
terminators and the unescaped value are written at or before `dp`, where nothing is read again.
-/

namespace UBoot

def CONFIG_ENV_MIN_ENTRIES : Nat := 64
/-- `CONFIG_ENV_MAX_ENTRIES` -/
def CONFIG_ENV_MAX_ENTRIES : Nat := 512

/-- The callback `apply(name, oldval, newval, flag)`; `true` is a denial. -/
abbrev ApplyFn := CString → Option CString → Option CString → Nat → Bool

/-- `H_NOCLEAR` is set in `flag`. -/
def noclear (flag : Nat) : Bool := flag % 2 == 1

/-- `drop_var_from_set`: whether the variable is to be processed, and the set with its instances removed. -/
def dropVarFromSet (name : CString) (vars : List (Option CString)) : Bool × List (Option CString) :=
  if vars = [] then (true, vars)
  else (decide (some name ∈ vars), vars.map fun v => if v = some name then none else v)

/-! ## The character loops -/

/-- Skip leading white space. -/
def skipBlanks : List UInt8 → Option (List UInt8)
  | [] => none
  | c :: cs => if isblank c then skipBlanks cs else some (c :: cs)

/-- Skip a comment line and its end. -/
def skipComment (sep : UInt8) : List UInt8 → Option (List UInt8)
  | [] => none
  | c :: cs => if c ≠ 0 ∧ c ≠ sep then skipComment sep cs else some cs

/-- Parse a name: its bytes, and what is left from the byte that ends it. -/
def parseName (sep : UInt8) : List UInt8 → Option (List UInt8 × List UInt8)
  | [] => none
  | c :: cs =>
    if c ≠ chEquals ∧ c ≠ 0 ∧ c ≠ sep then (parseName sep cs).map fun r => (c :: r.1, r.2) else some ([], c :: cs)

/-- The test for `name` and `name=` entries, at the byte that ends the name. -/
def isDeleteEntry (sep : UInt8) : List UInt8 → Option Bool
  | [] => none
  | c :: cs =>
    if c = 0 then some true
    else
      match cs with
      | [] => none
      | d :: _ => some (d = 0 || c = sep || d = sep)

/-- Parse a value and deal with escapes: its bytes, and what is left after the byte that ends it. -/
def parseValue (sep : UInt8) : List UInt8 → Option (List UInt8 × List UInt8)
  | [] => none
  | c :: cs =>
    if c ≠ 0 ∧ c ≠ sep then
      if c = chBackslash then
        match cs with
        | [] => none
        | d :: ds =>
          if d ≠ 0 then (parseValue sep ds).map fun r => (d :: r.1, r.2)
          else (parseValue sep (d :: ds)).map fun r => (c :: r.1, r.2)
      else (parseValue sep cs).map fun r => (c :: r.1, r.2)
    else some ([], cs)

/-! ## One entry -/

/-- Where one round of the loop leaves `himport_r`. -/
inductive ImportStep where
  | next (dp : List UInt8) (h : Htab) (vars : List (Option CString))
  | insertFailed (h : Htab)

/-- A `name` or `name=` entry: delete the variable. -/
def importDelete (name : CString) (dp : List UInt8) (h : Htab) (vars : List (Option CString)) : Option ImportStep :=
  if (dropVarFromSet name vars).1 then
    (hdeleteR name h).map fun r => .next dp r.2 (dropVarFromSet name vars).2
  else some (.next dp h (dropVarFromSet name vars).2)

/-- A `name=value` entry: ask the callback, then enter the variable. -/
def importEnter (apply : Option ApplyFn) (flag : Nat) (doApply : Bool) (name value : CString) (dp : List UInt8) (h : Htab)
    (vars : List (Option CString)) : Option ImportStep :=
  if (dropVarFromSet name vars).1 then
    let denied := match apply with
      | some f => doApply && f name (hfind h name) (some value) flag
      | none => false
    if denied then some (.next dp h (dropVarFromSet name vars).2)
    else
      (hsearchR .ok ⟨name, some value⟩ .enter h).map fun r =>
        if r.retval.isSome then .next dp r.htab (dropVarFromSet name vars).2 else .insertFailed r.htab
  else some (.next dp h (dropVarFromSet name vars).2)

/-- The body of the loop of `himport_r`. -/
def importEntry (apply : Option ApplyFn) (sep : UInt8) (flag : Nat) (doApply : Bool) (dp : List UInt8) (h : Htab)
    (vars : List (Option CString)) : Option ImportStep :=
  match skipBlanks dp with
  | none => none
  | some dp =>
    if dp.head? = some chHash then (skipComment sep dp).map fun dp => .next dp h vars
    else
      match parseName sep dp with
      | none => none
      | some (name, dp) =>
        match isDeleteEntry sep dp with
        | none => none
        | some true =>
          importDelete (CString.ofBytes name) (if dp.head? = some chEquals then dp.drop 2 else dp.drop 1) h vars
        | some false =>
          match parseValue sep (dp.drop 1) with
          | none => none
          | some (value, dp) =>
            importEnter apply flag doApply (CString.ofBytes name) (CString.ofBytes value) dp h vars

/-- The loop of `himport_r`, up to the end of the data or a NUL. Every round reads at least one byte. -/
def importLoop (apply : Option ApplyFn) (sep : UInt8) (flag : Nat) (doApply : Bool) :
    Nat → List UInt8 → Htab → List (Option CString) → Option (Bool × Htab × List (Option CString))
  | 0, _, _, _ => none
  | fuel + 1, dp, h, vars =>
    match importEntry apply sep flag doApply dp h vars with
    | none => none
    | some (.insertFailed h) => some (false, h, vars)
    | some (.next dp h vars) =>
      if dp = [] ∨ dp.head? = some 0 then some (true, h, vars) else importLoop apply sep flag doApply fuel dp h vars

/-- Delete the variables that were asked for and not imported. -/
def deleteLeft (h : Htab) : List (Option CString) → Option Htab
  | [] => some h
  | none :: vars => deleteLeft h vars
  | some name :: vars =>
    match hdeleteR name h with
    | none => none
    | some r => deleteLeft r.2 vars

/-- The number of entries `himport_r` asks `hcreate_r` for. -/
def importEntries (size : Nat) : Nat := min (CONFIG_ENV_MIN_ENTRIES + size / 8) CONFIG_ENV_MAX_ENTRIES

/-- The table `himport_r` works on: a new one, unless `H_NOCLEAR` keeps the old one. -/
def importTable (callocOk : Bool) (flag size : Nat) (old : Option Htab) : Option Htab :=
  match if noclear flag then old else none with
  | some h => some h
  | none => hcreateR callocOk (importEntries size) none

/-- `himport_r`: the number returned and the table left. -/
def himportR (mallocOk callocOk : Bool) (apply : Option ApplyFn) (old : Option Htab) (env : List UInt8) (sep : UInt8)
    (flag : Nat) (vars : List CString) (doApply : Bool) : Option (Nat × Option Htab) :=
  if !mallocOk then some (0, old)
  else
    match importTable callocOk flag env.length old with
    | none => some (0, none)
    | some h =>
      match importLoop apply sep flag doApply (env.length + 1) env h (vars.map some) with
      | none => none
      | some (false, h, _) => some (0, some h)
      | some (true, h, vars) => (deleteLeft h vars).map fun h => (1, some h)

end UBoot
