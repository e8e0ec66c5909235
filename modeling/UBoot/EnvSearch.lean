import UBoot.Export
import UBoot.Lib.Visit

/-!
# Looking through the environment

`hmatch_r` and `hstrstr_r` of lib/hashtable.c, which find the next entry behind a slot, and the two loops over them: `env_complete`
of common/env_common.c and `do_env_grep` of common/cmd_nvedit.c. A result of `none` is a `NULL` string that is read, or an access
outside `matched`.
-/

namespace UBoot

open Lib

/-! ## The next entry -/

/-- `strstr`, as a test. -/
def strstr (s1 s2 : CString) : Bool := decide (s2.bytes <:+: s1.bytes)

/-- The loop of `hstrstr_r` and `hmatch_r` over the slots: the first one in use that passes the test, or zero. -/
def Htab.scan (h : Htab) (test : Slot → Option Bool) : Nat → Nat → Option Nat
  | 0, _ => none
  | fuel + 1, idx =>
    if idx < h.size then
      if (h.table idx).used ≤ 0 then h.scan test fuel (idx + 1)
      else
        match test (h.table idx) with
        | none => none
        | some true => some idx
        | some false => h.scan test fuel (idx + 1)
    else some 0

/-- The test of `hstrstr_r`: the string is in the key or in the value. -/
def strstrTest (m : Option CString) (s : Slot) : Option Bool :=
  match m, s.key with
  | some m, some key => if strstr key m then some true else s.data.map fun data => strstr data m
  | _, _ => none

/-- The test of `hmatch_r`: `strncmp` finds the string at the start of the key. -/
def matchTest (m : CString) (s : Slot) : Option Bool := s.key.map fun key => m.bytes.isPrefixOf key.bytes

def hstrstrR (m : Option CString) (lastIdx : Nat) (h : Htab) : Option Nat := h.scan (strstrTest m) (h.size + 1) (lastIdx + 1)

def hmatchR (m : CString) (lastIdx : Nat) (h : Htab) : Option Nat := h.scan (matchTest m) (h.size + 1) (lastIdx + 1)

/-! ## env_complete -/

/-- The body of the loop of `env_complete`, on `cmdv` up to `found`, and `bufsz`. -/
def envCompleteBody (h : Htab) (maxv : Int) (idx : Nat) (s : List CString × Int) : Option (Bool × List CString × Int) :=
  (h.table idx).key.map fun key =>
    let vallen : Int := key.bytes.length + 1
    if (s.1.length : Int) ≥ maxv - 2 ∨ s.2 < vallen then (false, s) else (true, s.1 ++ [key], s.2 - vallen)

/-- What stands for the names that did not fit. -/
def dots : CString := CString.ofBytes [0x2E, 0x2E, 0x2E]

/-- `env_complete`: the strings in `cmdv`, of which the number is returned. -/
def envComplete (var : CString) (maxv bufsz : Int) (h : Htab) : Option (List CString) :=
  (whileNext (fun idx => hmatchR var idx h) (envCompleteBody h maxv) (h.size + 1) 0 ([], bufsz)).map fun r =>
    qsort strcmp r.2.1 ++ if r.1 ≠ 0 then [dots] else []

/-! ## do_env_grep -/

/-- The variables of `do_env_grep`: `matched`, what is printed, and `rcode`. -/
structure GrepState where
  matched : List UInt8
  printed : List (CString × CString)
  rcode : Int

/-- The body of the loop of `do_env_grep` over the matches of an argument. -/
def grepBody (h : Htab) (idx : Nat) (s : GrepState) : Option (Bool × GrepState) :=
  match s.matched[idx / 8]? with
  | none => none
  | some byte =>
    let bit : UInt8 := 1 <<< UInt8.ofNat (idx % 8)
    let matched := s.matched.set (idx / 8) (byte ||| bit)
    if byte &&& bit = 0 then
      match (h.table idx).key, (h.table idx).data with
      | some key, some data => some (true, ⟨matched, s.printed ++ [(key, data)], 0⟩)
      | _, _ => none
    else some (true, ⟨matched, s.printed, 0⟩)

/-- The loop of `do_env_grep` over arguments. -/
def grepArgs (h : Htab) : List (Option CString) → GrepState → Option GrepState
  | [], s => some s
  | arg :: args, s =>
    (whileNext (fun idx => hstrstrR arg idx h) (grepBody h) (h.size + 1) 0 s).bind fun r => grepArgs h args r.2

/-- The state before the first argument. -/
def grepInit (h : Htab) : GrepState := ⟨List.replicate (h.size / 8) 0, [], 1⟩

def CMD_RET_USAGE : Int := -1

/-- `do_env_grep`, on the arguments from `argv[1]` on: what is returned, and what is printed. `arg <= argc` takes in the `NULL`
behind the last argument. -/
def doEnvGrep (args : List CString) (h : Htab) : Option (Int × List (CString × CString)) :=
  if args = [] then some (CMD_RET_USAGE, [])
  else (grepArgs h (args.map some ++ [none]) (grepInit h)).map fun s => (s.rcode, s.printed)

end UBoot
