import UBoot.Bootm
import UBoot.EnvSearch
import UBoot.Lib.CommonPrefix

/-!
# Tab completion

common/command.c: `cmd_auto_complete`, with `complete_cmdv`, `var_complete`, `make_argv`, `find_common_prefix` and `find_cmd`. The only
function that the commands of this tree have in their field `complete` is `var_complete`. A result of `none` is a read through `NULL`, before
the first element of `argv` or behind the NUL of a candidate.
-/

namespace UBoot

open Lib

/-- `'.'` -/
def chDot : UInt8 := 0x2e

/-- `cmd_tbl_t`, what completion reads of it: whether `complete` is `var_complete` or `NULL`. -/
structure CmdTbl where
  name : CString
  complete : Bool

/-- What completion is configured by: `CONFIG_SYS_CBSIZE`, `CONFIG_SYS_MAXARGS` and `CONFIG_SYS_PROMPT`. -/
structure CompleteConfig where
  cbsize : Nat
  maxargs : Nat
  prompt : CString

/-! ## Commands -/

/-- A command name up to the first dot: some commands allow length modifiers (like "cp.b"). -/
def beforeDot (cmd : CString) : List UInt8 := cmd.bytes.takeWhile (· != chDot)

def findCmd (table : List CmdTbl) (cmd : CString) : Option CmdTbl := findCmdTbl cmd (table.map fun cmdtp => (cmdtp.name, cmdtp))

/-! ## The line -/

/-- `make_argv`, for so many arguments. The argument ends at a blank, where a NUL is put. -/
def makeArgv : Nat → List UInt8 → List CString
  | 0, _ => []
  | left + 1, s =>
    let s := s.dropWhile isblank
    if s = [] then []
    else
      let rest := s.dropWhile fun c => !isblank c
      CString.ofBytes (s.takeWhile fun c => !isblank c) :: if rest = [] then [] else makeArgv left (rest.drop 1)

/-- The last character of the line, or NUL. -/
def lastCharOf (buf : CString) : UInt8 := buf.bytes.getLast?.getD 0

/-- `last_char == '\0' || isblank(last_char)` -/
def spaceAt (lastChar : UInt8) : Bool := lastChar == 0 || isblank lastChar

/-! ## Candidates -/

def CMDV_SIZE : Nat := 20

/-- The size of `tmp_buf` of `var_complete`. -/
def VAR_BUFSZ : Nat := 512

/-- `var_complete`: the strings in `cmdv`. -/
def varComplete (h : Htab) (argv : List CString) (lastChar : UInt8) (maxv : Nat) : Option (List CString) :=
  match argv, spaceAt lastChar with
  | [_], true => envComplete (CString.ofBytes []) maxv VAR_BUFSZ h
  | [_, var], false => envComplete var maxv VAR_BUFSZ h
  | _, _ => some []

/-- The loop of `complete_cmdv` over the commands, for those whose name begins with a string. -/
def matchCmds (maxv : Nat) (cmd : List UInt8) : List CString → List CmdTbl → List CString
  | cmdv, [] => cmdv
  | cmdv, cmdtp :: table =>
    if cmd.isPrefixOf cmdtp.name.bytes then
      if maxv ≤ cmdv.length + 2 then cmdv ++ [dots] else matchCmds maxv cmd (cmdv ++ [cmdtp.name]) table
    else matchCmds maxv cmd cmdv table

/-- `complete_cmdv`: the strings in `cmdv`, of which the number is returned. -/
def completeCmdv (table : List CmdTbl) (h : Htab) (argv : List CString) (lastChar : UInt8) (maxv : Nat) : Option (List CString) :=
  match argv with
  | [] => some (matchCmds maxv [] [] table)
  | cmd :: _ =>
    if 1 < argv.length ∨ spaceAt lastChar then
      match findCmd table cmd with
      | none => some []
      | some cmdtp => if cmdtp.complete then varComplete h argv lastChar maxv else some []
    else some (matchCmds maxv (beforeDot cmd) [] table)

/-- The loop of `find_common_prefix` over the characters of two strings. -/
def matchLen : Nat → List UInt8 → List UInt8 → Nat
  | len + 1, a :: s, b :: t => if b = a then matchLen len s t + 1 else 0
  | _, _, _ => 0

def findCommonPrefix : List CString → Nat
  | [] => 0
  | anchor :: argv => argv.foldl (fun len t => matchLen len anchor.bytes t.bytes) anchor.bytes.length

/-! ## cmd_auto_complete -/

/-- What `cmd_auto_complete` leaves: the line, with the text and the separator that it put behind it, `*np` and `*colp`, and what it returns. -/
structure Completion where
  line : List UInt8
  text : List UInt8
  sep : List UInt8
  np : Nat
  col : Int
  ret : Nat

/-- The line stays as it is. -/
def keepLine (buf : CString) (np : Nat) (col : Int) (ret : Nat) : Completion := ⟨buf.bytes, [], [], np, col, ret⟩

/-- Put text and a separator behind the line, if it fits. -/
def appendText (cbsize : Nat) (buf : CString) (np : Nat) (col : Int) (text sep : List UInt8) : Completion :=
  let k := text.length + sep.length
  if cbsize ≤ np + k + 2 then keepLine buf np col 1 else ⟨buf.bytes ++ text ++ sep, text, sep, np + k, col + k, 1⟩

/-- What `cmd_auto_complete` does with the strings that `complete_cmdv` gives. -/
def completeLine (cbsize : Nat) (buf : CString) (np : Nat) (col : Int) (argv : List CString) : List CString → Option Completion
  | [] => some (keepLine buf np col (if 1 < argv.length then 0 else 1))
  | [cmd] => do
    let arg ← argv.getLast?
    -- the string that is so many characters behind the start of the candidate
    if cmd.bytes.length < arg.bytes.length then none
    else return appendText cbsize buf np col (cmd.bytes.drop arg.bytes.length) [chSpace]
  | cmd :: cmdv =>
    let j := findCommonPrefix (cmd :: cmdv)
    if j = 0 then some (keepLine buf np col 1)
    else do
      let arg ← argv.getLast?
      if j ≤ arg.bytes.length then return keepLine buf np col 1
      else return appendText cbsize buf np col ((cmd.bytes.take j).drop arg.bytes.length) []

/-- `cmd_auto_complete`; what it prints is left out. -/
def cmdAutoComplete (cfg : CompleteConfig) (table : List CmdTbl) (h : Htab) (prompt buf : CString) (np : Nat) (col : Int) : Option Completion :=
  if strcmp prompt cfg.prompt ≠ 0 then some (keepLine buf np col 0)
  else do
    let argv := makeArgv cfg.maxargs buf.bytes
    let cmdv ← completeCmdv table h argv (lastCharOf buf) CMDV_SIZE
    completeLine cfg.cbsize buf np col argv cmdv

end UBoot
