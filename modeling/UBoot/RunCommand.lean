import UBoot.Mtdparts

/-!
# Running a list of commands

`run_command_list` and `builtin_run_command_list` of common/main.c, with the built-in parser. What `builtin_run_command` returns for a
command depends on the commands run before it; it is a parameter, and the commands run are recorded. A string is read from the
buffer where the code reads it, and a result of `none` is an access behind the buffer.
-/

namespace UBoot

open CString

/-- What `builtin_run_command` returns, given the commands already run. -/
abbrev BuiltinRunCommand := List CString → CString → Int

/-- The loop of `builtin_run_command_list`, from `next` on: `rcode`, the buffer, `line`, and the commands run. -/
def listLoop (run : BuiltinRunCommand) : Nat → List UInt8 → Nat → Nat → List CString → Option (Int × List UInt8 × Nat × List CString)
  | 0, _, _, _, _ => none
  | fuel + 1, cmd, line, next, done =>
    match cmd[next]? with
    | none => none
    | some c =>
      if c = 0 then some (0, cmd, line, done)
      else if c = chNewline then
        let cmd := cmd.set next 0
        let exec := ofBytes (cmd.drop line)
        -- run only non-empty commands
        if cmd[line]? ≠ some 0 then
          if run done exec < 0 then some (1, cmd, line, done ++ [exec])
          else listLoop run fuel cmd (next + 1) (next + 1) (done ++ [exec])
        else listLoop run fuel cmd (next + 1) (next + 1) done
      else listLoop run fuel cmd line (next + 1) done

/-- `builtin_run_command_list`: what is returned, and the commands run. -/
def builtinRunCommandList (run : BuiltinRunCommand) (cmd : List UInt8) : Option (Int × List CString) :=
  match listLoop run cmd.length cmd 0 0 [] with
  | none => none
  | some (rcode, cmd, line, done) =>
    match cmd[line]? with
    | none => none
    | some c =>
      if rcode = 0 ∧ c ≠ 0 then
        let exec := ofBytes (cmd.drop line)
        some (if run done exec ≥ 0 then 1 else 0, done ++ [exec])
      else some (rcode, done)

/-- `run_command_list`, given the bytes from `cmd` on. A copy is made unless `len` is `-1` and there is no newline. -/
def runCommandList (run : BuiltinRunCommand) (mallocOk : Bool) (cmd : List UInt8) (len : Int) : Option (Int × List CString) :=
  let text := if len = -1 then (ofBytes cmd).bytes else cmd.take len.toNat
  let needBuff := len ≠ -1 ∨ chNewline ∈ text
  if needBuff ∧ !mallocOk then some (1, []) else builtinRunCommandList run (text ++ [0])

/-!
## Macros of the command line

`process_macros` of common/main.c. The state machine is written once for an output that it is given: `boundedOut` is the buffer of
`CONFIG_SYS_CBSIZE` bytes with its counter, `textOut` an output without a limit. `getenv` is a parameter. A result of `none` is an
access behind the NUL of the input or outside a buffer.
-/

section

/-- `'\''` -/
def chQuote : UInt8 := 0x27
/-- `'$'` -/
def chDollar : UInt8 := 0x24
/-- `'('` -/
def chParenOpen : UInt8 := 0x28
/-- `')'` -/
def chParenClose : UInt8 := 0x29
/-- `'{'` -/
def chBraceOpen : UInt8 := 0x7b
/-- `'}'` -/
def chBraceClose : UInt8 := 0x7d

/-- What the state machine does with its output: the tests of `outputcnt`, and `*(output++) = c; outputcnt--`. -/
structure MacroSink (σ : Type) where
  room : σ → Bool
  put : σ → UInt8 → Option σ

/-- `state` -/
inductive MacroMode where
  | waitDollar
  | waitOpen
  | waitClose
  | waitQuote
  deriving DecidableEq

/-- The variables of the loop, without the output. A pointer into the input is an index. -/
structure MacroCursor where
  input : Nat
  inputcnt : Nat
  prev : UInt8
  state : MacroMode
  varnameStart : Nat

/-- The next character, with one level of escapes removed. The inner `none` is the `break` at a backslash that ends the input. -/
def macroChar (data : List UInt8) (r : MacroCursor) : Option (Option (UInt8 × MacroCursor)) :=
  match data[r.input]? with
  | none => none
  | some c =>
    let r := { r with input := r.input + 1, inputcnt := r.inputcnt - 1 }
    if r.state ≠ .waitQuote ∧ c = chBackslash ∧ r.prev ≠ chBackslash then
      if r.inputcnt = 0 then some none
      else (data[r.input]?).map fun c' => some (c', { r with input := r.input + 1, inputcnt := r.inputcnt - 1, prev := c })
    else some (some (c, r))

/-- The variable name: `envcnt` bytes of the input copied to `envname`, and a NUL. -/
def macroName (envname data : List UInt8) (start envcnt : Nat) : Option CString :=
  if start + envcnt ≤ data.length then
    ((putBytes envname 0 ((data.drop start).take envcnt)).bind fun name => putByte name envcnt 0).map ofBytes
  else none

section
variable {σ : Type} (sink : MacroSink σ) (getenv : CString → Option CString) (envname : List UInt8) (data : List UInt8)

/-- The value of a variable, copied as long as there is room. -/
def macroValue (out : σ) : List UInt8 → Option σ
  | [] => some out
  | b :: bs => if sink.room out then (sink.put out b).bind fun out => macroValue out bs else some out

/-- The `switch` of the loop. -/
def macroSwitch (r : MacroCursor) (out : σ) (c : UInt8) : Option (MacroCursor × σ) :=
  match r.state with
  | .waitDollar =>
    if c = chQuote ∧ r.prev ≠ chBackslash then some ({ r with state := .waitQuote }, out)
    else if c = chDollar ∧ r.prev ≠ chBackslash then some ({ r with state := .waitOpen }, out)
    else (sink.put out c).map fun out => (r, out)
  | .waitOpen =>
    if c = chParenOpen ∨ c = chBraceOpen then some ({ r with state := .waitClose, varnameStart := r.input }, out)
    else
      (sink.put out chDollar).bind fun out =>
        if sink.room out then (sink.put out c).map fun out => ({ r with state := .waitDollar }, out)
        else some ({ r with state := .waitDollar }, out)
  | .waitClose =>
    if c = chParenClose ∨ c = chBraceClose then
      match macroName envname data r.varnameStart (r.input - r.varnameStart - 1) with
      | none => none
      | some name =>
        match getenv name with
        | none => some ({ r with state := .waitDollar }, out)
        | some envval => (macroValue sink out envval.bytes).map fun out => ({ r with state := .waitDollar }, out)
    else some (r, out)
  | .waitQuote =>
    if c = chQuote ∧ r.prev ≠ chBackslash then some ({ r with state := .waitDollar }, out)
    else (sink.put out c).map fun out => (r, out)

/-- The loop. A round takes a character at least, so there are at most as many rounds as characters. -/
def macroLoop : Nat → MacroCursor → σ → Option σ
  | 0, _, out => some out
  | rounds + 1, r, out =>
    if r.inputcnt = 0 ∨ ¬sink.room out then some out
    else
      match macroChar data r with
      | none => none
      | some none => some out
      | some (some (c, r)) =>
        match macroSwitch sink getenv envname data r out c with
        | none => none
        | some (r, out) => macroLoop rounds { r with prev := c } out

/-- The loop from the start of the input. -/
def macroRun (input : CString) (out : σ) : Option σ :=
  macroLoop sink getenv envname (input.bytes ++ [0]) input.bytes.length
    { input := 0, inputcnt := input.bytes.length, prev := 0, state := .waitDollar, varnameStart := 0 } out

end

/-! ## The outputs -/

/-- The output buffer, `output` as an index of it, and `outputcnt`. -/
structure MacroOut where
  buf : List UInt8
  output : Nat
  outputcnt : Nat

/-- The output of `process_macros`. -/
def boundedOut : MacroSink MacroOut where
  room out := out.outputcnt ≠ 0
  put out c := (putByte out.buf out.output c).map fun buf => ⟨buf, out.output + 1, out.outputcnt - 1⟩

/-- An output without a limit. -/
def textOut : MacroSink (List UInt8) where
  room _ := true
  put out c := some (out ++ [c])

/-- `process_macros`: the output buffer that it leaves. -/
def processMacros (cbsize : Nat) (getenv : CString → Option CString) (envname : List UInt8) (input : CString) (output : List UInt8) :
    Option (List UInt8) :=
  match macroRun boundedOut getenv envname input ⟨output, 0, cbsize⟩ with
  | none => none
  | some out => if out.outputcnt ≠ 0 then putByte out.buf out.output 0 else putByte out.buf (out.output - 1) 0

/-- The text that the state machine produces without a limit. -/
def macroText (getenv : CString → Option CString) (envname : List UInt8) (input : CString) : Option (List UInt8) :=
  macroRun textOut getenv envname input []

end

/-!
## Splitting a command line

`parse_line` and `builtin_run_command` of common/main.c. A `char *` into a buffer is an index of it, `argv` the list of its pointers,
with `none` for NULL. What `cmd_process` does to the world is a parameter. A result of `none` is an access outside a buffer.
-/

/-! ## Arguments -/

/-- A pointer is stored in `argv`. -/
def putArg (argv : List (Option Nat)) (i : Nat) (p : Option Nat) : Option (List (Option Nat)) :=
  if i < argv.length then some (argv.set i p) else none

/-- `while (isblank(*line)) ++line`, for what the buffer has from `line` on. -/
def skipWhite : List UInt8 → Nat → Option Nat
  | [], _ => none
  | c :: cs, line => if isblank c then skipWhite cs (line + 1) else some line

/-- `while (*line && !isblank(*line)) ++line` -/
def skipArg : List UInt8 → Nat → Option Nat
  | [], _ => none
  | c :: cs, line => if c ≠ 0 ∧ ¬isblank c then skipArg cs (line + 1) else some line

/-- What `parse_line` leaves: the number of arguments, the line, `argv`, and whether it said that there are too many. -/
structure ParsedLine where
  nargs : Nat
  line : List UInt8
  argv : List (Option Nat)
  tooMany : Bool
  deriving DecidableEq

/-- The loop of `parse_line`, with room for so many arguments more. -/
def parseLineLoop : Nat → Nat → Nat → List UInt8 → List (Option Nat) → Option ParsedLine
  | 0, nargs, _, buf, argv => some ⟨nargs, buf, argv, true⟩
  | room + 1, nargs, line, buf, argv =>
    match skipWhite (buf.drop line) line with
    | none => none
    | some line =>
      if buf[line]? = some 0 then (putArg argv nargs none).map fun argv => ⟨nargs, buf, argv, false⟩
      else
        match putArg argv nargs (some line) with
        | none => none
        | some argv =>
          match skipArg (buf.drop line) line with
          | none => none
          | some line =>
            if buf[line]? = some 0 then (putArg argv (nargs + 1) none).map fun argv => ⟨nargs + 1, buf, argv, false⟩
            else
              match putByte buf line 0 with
              | none => none
              | some buf => parseLineLoop room (nargs + 1) (line + 1) buf argv

/-- `parse_line` with `CONFIG_SYS_MAXARGS` -/
def parseLine (maxargs : Nat) (line : List UInt8) (argv : List (Option Nat)) : Option ParsedLine :=
  parseLineLoop maxargs 0 0 line argv

/-! ## Commands -/

/-- The search for a separator from `sep` on, in a token that starts at `str`. -/
def findSeparator (cmdbuf : List UInt8) (str : Nat) : Nat → Nat → Bool → Option Nat
  | 0, _, _ => none
  | rounds + 1, sep, inquotes =>
    match cmdbuf[sep]? with
    | none => none
    | some c =>
      if c = 0 then some sep
      else
        -- `*(sep-1)` is read for every quote, also at the start of `cmdbuf`
        match if c = chQuote then (if sep = 0 then none else cmdbuf[sep - 1]?).map fun prev => if prev ≠ chBackslash then !inquotes else inquotes
            else some inquotes with
        | none => none
        | some inquotes =>
          if !inquotes ∧ c = chSemicolon ∧ sep ≠ str ∧ cmdbuf[sep - 1]? ≠ some chBackslash then some sep
          else findSeparator cmdbuf str rounds (sep + 1) inquotes

/-- The token at `str`, `cmdbuf` with its separator overwritten, and `str` for the next pass. -/
def nextToken (cmdbuf : List UInt8) (str : Nat) : Option (CString × List UInt8 × Nat) :=
  match findSeparator cmdbuf str (cmdbuf.length - str) str false with
  | none => none
  | some sep =>
    if cmdbuf[sep]? ≠ some 0 then
      let cmdbuf := cmdbuf.set sep 0
      some (ofBytes (cmdbuf.drop str), cmdbuf, sep + 1)
    else some (ofBytes (cmdbuf.drop str), cmdbuf, sep)

/-- The world that commands run in: its variables, and what `cmd_process` does: whether it fails, `*repeatable` for the flag that it is
given, and whether the user stopped it. -/
structure CommandWorld (σ : Type) where
  getenv : σ → CString → Option CString
  cmdProcess : σ → List CString → Bool → Bool × Bool × Bool × σ

/-- The strings that `argv` points to. -/
def argStrings (p : ParsedLine) : List CString := (p.argv.take p.nargs).filterMap fun a => a.map fun a => ofBytes (p.line.drop a)

/-- The buffers of `builtin_run_command` besides `cmdbuf`, as they are before it. -/
structure CommandBuffers where
  finaltoken : List UInt8
  envname : List UInt8
  argv : List (Option Nat)

/-- What a pass over a token comes to: the result of the command, or what goes into the next pass. -/
def runToken {σ : Type} (cbsize maxargs : Nat) (w : CommandWorld σ) (b : CommandBuffers) (token : CString) (rc : Int) (repeatable : Bool)
    (s : σ) : Option ((Int × σ) ⊕ (Int × Bool × σ)) :=
  match processMacros cbsize (w.getenv s) b.envname token b.finaltoken with
  | none => none
  | some finaltoken =>
    match parseLine maxargs finaltoken b.argv with
    | none => none
    | some p =>
      if p.nargs = 0 then some (.inr (-1, repeatable, s))
      else
        let (fails, repeatable, stopped, s) := w.cmdProcess s (argStrings p) repeatable
        let rc := if fails then -1 else rc
        if stopped then some (.inl (-1, s)) else some (.inr (rc, repeatable, s))

/-- The loop of `builtin_run_command`. Every pass goes on behind its token. -/
def commandLoop {σ : Type} (cbsize maxargs : Nat) (w : CommandWorld σ) (b : CommandBuffers) :
    Nat → List UInt8 → Nat → Int → Bool → σ → Option (Int × σ)
  | 0, _, _, _, _, _ => none
  | rounds + 1, cmdbuf, str, rc, repeatable, s =>
    match cmdbuf[str]? with
    | none => none
    | some c =>
      if c = 0 then some (if rc ≠ 0 then rc else if repeatable then 1 else 0, s)
      else
        match nextToken cmdbuf str with
        | none => none
        | some (token, cmdbuf, str) =>
          match runToken cbsize maxargs w b token rc repeatable s with
          | none => none
          | some (.inl r) => some r
          | some (.inr (rc, repeatable, s)) => commandLoop cbsize maxargs w b rounds cmdbuf str rc repeatable s

/-- `builtin_run_command`, with `cmdbuf` as it is before: what is returned, and the world behind it. -/
def builtinRunCommandIn {σ : Type} (maxargs : Nat) (w : CommandWorld σ) (b : CommandBuffers) (cmdbuf : List UInt8) (cmd : Option CString)
    (s : σ) : Option (Int × σ) :=
  match cmd with
  | none => some (-1, s)
  | some cmd =>
    if cmd.bytes = [] then some (-1, s)
    else if cmdbuf.length ≤ cmd.bytes.length then some (-1, s)
    else
      let text := cmd.bytes ++ [0] ++ cmdbuf.drop (cmd.bytes.length + 1)
      commandLoop cmdbuf.length maxargs w b (text.length + 1) text 0 0 true s

end UBoot
