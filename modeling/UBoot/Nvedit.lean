import UBoot.Import

/-!
# Reading a variable before relocation

`getenv_f` and `envmatch` of common/cmd_nvedit.c: a linear scan of the stored environment through `env_get_char`, which is
a parameter here, as is `CONFIG_ENV_SIZE`. The test for the variables that can be set only once stands here too: the
boot loader and the Linux tool have the same one.
-/

namespace UBoot

open CString

section

/-- What the build decides about the variables that can be set only once: whether `CONFIG_ENV_OVERWRITE` is defined, and the
default address when both `CONFIG_OVERWRITE_ETHADDR_ONCE` and `CONFIG_ETHADDR` are. -/
structure OnceConfig where
  envOverwrite : Bool
  ethaddr : Option CString

def serialName : CString := ofBytes [0x73, 0x65, 0x72, 0x69, 0x61, 0x6c, 0x23]
/-- `"ethaddr"` -/
def ethaddrName : CString := ofBytes [0x65, 0x74, 0x68, 0x61, 0x64, 0x64, 0x72]

/-- The test for a variable that can be set only once and has a value: `serial#`, and `ethaddr` unless its value is the default. -/
def setOnce (cfg : OnceConfig) (name oldval : CString) : Bool :=
  !cfg.envOverwrite && (decide (name = serialName) || (decide (name = ethaddrName) && decide (cfg.ethaddr ≠ some oldval)))

section Getenv

variable (envGetChar : Nat → UInt8)

/-- The inner loop of `getenv_f`, with `left` bytes before `CONFIG_ENV_SIZE`: the NUL that ends the entry, or `none` for
the return of `-1`. -/
def entryEnd : Nat → Nat → Option Nat
  | 0, nxt => if envGetChar nxt = 0 then some nxt else none
  | left + 1, nxt => if envGetChar nxt = 0 then some nxt else entryEnd left (nxt + 1)

/-- `envmatch` of the rest of the string `s1`: the index of the value, or `none` inside for a return of `-1`. Outside it is
`none` when the loop runs past the NUL of `s1`, which an entry without an equals sign can make it do. -/
def envmatch : List UInt8 → Nat → Option (Option Nat)
  | [], i2 =>
    if envGetChar i2 = 0 then none else if envGetChar i2 = chEquals then some (some (i2 + 1)) else some none
  | c :: s1, i2 =>
    if c = envGetChar i2 then if c = chEquals then some (some (i2 + 1)) else envmatch s1 (i2 + 1) else some none

/-- The loop of `getenv_f` that copies the value out, with `left` bytes of the buffer to go: what is returned, and
the buffer. -/
def copyOut (val : Nat) : Nat → Nat → (Nat → UInt8) → Nat × (Nat → UInt8)
  | 0, n, buf => (n, if n ≠ 0 then Function.update buf (n - 1) 0 else buf)
  | left + 1, n, buf =>
    let buf := Function.update buf n (envGetChar (val + n))
    if envGetChar (val + n) = 0 then (n, buf) else copyOut val left (n + 1) buf

/-- The outer loop of `getenv_f` from the entry at `i` on. -/
def getenvLoop (envSize : Nat) (name : CString) (buf : Nat → UInt8) (len : Nat) : Nat → Nat → Option (Int × (Nat → UInt8))
  | 0, _ => none
  | fuel + 1, i =>
    if envGetChar i = 0 then some (-1, buf)
    else
      match entryEnd envGetChar (envSize - i) i with
      | none => some (-1, buf)
      | some nxt =>
        match envmatch envGetChar name.bytes i with
        | none => none
        | some none => getenvLoop envSize name buf len fuel (nxt + 1)
        | some (some val) => some ((copyOut envGetChar val len 0 buf).1, (copyOut envGetChar val len 0 buf).2)

/-- `getenv_f`: what is returned, and the buffer. Every round ends at or after the next byte, and at the latest at the
first byte from `CONFIG_ENV_SIZE` on. -/
def getenvF (envSize : Nat) (name : CString) (buf : Nat → UInt8) (len : Nat) : Option (Int × (Nat → UInt8)) :=
  getenvLoop envGetChar envSize name buf len (envSize + 2) 0

end Getenv

end

/-!
## Setting variables

`env_check_apply` and `_do_env_set` of common/cmd_nvedit.c, and `set_default_vars` of common/env_common.c. Of `env_check_apply`
the verdict is modelled: what it applies (the console, the baud rate, `load_addr`, `BootFile`) no modelled function reads.
-/

def H_NOCLEAR : Nat := 1
/-- `H_FORCE` -/
def H_FORCE : Nat := 2

/-- `H_FORCE` is set in `flag`. -/
def forced (flag : Nat) : Bool := flag / H_FORCE % 2 == 1

/-- What the board answers during a call: whether a device cannot be assigned to a console, and the baud rates supported. -/
structure EnvBoard where
  assignFails : Nat → CString → Bool
  baudrateTable : List Nat

def stdinName : CString := ofBytes [0x73, 0x74, 0x64, 0x69, 0x6e]
/-- `"stdout"` -/
def stdoutName : CString := ofBytes [0x73, 0x74, 0x64, 0x6f, 0x75, 0x74]
/-- `"stderr"` -/
def stderrName : CString := ofBytes [0x73, 0x74, 0x64, 0x65, 0x72, 0x72]
/-- `"baudrate"` -/
def baudrateName : CString := ofBytes [0x62, 0x61, 0x75, 0x64, 0x72, 0x61, 0x74, 0x65]

/-- The console a variable redirects. -/
def consoleOf (name : CString) : Option Nat :=
  if name = stdinName then some 0 else if name = stdoutName then some 1 else if name = stderrName then some 2 else none

/-- `env_check_apply`; `true` is a return of 1. A `newval` of `NULL` is the empty string. -/
def envCheckApply (cfg : OnceConfig) (board : EnvBoard) : ApplyFn := fun name oldval newval flag =>
  let newval := newval.getD (ofBytes [])
  if (match consoleOf name with
      | some console => decide (newval.bytes = []) || board.assignFails console newval
      | none => false) then true
  else if (match oldval with
      | some old => !forced flag && setOnce cfg name old
      | none => false) then true
  else if oldval.isSome || !noclear flag then
    decide (name = baudrateName) && decide (simpleStrtoul 10 newval.bytes ∉ board.baudrateTable)
  else false

/-- The arguments from `argv[2]` on, with a blank after each but the last. -/
def joinArgs (values : List CString) : CString := ofBytes (List.intercalate [chSpace] (values.map (·.bytes)))

/-- `_do_env_set`: what is returned, and the table. `name` is `argv[1]` and `values` are the arguments after it; the check is
given the first of them. -/
def doEnvSet (cfg : OnceConfig) (board : EnvBoard) (mallocOk : Bool) (name : CString) (values : List CString) (h : Htab) : Option (Nat × Htab) :=
  if chEquals ∈ name.bytes then some (1, h)
  else
    match hsearchR .ok ⟨name, none⟩ .find h with
    | none => none
    | some ep =>
      if envCheckApply cfg board name (ep.retval.bind fun idx => (ep.htab.table idx).data) values.head? H_NOCLEAR then
        some (1, ep.htab)
      else if values = [] then (hdeleteR name ep.htab).map fun rc => (if rc.1 = 0 then 1 else 0, rc.2)
      else if !mallocOk then some (1, ep.htab)
      else
        (hsearchR .ok ⟨name, some (joinArgs values)⟩ .enter ep.htab).map fun ep =>
          (if ep.retval.isSome then 0 else 1, ep.htab)

/-- `set_default_vars`: import the listed variables from the default environment into the table. -/
def setDefaultVars (cfg : OnceConfig) (board : EnvBoard) (mallocOk : Bool) (defaultEnvironment : List UInt8)
    (vars : List CString) (h : Htab) : Option (Nat × Option Htab) :=
  himportR mallocOk true (some (envCheckApply cfg board)) (some h) defaultEnvironment 0 H_NOCLEAR vars true

end UBoot
