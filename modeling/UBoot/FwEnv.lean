import UBoot.Crc32
import UBoot.Lib.Memory
import UBoot.Nvedit

/-!
# The Linux tool

`fw_getenv`, `fw_env_write` and `fw_setenv` of tools/env/fw_env.c, which read and edit the environment block from Linux. The block
`environment.data` is a memory of which the first `ENV_SIZE` bytes are the environment. The tool has its own copy of
`envmatch`, on pointers instead of indices, and finds the end of an entry by the loop `getenv_f` has. A result of `none` is a
scan that leaves the block.
-/

namespace UBoot

open Lib

/-- The errors of `fw_env_write`, all with a return of `-1`: `errno` is `EINVAL`, `EROFS` and left alone. -/
inductive FwError where
  | notTerminated | cantOverwrite | overflow
  deriving DecidableEq, Repr

/-! ## Searching -/

/-- Where the scan for a name ends. -/
inductive FwFound where
  | notTerminated
  | absent
  | found (env nxt val : Nat)
  deriving DecidableEq, Repr

/-- The scan of `fw_getenv` and `fw_env_write` from the entry at `env` on: where the entry starts, its NUL, and its value. -/
def fwSearch (data : Nat → UInt8) (envSize : Nat) (name : CString) : Nat → Nat → Option FwFound
  | 0, _ => none
  | fuel + 1, env =>
    if data env = 0 then some .absent
    else
      match entryEnd data (envSize - env) env with
      | none => some .notTerminated
      | some nxt =>
        match envmatch data name.bytes env with
        | none => none
        | some none => fwSearch data envSize name fuel (nxt + 1)
        | some (some val) => some (.found env nxt val)

/-- `fw_getenv`: a pointer to the value, or `none` inside for `NULL`. `fwEnvOpen` is the block `fw_env_open` reads, if it
succeeds. -/
def fwGetenv (fwEnvOpen : Option (Nat → UInt8)) (envSize : Nat) (name : CString) : Option (Option Nat) :=
  match fwEnvOpen with
  | none => some none
  | some data =>
    match fwSearch data envSize name (envSize + 2) 0 with
    | none => none
    | some (.found _ _ val) => some (some val)
    | some _ => some none

/-! ## Writing -/

/-- The `for (;;)` that moves the entries after a deleted one down: the block, and `env` at the NUL it stops at. -/
def fwMoveDown : Nat → (Nat → UInt8) → Nat → Nat → Option ((Nat → UInt8) × Nat)
  | 0, _, _, _ => none
  | fuel + 1, data, env, nxt =>
    let data := Function.update data env (data nxt)
    if data env = 0 ∧ data (nxt + 1) = 0 then some (data, env) else fwMoveDown fuel data (env + 1) (nxt + 1)

/-- Delete the definition from `env` to the NUL at `nxt`. -/
def fwDelete (data : Nat → UInt8) (envSize env nxt : Nat) : Option (Nat → UInt8) :=
  if data (nxt + 1) = 0 then some (Function.update (Function.update data env 0) (env + 1) 0)
  else (fwMoveDown envSize data env (nxt + 1)).map fun r => Function.update r.1 (r.2 + 1) 0

/-- `for (env = environment.data; *env || *(env + 1); ++env);` -/
def fwEnd (data : Nat → UInt8) : Nat → Nat → Option Nat
  | 0, _ => none
  | fuel + 1, env => if data env ≠ 0 ∨ data (env + 1) ≠ 0 then fwEnd data fuel (env + 1) else some env

/-- Append a definition at the end. On an overflow nothing is written. -/
def fwAppend (data : Nat → UInt8) (envSize : Nat) (name value : CString) : Option (Option FwError × (Nat → UInt8)) :=
  match fwEnd data envSize 0 with
  | none => none
  | some last =>
    let env := if 0 < last then last + 1 else last
    let len := name.bytes.length + 2 + (value.bytes.length + 1)
    if envSize < env + len then some (some .overflow, data)
    else some (none, store data env (name.bytes ++ chEquals :: (value.bytes ++ [0, 0])))

/-- The variables that can be set only once. `oldval` points to the old value. -/
def fwOnce (cfg : OnceConfig) (data : Nat → UInt8) (envSize : Nat) (name : CString) (oldval : Nat) : Bool :=
  setOnce cfg name (CString.ofBytes ((List.range envSize).map fun i => data (oldval + i)))

/-- `fw_env_write`: the error, if it returns `-1`, and the block. -/
def fwEnvWrite (cfg : OnceConfig) (data : Nat → UInt8) (envSize : Nat) (name : CString) (value : Option CString) :
    Option (Option FwError × (Nat → UInt8)) :=
  match fwSearch data envSize name (envSize + 2) 0 with
  | none => none
  | some .notTerminated => some (some .notTerminated, data)
  | some found =>
    let deleted := match found with
      | .found env nxt oldval =>
        if fwOnce cfg data envSize name oldval then some (some FwError.cantOverwrite, data)
        else (fwDelete data envSize env nxt).map fun data => (none, data)
      | _ => some (none, data)
    match deleted with
    | none => none
    | some (some e, data) => some (some e, data)
    | some (none, data) =>
      match value with
      | none => some (none, data)
      | some value => if value.bytes = [] then some (none, data) else fwAppend data envSize name value

/-! ## The command -/

def blockBytes (data : Nat → UInt8) (envSize : Nat) : List UInt8 := (List.range envSize).map data

/-- What `fw_env_close` writes to the flash. -/
structure FwImage where
  crc : UInt32
  data : List UInt8
  deriving DecidableEq, Repr

/-- `fw_env_close`: its result, and the image if the `flash_io` of it succeeds. -/
def fwEnvClose (flashIo : Bool) (data : Nat → UInt8) (envSize : Nat) : Int × Option FwImage :=
  let image : FwImage := ⟨crc32 0 (blockBytes data envSize), blockBytes data envSize⟩
  if flashIo then (0, some image) else (-1, none)

/-- One argument behind another, with a blank between them. -/
def CString.joined (value val : CString) : CString where
  bytes := value.bytes ++ chSpace :: val.bytes
  nul_free h := by
    have h0 : (0 : UInt8) ≠ chSpace := by decide
    simp [value.nul_free, val.nul_free, h0] at h

/-- The loop of `fw_setenv` over the arguments from `argv[2]` on: `value`, which is `NULL` before the first. -/
def fwJoinArgs : Option CString → List CString → Option CString
  | value, [] => value
  | none, val :: args => fwJoinArgs (some val) args
  | some value, val :: args => fwJoinArgs (some (value.joined val)) args

/-- `fw_setenv`: its result, and what it has written. It takes no notice of what `fw_env_write` returns. -/
def fwSetenv (cfg : OnceConfig) (fwEnvOpen : Option (Nat → UInt8)) (envSize : Nat) (mallocOk flashIo : Bool) :
    List CString → Option (Int × Option FwImage)
  | _ :: name :: args =>
    match fwEnvOpen with
    | none => some (-1, none)
    | some data =>
      if !args.isEmpty && !mallocOk then some (-1, none)
      else (fwEnvWrite cfg data envSize name (fwJoinArgs none args)).map fun r => fwEnvClose flashIo r.2 envSize
  | _ => some (-1, none)

end UBoot
