import UBoot.Mtdparts

/-!
# Console multiplexing

common/iomux.c with `search_device`, `console_setfile` and `console_assign` of common/console.c. A device is its place in the list of
common/stdio.c, the copy of the argument is the list of its bytes, an array the list of its cells, where a cell that was not written is
`none`. A result of `none` is an access outside one of them.
-/

namespace UBoot

/-- `stdin`, `stdout` and `stderr` -/
def STDIN : Int := 0
def STDOUT : Int := 1
def STDERR : Int := 2

def DEV_FLAGS_INPUT : UInt32 := 0x00000001
def DEV_FLAGS_OUTPUT : UInt32 := 0x00000002

/-- `struct stdio_dev`, and whether it has a `start` function. -/
structure StdioDev where
  flags : UInt32
  name : CString
  start : Bool

/-- `stdio_devices`, `console_devices` and `cd_count`, for each console. A pointer in `console_devices` is NULL or the array. -/
structure Consoles where
  stdioDevices : Int → Option Nat
  consoleDevices : Int → Option (List (Option Nat))
  cdCount : Int → Nat

def stdioGetByName (devs : List StdioDev) (name : CString) : Option Nat := devs.findIdx? fun dev => strcmp dev.name name = 0

def searchDevice (devs : List StdioDev) (flags : UInt32) (name : CString) : Option Nat :=
  match stdioGetByName devs name with
  | none => none
  | some i =>
    match devs[i]? with
    | none => none
    | some dev => if dev.flags &&& flags ≠ 0 then some i else none

/-- What `dev->start()` returns if there is such a function, for what it returns here. -/
def startResult (devs : List StdioDev) (dev : Nat) (error : Int) : Int :=
  if (devs[dev]?).any StdioDev.start then error else 0

def consoleSetfile (devs : List StdioDev) (file : Int) (dev : Nat) (error : Int) (s : Consoles) : Int × Consoles :=
  if file = STDIN ∨ file = STDOUT ∨ file = STDERR then
    if startResult devs dev error < 0 then (startResult devs dev error, s)
    else (startResult devs dev error, { s with stdioDevices := Function.update s.stdioDevices file (some dev) })
  else (-1, s)

/-- The flag that a device needs for a console. -/
def ioFlag (console : Int) : Option UInt32 :=
  if console = STDIN then some DEV_FLAGS_INPUT
  else if console = STDOUT ∨ console = STDERR then some DEV_FLAGS_OUTPUT
  else none

def consoleAssign (devs : List StdioDev) (file : Int) (name : CString) (error : Int) (s : Consoles) : Int × Consoles :=
  match ioFlag file with
  | none => (-1, s)
  | some flag =>
    match searchDevice devs flag name with
    | none => (-1, s)
    | some dev => consoleSetfile devs file dev error s

/-- `strchr` from a pointer into a buffer on: how far ahead the character is, or NULL. -/
def strchrFrom (c : UInt8) : List UInt8 → Option (Option Nat)
  | [] => none
  | b :: rest => if b = c then some (some 0) else if b = 0 then some none else (strchrFrom c rest).map fun n => n.map (· + 1)

/-- The first loop of `iomux_doenv`: the number of names. -/
def countArgs (args : List UInt8) : Nat → Nat → Nat → Option Nat
  | 0, _, _ => none
  | fuel + 1, temp, i =>
    match strchrFrom chComma (args.drop temp) with
    | none => none
    | some none => some (i + 1)
    | some (some n) => countArgs args fuel (temp + n + 1) (i + 1)

/-- The second loop: the commas become NULs, and `start` gets the place of each name. -/
def fillStart : Nat → List UInt8 → List (Option Nat) → Nat → Option (List UInt8 × List (Option Nat) × Nat)
  | 0, _, _, _ => none
  | fuel + 1, args, start, i =>
    match (start[i]?).join with
    | none => none
    | some from' =>
      match strchrFrom chComma (args.drop from') with
      | none => none
      | some none => some (args, start, i + 1)
      | some (some n) =>
        if i + 1 < start.length then
          fillStart fuel (args.set (from' + n) 0) (start.set (i + 1) (some (from' + n + 1))) (i + 1)
        else none

/-- The loop over the `n` entries of `cons_set` from `k` on: whether a device is one of them. -/
def isRepeat (consSet : List (Option Nat)) (dev : Nat) : Nat → Nat → Option Bool
  | 0, _ => some false
  | n + 1, k =>
    match (consSet[k]?).join with
    | none => none
    | some d => if dev = d then some true else isRepeat consSet dev n (k + 1)

/-- What the third loop changes: `cons_set` with `cs_idx`, and what `console_assign` does. -/
structure ConsSet where
  consSet : List (Option Nat)
  csIdx : Nat
  consoles : Consoles

/-- The third loop for one name. -/
def addName (devs : List StdioDev) (console : Int) (flag : UInt32) (name : CString) (error : Int) (s : ConsSet) : Option ConsSet :=
  match searchDevice devs flag name with
  | none => some s
  | some dev =>
    match isRepeat s.consSet dev s.csIdx 0 with
    | none => none
    | some true => some s
    | some false =>
      let r := consoleAssign devs console name error s.consoles
      if r.1 < 0 then some { s with consoles := r.2 }
      else if s.csIdx < s.consSet.length then some ⟨s.consSet.set s.csIdx (some dev), s.csIdx + 1, r.2⟩
      else none

/-- The same for the name at `start[j]`. -/
def addStart (devs : List StdioDev) (console : Int) (flag : UInt32) (args : List UInt8) (start : List (Option Nat))
    (errors : Nat → Int) (s : ConsSet) (j : Nat) : Option ConsSet :=
  match (start[j]?).join with
  | none => none
  | some from' => addName devs console flag (CString.ofBytes (args.drop from')) (errors j) s

/-- Which of the calls to `strdup`, `malloc`, `calloc` and `realloc` have memory. -/
structure Allocs where
  strdup : Bool
  malloc : Bool
  calloc : Bool
  realloc : Bool

/-- The end of `iomux_doenv`: the new array is the copy of `cons_set`. -/
def storeConsoles (allocs : Allocs) (console : Int) (s : ConsSet) : Option (Int × Consoles) :=
  if s.csIdx = 0 then some (1, s.consoles)
  else if allocs.realloc = false then
    some (1, { s.consoles with consoleDevices := Function.update s.consoles.consoleDevices console none })
  else if s.csIdx ≤ s.consSet.length then
    some (0, { s.consoles with
      consoleDevices := Function.update s.consoles.consoleDevices console (some (s.consSet.take s.csIdx))
      cdCount := Function.update s.consoles.cdCount console s.csIdx })
  else none

/-- `iomux_doenv`, where `errors j` is what the `start` function of the device of the name `j` returns. -/
def iomuxDoenv (devs : List StdioDev) (allocs : Allocs) (errors : Nat → Int) (console : Int) (arg : CString) (s : Consoles) :
    Option (Int × Consoles) :=
  if allocs.strdup = false then some (1, s)
  else
    (countArgs (arg.bytes ++ [0]) (arg.bytes.length + 1) 0 0).bind fun n =>
      if allocs.malloc = false then some (1, s)
      else if n = 0 then none
      else
        (fillStart (arg.bytes.length + 1) (arg.bytes ++ [0]) ((List.replicate n none).set 0 (some 0)) 0).bind fun r =>
          if allocs.calloc = false then some (1, s)
          else
            match ioFlag console with
            | none => some (1, s)
            | some flag =>
              ((List.range r.2.2).foldlM (addStart devs console flag r.1 r.2.1 errors) ⟨List.replicate r.2.2 none, 0, s⟩).bind
                (storeConsoles allocs console)

end UBoot
