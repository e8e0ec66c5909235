import UBoot.Mtdparts

/-!
# hwconfig

common/hwconfig.c: options are looked for in a string by substring search. A string is the list of its characters before the NUL, a
pointer into it an offset. A search is `none` when it goes round for ever, which an empty option can make it do.
-/

namespace UBoot

/-- `strstr`: where a string is first in the other one. -/
def strstrAt : List UInt8 → List UInt8 → Option Nat
  | [], opt => if opt = [] then some 0 else none
  | c :: s, opt => if opt <+: c :: s then some 0 else (strstrAt s opt).map (· + 1)

def strpbrk (cs ct : List UInt8) : Option Nat := cs.findIdx? (· ∈ ct)

/-- The loop of `hwconfig_parse` from `opts` on, with `arglen` or with a NULL in its place: the pointer returned, and `*arglen`. -/
def hwconfigNext (start : List UInt8) (maxlen : Nat) (opt stopchs : List UInt8) (eqch : UInt8) (arglen : Bool) :
    Nat → Nat → Option (Option (Nat × Nat))
  | 0, _ => none
  | rounds + 1, opts =>
    match strstrAt (start.drop opts) opt with
    -- `end - start` is a large number or `str` is tested: NULL in both cases
    | none => some none
    | some i =>
      let str := opts + i
      let fin := str + opt.length
      if maxlen < fin then some none
      else if (str = opts ∨ strpbrk (start.drop (str - 1)) stopchs = some 0) ∧
          (strpbrk (start.drop fin) stopchs = some 0 ∨ start[fin]? = some eqch ∨ start[fin]? = none) then
        if arglen = false then some (some (str, 0))
        else if start[fin]? ≠ some eqch then some none
        else
          match strpbrk (start.drop str) stopchs with
          | none => some (some (fin + 1, min maxlen (start.length - str) - opt.length - 1))
          | some j => some (some (fin + 1, str + j - fin - 1))
      else hwconfigNext start maxlen opt stopchs eqch arglen rounds fin

def hwconfigParse (opts : List UInt8) (maxlen : Nat) (opt stopchs : List UInt8) (eqch : UInt8) (arglen : Bool) : Option (Option (Nat × Nat)) :=
  hwconfigNext opts maxlen opt stopchs eqch arglen (opts.length + 1) 0

/-- A pointer into a string, and what `*arglen` is with it. -/
structure HwArg where
  text : List UInt8
  offset : Nat
  arglen : Nat
  deriving DecidableEq

/-- `GD_FLG_ENV_READY`, and the variable `hwconfig`. -/
structure HwEnv where
  ready : Bool
  hwconfig : Option (List UInt8)

/-- `cpu_hwconfig` and `board_hwconfig`, which no board of the tree sets. -/
def cpuHwconfig : List UInt8 := []
def boardHwconfig : List UInt8 := []

/-- A search of `__hwconfig` in one string. -/
def hwconfigIn (text opt : List UInt8) (arglen : Bool) : Option (Option HwArg) :=
  (hwconfigParse text text.length opt [chSemicolon] chColon arglen).map fun r => r.map fun r => ⟨text, r.1, r.2⟩

/-- A search that is made when the one before found nothing. -/
def orHwconfig (ret next : Option (Option HwArg)) : Option (Option HwArg) :=
  match ret with
  | some none => next
  | _ => ret

/-- `__hwconfig` with the string that it uses. -/
def hwconfigStrings (opt : List UInt8) (arglen : Bool) (env : Option (List UInt8)) : Option (Option HwArg) :=
  orHwconfig (env.elim (some none) fun text => hwconfigIn text opt arglen)
    (orHwconfig (hwconfigIn boardHwconfig opt arglen) (hwconfigIn cpuHwconfig opt arglen))

def hwconfig (opt : List UInt8) (arglen : Bool) (e : HwEnv) (buf : Option (List UInt8)) : Option (Option HwArg) :=
  match buf with
  | some buf => hwconfigStrings opt arglen (some buf)
  | none => if e.ready then hwconfigStrings opt arglen e.hwconfig else some none

def hwconfigF (opt : List UInt8) (e : HwEnv) (buf : Option (List UInt8)) : Option Bool := (hwconfig opt false e buf).map Option.isSome

def hwconfigArgF (opt : List UInt8) (e : HwEnv) (buf : Option (List UInt8)) : Option (Option HwArg) := hwconfig opt true e buf

/-- A search in the argument of an option. -/
def hwconfigSub (subopt : List UInt8) (arglen : Bool) (arg : HwArg) : Option (Option HwArg) :=
  (hwconfigParse (arg.text.drop arg.offset) arg.arglen subopt [chComma, chSemicolon] chEquals arglen).map fun r =>
    r.map fun r => ⟨arg.text, arg.offset + r.1, r.2⟩

def hwconfigSubF (opt subopt : List UInt8) (e : HwEnv) (buf : Option (List UInt8)) : Option Bool :=
  (hwconfig opt true e buf).bind fun arg => arg.elim (some false) fun arg => (hwconfigSub subopt false arg).map Option.isSome

def hwconfigSubargF (opt subopt : List UInt8) (e : HwEnv) (buf : Option (List UInt8)) : Option (Option HwArg) :=
  (hwconfig opt true e buf).bind fun arg => arg.elim (some none) (hwconfigSub subopt true)

end UBoot
