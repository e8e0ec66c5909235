import UBoot.CString
import UBoot.Word

/-!
# Formatted output

`vsnprintf` and `vscnprintf` of lib/vsprintf.c with `CONFIG_SYS_VSNPRINTF`; `net` is `CONFIG_CMD_NET`. The conversions are written
once for any `ADDCH`: `addchMem` is the macro of the source, which stores below `end`, `addchText` appends to a text without a bound. An
`int` is an integer, without the overflow that C leaves undefined. A directive whose argument is of another type gives `none`, and so
does `%n`.
-/

namespace UBoot

open Option

/-- The byte of a character. -/
def asc (c : Char) : UInt8 := UInt8.ofNat c.toNat

/-- `ZEROPAD`, `SIGN`, `PLUS`, `SPACE`, `LEFT`, `SMALL` and `SPECIAL` -/
structure FmtFlags where
  zeropad : Bool := false
  sign : Bool := false
  plus : Bool := false
  space : Bool := false
  left : Bool := false
  small : Bool := false
  special : Bool := false

/-- An argument: a word for an `int`, a `long` or a `size_t`, 64 bits for a `long long`, a `char *`, where `none` is NULL, and another
pointer with the bytes behind it. The output does not overlap what an argument points to. -/
inductive VArg where
  | word (w : UInt32)
  | quad (q : UInt64)
  | string (s : Option CString)
  | pointer (ptr : UInt32) (addr : Nat → UInt8)

/-! ## Digits -/

def hexAsc (d : UInt8) : UInt8 := if d < 10 then asc '0' + d else asc 'a' + (d - 10)

def packHexByte (byte : UInt8) : List UInt8 := [hexAsc ((byte &&& 0xf0) >>> 4), hexAsc (byte &&& 0x0f)]

/-- A digit below ten, as `put_dec_trunc` and `put_dec_full` store it. -/
def decDigit (d : UInt32) : UInt8 := (d + 0x30).toUInt8

/-- `put_dec_trunc`, the lowest digit first -/
def putDecTrunc (q : UInt32) : List UInt8 :=
  let d1 := (q >>> 4) &&& 0xf
  let d2 := (q >>> 8) &&& 0xf
  let d3 := q >>> 12
  let d0 := 6 * (d3 + d2 + d1) + (q &&& 0xf)
  let q := (d0 * 0xcd) >>> 11
  let d1 := q + 9 * d3 + 5 * d2 + d1
  decDigit (d0 - 10 * q) ::
    if d1 = 0 then []
    else
      let q := (d1 * 0xcd) >>> 11
      let d2 := q + 2 * d2
      decDigit (d1 - 10 * q) ::
        if d2 = 0 ∧ d3 = 0 then []
        else
          let q := (d2 * 0xd) >>> 7
          let d3 := q + 4 * d3
          decDigit (d2 - 10 * q) ::
            if d3 = 0 then []
            else
              let q := (d3 * 0xcd) >>> 11
              decDigit (d3 - 10 * q) :: if q = 0 then [] else [decDigit q]

def putDecFull (q : UInt32) : List UInt8 :=
  let d1 := (q >>> 4) &&& 0xf
  let d2 := (q >>> 8) &&& 0xf
  let d3 := q >>> 12
  let d0 := 6 * (d3 + d2 + d1) + (q &&& 0xf)
  let q0 := (d0 * 0xcd) >>> 11
  let d1 := q0 + 9 * d3 + 5 * d2 + d1
  let q1 := (d1 * 0xcd) >>> 11
  let d2 := q1 + 2 * d2
  let q2 := (d2 * 0xd) >>> 7
  let d3 := q2 + 4 * d3
  let q3 := (d3 * 0xcd) >>> 11
  [decDigit (d0 - 10 * q0), decDigit (d1 - 10 * q1), decDigit (d2 - 10 * q2), decDigit (d3 - 10 * q3), decDigit q3]

def putDec (num : UInt64) : List UInt8 :=
  if num < 100000 then putDecTrunc num.toUInt32 else putDecFull (num % 100000).toUInt32 ++ putDec (num / 100000)
termination_by num.toNat
decreasing_by
  rw [UInt64.toNat_div]
  rw [UInt64.lt_iff_toNat_lt] at *
  simp only [UInt64.reduceToNat] at *
  omega

def numberDigit (d : UInt8) : UInt8 := if d < 10 then asc '0' + d else asc 'A' + (d - 10)

theorem shiftRight_lt {base : UInt8} {num : UInt64} (h : num >>> (if base = 16 then 4 else 3) ≠ 0) :
    (num >>> (if base = 16 then 4 else 3)).toNat < num.toNat := by
  have hne : (num >>> (if base = 16 then 4 else 3)).toNat ≠ 0 := fun h0 => h (UInt64.toNat_inj.1 h0)
  rw [UInt64.toNat_shiftRight, Nat.shiftRight_eq_div_pow] at hne ⊢
  have hpos : 0 < num.toNat := Nat.pos_of_ne_zero fun h0 => hne (by rw [h0, Nat.zero_div])
  refine Nat.div_lt_self hpos (Nat.one_lt_two_pow ?_)
  split <;> decide

/-- The digits in base 8 or 16, the lowest first. -/
def putShift (base locase : UInt8) (num : UInt64) : List UInt8 :=
  let ch := numberDigit (num.toUInt8 &&& (base - 1)) ||| locase
  if num >>> (if base = 16 then 4 else 3) = 0 then [ch] else ch :: putShift base locase (num >>> (if base = 16 then 4 else 3))
termination_by num.toNat
decreasing_by
  next h => exact shiftRight_lt h

/-! ## The conversions -/

section
variable {σ : Type} (addch : σ → UInt8 → σ) (buf : σ)

/-- `ADDCH` of some characters in turn. -/
def addchs (chs : List UInt8) : σ := chs.foldl addch buf

/-- `while (--size >= 0) ADDCH(buf, ch)`, of which `sizeAfter` is the size that it leaves. -/
def addWhile (ch : UInt8) (size : Int) : σ := addchs addch buf (List.replicate size.toNat ch)

/-- The size after `addWhile`. -/
def sizeAfter (size : Int) : Int := min (size - 1) (-1)

/-- `number`, for base 8, 10 and 16 -/
def number (num : UInt64) (base : UInt8) (size precision : Int) (type : FmtFlags) : σ :=
  let needPfx := type.special && base ≠ 10
  let locase : UInt8 := if type.small then 0x20 else 0
  let type := if type.left then { type with zeropad := false } else type
  let negative := type.sign && num.toInt64 < 0
  let sign : UInt8 :=
    if negative then asc '-' else if type.sign && type.plus then asc '+' else if type.sign && type.space then chSpace else 0
  let num := if negative then -num else num
  let size := if sign ≠ 0 then size - 1 else size
  let size := if needPfx then (if base = 16 then size - 2 else size - 1) else size
  let tmp := if num = 0 then [asc '0'] else if base ≠ 10 then putShift base locase num else putDec num
  let i : Int := tmp.length
  let precision := max i precision
  let size := size - precision
  -- spaces in front of the sign
  let front := !type.zeropad && !type.left
  let buf := if front then addWhile addch buf chSpace size else buf
  let size := if front then sizeAfter size else size
  let buf := if sign ≠ 0 then addch buf sign else buf
  let buf := if needPfx then addch buf (asc '0') else buf
  let buf := if needPfx && base = 16 then addch buf (asc 'X' ||| locase) else buf
  -- zeros or spaces behind it
  let buf := if !type.left then addWhile addch buf (if type.zeropad then asc '0' else chSpace) size else buf
  let size := if !type.left then sizeAfter size else size
  let buf := addchs addch buf (List.replicate (precision - i).toNat (asc '0'))
  let buf := addchs addch buf tmp.reverse
  addWhile addch buf chSpace size

/-- `string`. The precision is a `size_t` to `strnlen`. -/
def string (s : Option (List UInt8)) (fieldWidth precision : Int) (flags : FmtFlags) : σ :=
  let s := s.getD ("<NULL>".toList.map asc)
  let len : Int := min s.length (precision % 2 ^ 32)
  let buf := if !flags.left then addchs addch buf (List.replicate (fieldWidth - len).toNat chSpace) else buf
  let fieldWidth := if !flags.left then min fieldWidth len - 1 else fieldWidth
  let buf := addchs addch buf (s.take len.toNat)
  addchs addch buf (List.replicate (fieldWidth - len).toNat chSpace)

def macAddressString (addr : Nat → UInt8) (fieldWidth precision : Int) (flags : FmtFlags) : σ :=
  let macAddr := (List.range 6).flatMap fun i => packHexByte (addr i) ++ if !flags.special && i ≠ 5 then [chColon] else []
  string addch buf (some macAddr) fieldWidth precision { flags with special := false }

def ip6AddrString (addr : Nat → UInt8) (fieldWidth precision : Int) (flags : FmtFlags) : σ :=
  let ip6Addr := (List.range 8).flatMap fun i =>
    packHexByte (addr (2 * i)) ++ packHexByte (addr (2 * i + 1)) ++ if !flags.special && i ≠ 7 then [chColon] else []
  string addch buf (some ip6Addr) fieldWidth precision { flags with special := false }

def ip4AddrString (addr : Nat → UInt8) (fieldWidth precision : Int) (flags : FmtFlags) : σ :=
  let ip4Addr := (List.range 4).flatMap fun i => (putDecTrunc (addr i).toUInt32).reverse ++ if i ≠ 3 then [asc '.'] else []
  string addch buf (some ip4Addr) fieldWidth precision { flags with special := false }

/-- `pointer`, where `fmt` is the format behind the `p` -/
def pointer (net : Bool) (fmt : List UInt8) (ptr : UInt32) (addr : Nat → UInt8) (fieldWidth precision : Int) (flags : FmtFlags) : σ :=
  let c := fmt.headD 0
  let c1 := (fmt.drop 1).headD 0
  let ipSpecial := { flags with special := flags.special || c = asc 'i' }
  if ptr = 0 then string addch buf (some ("(null)".toList.map asc)) fieldWidth precision flags
  else if net ∧ (c = asc 'm' ∨ c = asc 'M') then
    macAddressString addch buf addr fieldWidth precision { flags with special := flags.special || c = asc 'm' }
  else if net ∧ (c = asc 'i' ∨ c = asc 'I') ∧ c1 = asc '6' then ip6AddrString addch buf addr fieldWidth precision ipSpecial
  else if net ∧ (c = asc 'i' ∨ c = asc 'I') ∧ c1 = asc '4' then ip4AddrString addch buf addr fieldWidth precision ipSpecial
  else
    let flags := if net ∧ (c = asc 'i' ∨ c = asc 'I') then { flags with special := false } else flags
    let flags := { flags with small := true }
    if fieldWidth = -1 then number addch buf ptr.toUInt64 16 8 precision { flags with zeropad := true }
    else number addch buf ptr.toUInt64 16 fieldWidth precision flags

end

/-! ## A directive -/

/-- The variables of a directive, with the format and the arguments that are left. -/
structure FmtCursor where
  fmt : List UInt8
  args : List VArg
  flags : FmtFlags
  fieldWidth : Int
  precision : Int
  /-- 0 for -1 -/
  qualifier : UInt8

def fmtDigit (c : UInt8) : Bool := asc '0' ≤ c && c ≤ asc '9'

/-- `isalnum`, by the table of lib/ctype.c -/
def fmtAlnum (c : UInt8) : Bool :=
  fmtDigit c || (asc 'A' ≤ c && c ≤ asc 'Z') || (asc 'a' ≤ c && c ≤ asc 'z') || (192 ≤ c && c ≠ 215 && c ≠ 247)

def skipAtoi (i : Int) : List UInt8 → Int × List UInt8
  | [] => (i, [])
  | c :: fmt => if fmtDigit c then skipAtoi (i * 10 + c.toNat - 0x30) fmt else (i, c :: fmt)

/-- `va_arg` of an `int` or another word -/
def vaWord : List VArg → Option (UInt32 × List VArg)
  | .word w :: args => some (w, args)
  | _ => none

/-- `va_arg` of a `long long` -/
def vaQuad : List VArg → Option (UInt64 × List VArg)
  | .quad q :: args => some (q, args)
  | _ => none

/-- `va_arg` of a `char *` -/
def vaString : List VArg → Option (Option CString × List VArg)
  | .string s :: args => some (s, args)
  | _ => none

/-- `va_arg` of a `void *`, with the bytes behind it -/
def vaPointer : List VArg → Option ((UInt32 × (Nat → UInt8)) × List VArg)
  | .pointer ptr addr :: args => some ((ptr, addr), args)
  | _ => none

/-- The flags of a directive. -/
def readFlags (flags : FmtFlags) : List UInt8 → FmtFlags × List UInt8
  | [] => (flags, [])
  | c :: fmt =>
    if c = asc '-' then readFlags { flags with left := true } fmt
    else if c = asc '+' then readFlags { flags with plus := true } fmt
    else if c = chSpace then readFlags { flags with space := true } fmt
    else if c = asc '#' then readFlags { flags with special := true } fmt
    else if c = asc '0' then readFlags { flags with zeropad := true } fmt
    else (flags, c :: fmt)

/-- `int` from a word of the arguments. -/
def argInt (w : UInt32) : Int := toLong w.toNat

/-- The field width. -/
def FmtCursor.readWidth (r : FmtCursor) : Option FmtCursor :=
  let c := r.fmt.headD 0
  if fmtDigit c then some { r with fieldWidth := (skipAtoi 0 r.fmt).1, fmt := (skipAtoi 0 r.fmt).2 }
  else if c = asc '*' then
    (vaWord r.args).map fun (w, args) =>
      if argInt w < 0 then
        { r with fmt := r.fmt.tail, args := args, fieldWidth := -argInt w, flags := { r.flags with left := true } }
      else { r with fmt := r.fmt.tail, args := args, fieldWidth := argInt w }
  else some r

def FmtCursor.readPrecision (r : FmtCursor) : Option FmtCursor :=
  if r.fmt.headD 0 = asc '.' then
    let fmt := r.fmt.tail
    if fmtDigit (fmt.headD 0) then some { r with precision := max 0 (skipAtoi 0 fmt).1, fmt := (skipAtoi 0 fmt).2 }
    else if fmt.headD 0 = asc '*' then
      (vaWord r.args).map fun (w, args) => { r with precision := max 0 (argInt w), fmt := fmt.tail, args := args }
    else some { r with precision := 0, fmt := fmt }
  else some r

/-- The qualifier; two `l` are an `L`. -/
def FmtCursor.readQualifier (r : FmtCursor) : FmtCursor :=
  let c := r.fmt.headD 0
  if [asc 'h', asc 'l', asc 'L', asc 'Z', asc 'z', asc 't'].contains c then
    let fmt := r.fmt.tail
    if c = asc 'l' ∧ fmt.headD 0 = asc 'l' then { r with qualifier := asc 'L', fmt := fmt.tail }
    else { r with qualifier := c, fmt := fmt }
  else r

/-- The base and the flags of a conversion that prints a number. -/
def numberFormat (c : UInt8) (flags : FmtFlags) : Option (UInt8 × FmtFlags) :=
  if c = asc 'o' then some (8, flags)
  else if c = asc 'x' then some (16, { flags with small := true })
  else if c = asc 'X' then some (16, flags)
  else if c = asc 'd' ∨ c = asc 'i' then some (10, { flags with sign := true })
  else if c = asc 'u' then some (10, flags)
  else none

/-- The number of such a conversion. -/
def vaNumber (qualifier : UInt8) (sign : Bool) (args : List VArg) : Option (UInt64 × List VArg) :=
  if qualifier = asc 'L' then vaQuad args
  else
    (vaWord args).map fun (w, args) =>
      if qualifier = asc 'l' then (if sign then w.toInt32.toInt64.toUInt64 else w.toUInt64, args)
      else if qualifier = asc 'Z' ∨ qualifier = asc 'z' then (w.toUInt64, args)
      else if qualifier = asc 't' then (w.toInt32.toInt64.toUInt64, args)
      else if qualifier = asc 'h' then (if sign then w.toUInt16.toInt16.toInt64.toUInt64 else w.toUInt16.toUInt64, args)
      else (if sign then w.toInt32.toInt64.toUInt64 else w.toUInt64, args)

section
variable {σ : Type} (net : Bool) (addch : σ → UInt8 → σ) (buf : σ)

/-- The case `'c'` of the switch. -/
def charField (ch : UInt8) (fieldWidth : Int) (flags : FmtFlags) : σ :=
  let buf := if !flags.left then addchs addch buf (List.replicate (fieldWidth - 1).toNat chSpace) else buf
  let fieldWidth := if !flags.left then min (fieldWidth - 1) 0 else fieldWidth
  let buf := addch buf ch
  addchs addch buf (List.replicate (fieldWidth - 1).toNat chSpace)

/-- The switch over the conversion, with the format and the arguments that it leaves. -/
def convert (r : FmtCursor) : Option (σ × List UInt8 × List VArg) :=
  match r.fmt with
  | [] => some (addch buf (asc '%'), [], r.args)
  | c :: fmt =>
    if c = asc 'c' then
      (vaWord r.args).map fun (w, args) => (charField addch buf w.toUInt8 r.fieldWidth r.flags, fmt, args)
    else if c = asc 's' then
      (vaString r.args).map fun (s, args) =>
        (string addch buf (s.map CString.bytes) r.fieldWidth r.precision r.flags, fmt, args)
    else if c = asc 'p' then
      (vaPointer r.args).map fun ((ptr, addr), args) =>
        (pointer addch buf net fmt ptr addr r.fieldWidth r.precision r.flags, fmt.dropWhile fmtAlnum, args)
    else if c = asc 'n' then none
    else if c = asc '%' then some (addch buf (asc '%'), fmt, r.args)
    else
      match numberFormat c r.flags with
      | some (base, flags) =>
        (vaNumber r.qualifier flags.sign r.args).map fun (num, args) =>
          (number addch buf num base r.fieldWidth r.precision flags, fmt, args)
      | none => some (addch (addch buf (asc '%')) c, fmt, r.args)

/-- The directive that the format behind a `%` begins with. -/
def directive (fmt : List UInt8) (args : List VArg) : Option (σ × List UInt8 × List VArg) :=
  let (flags, fmt) := readFlags {} fmt
  let r : FmtCursor := { fmt := fmt, args := args, flags := flags, fieldWidth := -1, precision := -1, qualifier := 0 }
  (r.readWidth.bind FmtCursor.readPrecision).bind fun r => convert net addch buf r.readQualifier

end

/-! ## The format -/

theorem readFlags_length (flags : FmtFlags) (fmt : List UInt8) : (readFlags flags fmt).2.length ≤ fmt.length := by
  fun_induction readFlags flags fmt <;> simp only [List.length_cons] <;> omega

theorem skipAtoi_length (i : Int) (fmt : List UInt8) : (skipAtoi i fmt).2.length ≤ fmt.length := by
  fun_induction skipAtoi i fmt <;> simp only [List.length_cons] <;> omega

theorem tail_length (fmt : List UInt8) : fmt.tail.length ≤ fmt.length := by
  rw [List.length_tail]
  exact Nat.sub_le _ _

theorem readWidth_length {r r' : FmtCursor} (h : r.readWidth = some r') : r'.fmt.length ≤ r.fmt.length := by
  unfold FmtCursor.readWidth at h
  dsimp only at h
  split at h
  · cases h
    exact skipAtoi_length 0 r.fmt
  · split at h
    · obtain ⟨⟨w, args⟩, -, rfl⟩ := map_eq_some_iff.1 h
      dsimp only
      split <;> exact tail_length r.fmt
    · cases h
      exact Nat.le_refl _

theorem readPrecision_length {r r' : FmtCursor} (h : r.readPrecision = some r') : r'.fmt.length ≤ r.fmt.length := by
  unfold FmtCursor.readPrecision at h
  dsimp only at h
  split at h
  · split at h
    · cases h
      exact Nat.le_trans (skipAtoi_length 0 r.fmt.tail) (tail_length r.fmt)
    · split at h
      · obtain ⟨⟨w, args⟩, -, rfl⟩ := map_eq_some_iff.1 h
        exact Nat.le_trans (tail_length r.fmt.tail) (tail_length r.fmt)
      · cases h
        exact tail_length r.fmt
  · cases h
    exact Nat.le_refl _

theorem readQualifier_length (r : FmtCursor) : r.readQualifier.fmt.length ≤ r.fmt.length := by
  unfold FmtCursor.readQualifier
  dsimp only
  split
  · split
    · exact Nat.le_trans (tail_length r.fmt.tail) (tail_length r.fmt)
    · exact tail_length r.fmt
  · exact Nat.le_refl _

section
variable {σ : Type} {net : Bool} {addch : σ → UInt8 → σ} {buf buf' : σ} {fmt rest : List UInt8} {args args' : List VArg}

theorem convert_length {r : FmtCursor} (h : convert net addch buf r = some (buf', rest, args')) : rest.length ≤ r.fmt.length := by
  unfold convert at h
  split at h
  · cases h
    exact Nat.zero_le _
  next c fmt heq =>
    -- what is left begins behind the conversion, and behind the suffix of a pointer
    have htail : fmt.length ≤ r.fmt.length := by
      rw [heq, List.length_cons]
      exact Nat.le_succ _
    have hsuffix : (fmt.dropWhile fmtAlnum).length ≤ fmt.length := (List.dropWhile_suffix _).length_le
    split at h
    · obtain ⟨_, -, h⟩ := map_eq_some_iff.1 h
      cases h
      exact htail
    · split at h
      · obtain ⟨_, -, h⟩ := map_eq_some_iff.1 h
        cases h
        exact htail
      · split at h
        · obtain ⟨_, -, h⟩ := map_eq_some_iff.1 h
          cases h
          exact Nat.le_trans hsuffix htail
        · split at h
          · cases h
          · split at h
            · cases h
              exact htail
            · split at h
              · obtain ⟨_, -, h⟩ := map_eq_some_iff.1 h
                cases h
                exact htail
              · cases h
                exact htail

/-- A directive leaves no more of the format than there was behind its `%`. -/
theorem directive_length (h : directive net addch buf fmt args = some (buf', rest, args')) : rest.length ≤ fmt.length := by
  obtain ⟨r, hr, hconv⟩ := bind_eq_some_iff.1 h
  obtain ⟨r₀, hwidth, hprec⟩ := bind_eq_some_iff.1 hr
  calc
    rest.length ≤ r.readQualifier.fmt.length := convert_length hconv
    _ ≤ r.fmt.length := readQualifier_length r
    _ ≤ r₀.fmt.length := readPrecision_length hprec
    _ ≤ (readFlags {} fmt).2.length := readWidth_length hwidth
    _ ≤ fmt.length := readFlags_length {} fmt

end

/-- The loop of `vsnprintf_internal`. -/
def formatLoop {σ : Type} (net : Bool) (addch : σ → UInt8 → σ) (buf : σ) (fmt : List UInt8) (args : List VArg) : Option σ :=
  match fmt with
  | [] => some buf
  | c :: fmt =>
    if c ≠ asc '%' then formatLoop net addch (addch buf c) fmt args
    else
      match _h : directive net addch buf fmt args with
      | none => none
      | some (buf, rest, args) => formatLoop net addch buf rest args
termination_by fmt.length
decreasing_by
  · exact Nat.lt_succ_self _
  · exact Nat.lt_succ_of_le (directive_length _h)

section
variable {σ : Type} (net : Bool) (addch : σ → UInt8 → σ) (buf : σ) (args : List VArg)

theorem formatLoop_nil : formatLoop net addch buf [] args = some buf := by rw [formatLoop]

theorem formatLoop_literal {c : UInt8} (h : c ≠ asc '%') (fmt : List UInt8) :
    formatLoop net addch buf (c :: fmt) args = formatLoop net addch (addch buf c) fmt args := by
  rw [formatLoop, if_pos h]

theorem formatLoop_directive (fmt : List UInt8) : formatLoop net addch buf (asc '%' :: fmt) args =
      (directive net addch buf fmt args).bind fun (buf, rest, args) => formatLoop net addch buf rest args := by
  rw [formatLoop, if_neg (not_not_intro rfl)]
  split
  next h => rw [h, bind_none]
  next h => rw [h, bind_some]

end

/-! ## The outputs -/

/-- `ADDCH` without `CONFIG_SYS_VSNPRINTF`, to a text without a bound. -/
def addchText (text : List UInt8) (ch : UInt8) : List UInt8 := text ++ [ch]

/-- The text of a format and its arguments. -/
def formatText (net : Bool) (fmt : CString) (args : List VArg) : Option (List UInt8) := formatLoop net addchText [] fmt.bytes args

/-- The memory, and `str`. -/
structure FmtOut where
  mem : UInt32 → UInt8
  str : UInt32

/-- A byte stored in memory. -/
def storeByte (mem : UInt32 → UInt8) (p : UInt32) (ch : UInt8) : UInt32 → UInt8 := fun a => if a = p then ch else mem a

/-- `ADDCH`. The pointer counts on when the output is full. -/
def addchMem (bound : UInt32) (out : FmtOut) (ch : UInt8) : FmtOut :=
  { mem := if out.str < bound then storeByte out.mem out.str ch else out.mem, str := out.str + 1 }

/-- `end`, and the size that it leaves: not below `buf`. -/
def outputEnd (buf size : UInt32) : UInt32 × UInt32 :=
  if buf + size < buf then (0xffffffff, 0xffffffff - buf) else (buf + size, size)

/-- `vsnprintf_internal` behind its loop: the NUL, and the result. -/
def formatFinish (buf bound size : UInt32) (out : FmtOut) : (UInt32 → UInt8) × Int :=
  if 0 < size then
    let out := addchMem bound out 0
    (if bound < out.str then storeByte out.mem (bound - 1) 0 else out.mem, argInt (out.str - buf))
  else (out.mem, argInt (out.str - buf))

/-- `vsnprintf`, which is `vsnprintf_internal` -/
def vsnprintf (net : Bool) (mem : UInt32 → UInt8) (buf size : UInt32) (fmt : CString) (args : List VArg) : Option ((UInt32 → UInt8) × Int) :=
  (formatLoop net (addchMem (outputEnd buf size).1) { mem := mem, str := buf } fmt.bytes args).map
    (formatFinish buf (outputEnd buf size).1 (outputEnd buf size).2)

/-- The result of `vscnprintf` for the result `i` of `vsnprintf`, which is compared without its sign. -/
def scnResult (size : UInt32) (i : Int) : Int :=
  if UInt32.ofInt i < size then i else if size ≠ 0 then argInt (size - 1) else 0

def vscnprintf (net : Bool) (mem : UInt32 → UInt8) (buf size : UInt32) (fmt : CString) (args : List VArg) : Option ((UInt32 → UInt8) × Int) :=
  (vsnprintf net mem buf size fmt args).map fun (mem, i) => (mem, scnResult size i)

end UBoot
