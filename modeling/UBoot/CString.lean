import Mathlib.Data.List.TakeWhile
import Mathlib.Algebra.Group.Nat.Defs

/-!
# C strings

A `char *` that the environment code is given is the bytes before the terminating NUL. `CString` carries the fact that
no such byte is NUL, so `strlen` is the length of the list and `strcmp` decides equality. Plain `char` is unsigned on
the ARM boards of this tree, so a byte is a `UInt8`.
-/

namespace UBoot

/-- What is said of the bytes of a list is tested on the list, not on all bytes that there are. -/
instance (priority := 2000) decidableBytes {p : UInt8 → Prop} [DecidablePred p] (bytes : List UInt8) : Decidable (∀ c ∈ bytes, p c) :=
  List.decidableBAll p bytes

/-- The bytes of a NUL-terminated string, without the NUL. -/
structure CString where
  bytes : List UInt8
  nul_free : (0 : UInt8) ∉ bytes
  deriving DecidableEq

namespace CString

/-- The string at the start of a buffer: its bytes up to the first NUL. -/
def ofBytes (bs : List UInt8) : CString where
  bytes := bs.takeWhile (· != 0)
  nul_free := by
    intro h
    simpa using List.mem_takeWhile_imp h

theorem ofBytes_bytes (s : CString) : ofBytes s.bytes = s := by
  cases s with
  | mk bs h =>
    simp only [ofBytes, mk.injEq]
    rw [List.takeWhile_eq_self_iff]
    intro x hx
    simpa using fun h0 : x = 0 => h (h0 ▸ hx)

theorem ofBytes_terminated (s : CString) (rest : List UInt8) : ofBytes (s.bytes ++ 0 :: rest) = s := by
  obtain ⟨bs, h⟩ := s
  have hall : ∀ c ∈ bs, (c != 0) = true := fun c hc => by simpa using fun h0 : c = 0 => h (h0 ▸ hc)
  simp only [ofBytes, mk.injEq]
  rw [List.takeWhile_append_of_pos hall]
  simp

end CString

/-- The `signed char` a difference of two bytes is truncated to. -/
def signedChar (a b : UInt8) : Int := (BitVec.ofInt 8 ((a.toNat : Int) - (b.toNat : Int))).toInt

/-- `strcmp` of lib/string.c: the first difference, NUL included, truncated to a `signed char`. -/
def strcmpBytes : List UInt8 → List UInt8 → Int
  | [], [] => 0
  | [], b :: _ => signedChar 0 b
  | a :: _, [] => signedChar a 0
  | a :: as, b :: bs => if a = b then strcmpBytes as bs else signedChar a b

/-- `strcmp` on two strings. -/
def strcmp (s t : CString) : Int := strcmpBytes s.bytes t.bytes

/-! ## The bytes the environment code compares with -/

/-- `'\n'` -/
def chNewline : UInt8 := 0x0a
/-- `'\t'` -/
def chTab : UInt8 := 0x09
/-- `' '` -/
def chSpace : UInt8 := 0x20
/-- `'#'` -/
def chHash : UInt8 := 0x23
/-- `':'` -/
def chColon : UInt8 := 0x3a
/-- `'='` -/
def chEquals : UInt8 := 0x3d
/-- `'\\'` -/
def chBackslash : UInt8 := 0x5c

/-- `isblank` of include/linux/ctype.h. -/
def isblank (c : UInt8) : Bool := c == chSpace || c == chTab

/-!
## Reading a number

`simple_strtoul` and `simple_strtoull` of lib/vsprintf.c, on the bytes of a string. An `unsigned long` of the ARM boards has 32 bits.
-/

/-- `'0'` -/
def chZero : UInt8 := 0x30
/-- `'x'` -/
def chX : UInt8 := 0x78

/-- The value of a hexadecimal digit, as `simple_strtoul` takes it. -/
def xdigit (c : UInt8) : Option Nat :=
  if 0x30 ≤ c ∧ c ≤ 0x39 then some (c.toNat - 0x30)
  else if 0x61 ≤ c ∧ c ≤ 0x66 then some (c.toNat - 0x61 + 10)
  else if 0x41 ≤ c ∧ c ≤ 0x46 then some (c.toNat - 0x41 + 10)
  else none

/-- The loop of `simple_strtoul`. -/
def strtoulLoop (base : Nat) : Nat → List UInt8 → Nat
  | result, [] => result
  | result, c :: cp =>
    match xdigit c with
    | none => result
    | some value => if value < base then strtoulLoop base ((result * base + value) % 2 ^ 32) cp else result

/-- `simple_strtoul` for a base that is given, on bytes that end the string if no NUL does. -/
def simpleStrtoul (base : Nat) : List UInt8 → Nat
  | 0x30 :: 0x78 :: d :: cp => if (xdigit d).isSome then strtoulLoop 16 0 (d :: cp) else strtoulLoop base 0 (0x78 :: d :: cp)
  | cp => strtoulLoop base 0 cp

/-- The loop of `simple_strtoul`, with what follows the number. -/
def strtoulEndLoop (base : Nat) : Nat → List UInt8 → Nat × List UInt8
  | result, [] => (result, [])
  | result, c :: cp =>
    match xdigit c with
    | none => (result, c :: cp)
    | some value => if value < base then strtoulEndLoop base ((result * base + value) % 2 ^ 32) cp else (result, c :: cp)

/-- The base `simple_strtoul` finds for a base of 0, and where the digits begin. -/
def strtoulBase : List UInt8 → Nat × List UInt8
  | 0x30 :: 0x78 :: d :: cp => if (xdigit d).isSome then (16, d :: cp) else (8, 0x78 :: d :: cp)
  | 0x30 :: cp => (8, cp)
  | cp => (10, cp)

/-- `simple_strtoul` for a base of 0: the number, and `endp`. -/
def simpleStrtoulEnd (cp : List UInt8) : Nat × List UInt8 := strtoulEndLoop (strtoulBase cp).1 0 (strtoulBase cp).2

/-- Where the digits begin for a base of 16. -/
def hexStart : List UInt8 → List UInt8
  | 0x30 :: 0x78 :: d :: cp => if (xdigit d).isSome then d :: cp else 0x78 :: d :: cp
  | 0x30 :: cp => cp
  | cp => cp

/-- The loop of `simple_strtoull` for a base of 16, with what follows the number. -/
def strtoullEndLoop : Nat → List UInt8 → Nat × List UInt8
  | result, [] => (result, [])
  | result, c :: cp =>
    match xdigit c with
    | none => (result, c :: cp)
    | some value => strtoullEndLoop ((result * 16 + value) % 2 ^ 64) cp

/-- `simple_strtoull` for a base of 16: the number, and `endp`. -/
def simpleStrtoullEnd (cp : List UInt8) : Nat × List UInt8 := strtoullEndLoop 0 (hexStart cp)

/-- `simple_strtoul` for a base of 16: the number, and `endp`. -/
def simpleStrtoulHexEnd (cp : List UInt8) : Nat × List UInt8 := strtoulEndLoop 16 0 (hexStart cp)

end UBoot
