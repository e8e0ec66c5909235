import UBoot.Buffer
import UBoot.Word

/-!
# gunzip

lib/gunzip.c. What a call of `inflate` does is an argument: the code it returns, how many bytes it consumes at `next_in` and which bytes it
puts at `next_out`. The buffers are the lists of their bytes, and a result of `none` is an access outside one of them.
-/

namespace UBoot

def HEAD_CRC : UInt8 := 2
def EXTRA_FIELD : UInt8 := 4
def ORIG_NAME : UInt8 := 8
def COMMENT : UInt8 := 0x10
def RESERVED : UInt8 := 0xe0
def DEFLATED : UInt8 := 8

def Z_OK : Int := 0
def Z_STREAM_END : Int := 1
def Z_BUF_ERROR : Int := -5

/-- The counters of a `z_stream`: `next_in` counts from `src`, `next_out` from `dst`. -/
structure ZStream where
  nextIn : Nat
  availIn : Nat
  nextOut : Nat
  availOut : Nat
  deriving DecidableEq

structure InflateCall where
  r : Int
  consumed : Nat
  out : List UInt8
  deriving DecidableEq

/-- `next_in` and `next_out` advance over what was consumed and produced. -/
def ZStream.advance (s : ZStream) (call : InflateCall) : ZStream :=
  ⟨s.nextIn + call.consumed, s.availIn - call.consumed, s.nextOut + call.out.length, s.availOut - call.out.length⟩

/-- The bytes that `inflate` reads are in `src`, and `dst` has room for those that it writes. -/
def inflate (src dst : List UInt8) (s : ZStream) (call : InflateCall) : Option (List UInt8) :=
  if call.consumed = 0 ∨ s.nextIn + call.consumed ≤ src.length then putBytes dst s.nextOut call.out else none

/-- The counters that `zunzip` begins with. -/
def zunzipStart (lenp offset : Nat) (dstlen : Int) : ZStream := ⟨offset, sub32 lenp offset, 0, (dstlen % 2 ^ 32).toNat⟩

/-- The counters that the loop sets behind a call. -/
def zunzipReset (lenp offset : Nat) (dstlen : Int) (s : ZStream) : ZStream :=
  { s with availIn := sub32 (sub32 lenp offset) (s.nextOut % 2 ^ 32), availOut := (dstlen % 2 ^ 32).toNat }

/-- The loop of `zunzip`, for some calls of `inflate`: no result if it goes on behind them, else the return value, the new `*lenp` and the
bytes of `dst`. An `offset` is the `int` modulo `2 ^ 32`. -/
def zunzipLoop (src : List UInt8) (dstlen : Int) (stoponerr : Int) (offset : Nat) :
    List InflateCall → List UInt8 → ZStream → Option (Option (Int × Nat × List UInt8))
  | [], _, _ => some none
  | call :: calls, dst, s =>
    match inflate src dst s call with
    | none => none
    | some dst =>
      if call.r ≠ Z_STREAM_END ∧ call.r ≠ Z_BUF_ERROR ∧ stoponerr = 1 then some (some (-1, src.length, dst))
      else if call.r = Z_BUF_ERROR then
        zunzipLoop src dstlen stoponerr offset calls dst (zunzipReset src.length offset dstlen (s.advance call))
      else some (some (0, (s.advance call).nextOut, dst))

/-- `zunzip`, where `init` is what `inflateInit2` returns. -/
def zunzip (dst : List UInt8) (dstlen : Int) (src : List UInt8) (stoponerr : Int) (offset : Nat) (init : Int) (calls : List InflateCall) :
    Option (Option (Int × Nat × List UInt8)) :=
  if init ≠ Z_OK then some (some (-1, src.length, dst))
  else zunzipLoop src dstlen stoponerr offset calls dst (zunzipStart src.length offset dstlen)

/-- `while (src[i++] != 0)`, from the byte `i` on, which is the first of those given. -/
def pastNul : List UInt8 → Nat → Option Nat
  | [], _ => none
  | b :: rest, i => if b ≠ 0 then pastNul rest (i + 1) else some (i + 1)

/-- Where the fields behind the first ten bytes begin to be strings. -/
def gunzipExtra (src : List UInt8) (flags : UInt8) : Option Nat :=
  if flags &&& EXTRA_FIELD ≠ 0 then
    match src[10]?, src[11]? with
    | some lo, some hi => some (12 + lo.toNat + hi.toNat * 2 ^ 8)
    | _, _ => none
  else some 10

/-- A string is skipped if its flag is set. -/
def gunzipString (src : List UInt8) (flags flag : UInt8) (i : Nat) : Option Nat :=
  if flags &&& flag ≠ 0 then pastNul (src.drop i) i else some i

/-- The end of the header: the offset of the data, if there are any. -/
def gunzipData (src : List UInt8) (flags : UInt8) (i : Nat) : Option Nat :=
  let i := if flags &&& HEAD_CRC ≠ 0 then (i + 2) % 2 ^ 32 else i
  if src.length ≤ i then none else some i

/-- The header of `gunzip`: the offset of the data, or `none` if the header is refused. -/
def gunzipHeader (src : List UInt8) : Option (Option Nat) :=
  match src[3]?, src[2]? with
  | some flags, some method =>
    if method ≠ DEFLATED ∨ flags &&& RESERVED ≠ 0 then some none
    else
      (gunzipExtra src flags).bind fun i => (gunzipString src flags ORIG_NAME i).bind fun i =>
        (gunzipString src flags COMMENT i).map (gunzipData src flags)
  | _, _ => none

def gunzip (dst : List UInt8) (dstlen : Int) (src : List UInt8) (init : Int) (calls : List InflateCall) :
    Option (Option (Int × Nat × List UInt8)) :=
  match gunzipHeader src with
  | none => none
  | some none => some (some (-1, src.length, dst))
  | some (some offset) => zunzip dst dstlen src 1 offset init calls

end UBoot
