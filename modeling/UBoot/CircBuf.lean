import Mathlib

/-!
# The circular buffer

`lib/circbuf.c`. A pointer into `data` is its offset; an access outside the block faults (`none`). `malloc` is a parameter with what its
source says of it: a block has the bytes that were asked for, and a request with the sign bit of a `long` fails.
-/

namespace UBoot

/-- `malloc` of `common/dlmalloc.c`, on the bytes that the new block holds. -/
structure Malloc where
  alloc : Nat → Option (List UInt8)
  length_eq : ∀ bytes block, alloc bytes = some block → block.length = bytes
  negative : ∀ bytes, 2 ^ 31 ≤ bytes → alloc bytes = none

/-- `circbuf_t`. `bufEnd` is the field `end`. -/
structure CircBuf where
  size : Nat
  totalsize : Nat
  data : List UInt8
  top : Nat
  tail : Nat
  bufEnd : Nat
deriving Repr, DecidableEq

/-- An `unsigned int` returned as an `int`. -/
def unsignedInt (n : Nat) : Int := if n < 2 ^ 31 then n else (n : Int) - 2 ^ 32

/-- `buf_init`. Without a block the assertion fails. -/
def bufInit (malloc : Malloc) (size : Nat) : Option CircBuf :=
  (malloc.alloc size).map fun data => ⟨0, size, data, 0, 0, size⟩

/-- A pointer that has come to `end` goes back to `data`. -/
def CircBuf.wrap (buf : CircBuf) (p : Nat) : Nat := if p = buf.bufEnd then 0 else p

/-- The loop of `buf_pop`: the bytes stored at `dest`, and the pointer. -/
def CircBuf.popLoop (buf : CircBuf) : Nat → Nat → Option (List UInt8 × Nat)
  | 0, p => some ([], p)
  | len + 1, p => do
    let c ← buf.data[p]?
    let (dest, p) ← buf.popLoop len (buf.wrap (p + 1))
    some (c :: dest, p)

/-- `buf_pop`: what it returns, the bytes stored at `dest`, and the buffer. -/
def bufPop (buf : CircBuf) (len : Nat) : Option (Int × List UInt8 × CircBuf) := do
  let len := if len > buf.size then buf.size else len
  let (dest, p) ← buf.popLoop len buf.top
  some (unsignedInt len, dest, { buf with top := p, size := buf.size - len })

/-- A round of the loop of `buf_push`. -/
def CircBuf.pushByte (buf : CircBuf) (p : Nat) (c : UInt8) : Option (CircBuf × Nat) :=
  if p < buf.data.length then
    let buf := { buf with data := buf.data.set p c }
    if buf.size < buf.totalsize then some ({ buf with size := buf.size + 1 }, buf.wrap (p + 1))
    else some ({ buf with top := buf.wrap (buf.top + 1) }, buf.wrap (p + 1))
  else none

def CircBuf.pushLoop (buf : CircBuf) (p : Nat) : List UInt8 → Option (CircBuf × Nat)
  | [] => some (buf, p)
  | c :: src => do
    let (buf, p) ← buf.pushByte p c
    buf.pushLoop p src

/-- `buf_push` of the bytes at `src`. -/
def bufPush (buf : CircBuf) (src : List UInt8) : Option (Int × CircBuf) := do
  let (buf, p) ← buf.pushLoop buf.tail src
  some (unsignedInt src.length, { buf with tail := p })

inductive BufCall where
  | push (src : List UInt8)
  | pop (len : Nat)

/-- The calls one after the other: what each `buf_pop` returns and stores, and the buffer at the end. -/
def bufRun (buf : CircBuf) : List BufCall → Option (List (Int × List UInt8) × CircBuf)
  | [] => some ([], buf)
  | .push src :: calls => do
    let (_, buf) ← bufPush buf src
    bufRun buf calls
  | .pop len :: calls => do
    let (ret, dest, buf) ← bufPop buf len
    let (rets, buf) ← bufRun buf calls
    some ((ret, dest) :: rets, buf)

end UBoot
