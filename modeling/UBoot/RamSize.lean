import Mathlib.Algebra.Group.Nat.Defs
import Mathlib.Logic.Function.Basic

/-!
# The size of the RAM

`get_ram_size` of common/memsize.c. A `long` has `w` bits, and `maxsize / sizeof (long)` is unsigned. A bank of memory is mirrored through
the address space, and addresses are counted in words. A result of `none` is an access outside the array `save`.
-/

namespace UBoot

variable {w : Nat}

/-- A bank of memory: the number of its words, and the words. -/
structure RamBank (w : Nat) where
  size : Nat
  words : Nat → BitVec w

def RamBank.read (bank : RamBank w) (addr : Nat) : BitVec w := bank.words (addr % bank.size)

def RamBank.write (bank : RamBank w) (addr : Nat) (val : BitVec w) : RamBank w :=
  { bank with words := Function.update bank.words (addr % bank.size) val }

def sizeofLong (w : Nat) : Nat := w / 8

def ramPattern (w cnt : Nat) : BitVec w := ~~~BitVec.ofNat w cnt

/-- What the loops work with: the bank, the array `save` of 32 words, and `i`. -/
structure RamProbe (w : Nat) where
  bank : RamBank w
  save : Nat → BitVec w
  i : Nat

/-- `save[i] = *addr; *addr = val` -/
def RamProbe.put (st : RamProbe w) (addr : Nat) (val : BitVec w) : Option (RamProbe w) :=
  if st.i < 32 then some { st with save := Function.update st.save st.i (st.bank.read addr), bank := st.bank.write addr val } else none

/-- `*addr = save[--i]` -/
def RamProbe.back (st : RamProbe w) (addr : Nat) : Option (RamProbe w) :=
  match st.i with
  | 0 => none
  | i + 1 => some { st with i := i, bank := st.bank.write addr (st.save i) }

/-- The first loop, with `cnt` going down. -/
def ramSaveLoop (base : Nat) : Nat → Nat → RamProbe w → Option (RamProbe w)
  | 0, _, _ => none
  | fuel + 1, cnt, st =>
    if 0 < cnt then
      match st.put (base + cnt) (ramPattern w cnt) with
      | none => none
      | some st => ramSaveLoop base fuel (cnt / 2) { st with i := st.i + 1 }
    else some st

/-- The loops that restore what is left, with `cnt` going up to `count`. -/
def ramRestoreLoop (base count : Nat) : Nat → Nat → RamProbe w → Option (RamProbe w)
  | 0, _, _ => none
  | fuel + 1, cnt, st =>
    if cnt < count then
      match st.back (base + cnt) with
      | none => none
      | some st => ramRestoreLoop base count fuel (cnt * 2) st
    else some st

/-- The last loop: the `cnt` where the ramPattern was not read, if there is one. -/
def ramProbeLoop (base count : Nat) : Nat → Nat → RamProbe w → Option (Option Nat × RamProbe w)
  | 0, _, _ => none
  | fuel + 1, cnt, st =>
    if cnt < count then
      let val := st.bank.read (base + cnt)
      match st.back (base + cnt) with
      | none => none
      | some st =>
        if val ≠ ramPattern w cnt then (ramRestoreLoop base count fuel (cnt * 2) st).map fun st => (some cnt, st)
        else ramProbeLoop base count fuel (cnt * 2) st
    else some (none, st)

def getRamSize (base maxsize : Nat) (bank : RamBank w) : Option (Nat × RamBank w) :=
  let count := maxsize / sizeofLong w
  match ramSaveLoop base (count + 1) (count / 2) ⟨bank, fun _ => 0, 0⟩ with
  | none => none
  | some st =>
    match st.put base 0 with
    | none => none
    | some st =>
      if st.bank.read base ≠ 0 then
        (ramRestoreLoop base count (count + 1) 1 { st with bank := st.bank.write base (st.save st.i) }).map fun st => (0, st.bank)
      else
        (ramProbeLoop base count (count + 1) 1 st).map fun (found, st) =>
          match found with
          | some cnt => (cnt * sizeofLong w, st.bank)
          | none => (maxsize, st.bank)

end UBoot
