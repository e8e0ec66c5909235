import UBoot.CString
import UBoot.Lib.CyclicProbe

/-!
# The environment hash table

lib/hashtable.c: `hcreate_r`, `hsearch_r` and `hdelete_r`. The table is an array of `size + 1` slots, of which slot `0` is
never used. A slot's `used` is `0` when it was never used, `-1` when its entry was deleted, and otherwise the hash of its
key. A pointer the code may find `NULL` is an option, and a result of `none` is an access the C standard leaves undefined
(a comparison with, or a copy of, a `NULL` string).
-/

namespace UBoot

open Lib

/-- The values of `errno` the hash table sets. -/
inductive Errno where
  | EINVAL | ENOMEM | ESRCH
  deriving DecidableEq, Repr

/-- `ACTION` of include/search.h. -/
inductive Action where
  | find | enter
  deriving DecidableEq, Repr

/-- `ENTRY`: what a caller asks for. -/
structure Entry where
  key : CString
  data : Option CString

/-- `_ENTRY`: a slot of the table. The hash is below the size of a table `calloc` can serve, so it fits the `int`. -/
structure Slot where
  used : Int
  key : Option CString
  data : Option CString

/-- `struct hsearch_data` with a table allocated; one without is `none : Option Htab`. -/
structure Htab where
  table : Nat → Slot
  size : Nat
  filled : Nat

/-- Which of the two `strdup` calls of an insertion return memory. -/
structure Strdup where
  key : Bool
  data : Bool

/-- Every `strdup` returns memory. -/
def Strdup.ok : Strdup := ⟨true, true⟩

/-! ## hcreate -/

/-- The loop of `isprime`: `div` grows by two until its square (in 32 bits) reaches the number or it divides it. -/
def isprimeLoop (number : Nat) : Nat → Nat → Nat
  | 0, div => div
  | fuel + 1, div =>
    if div * div % 2 ^ 32 < number ∧ number % div ≠ 0 then isprimeLoop number fuel (div + 2) else div

/-- `isprime`: no even number will be passed. -/
def isprime (number : Nat) : Bool := number % isprimeLoop number number 3 != 0

/-- The loop of `hcreate_r` that looks for the first prime not smaller than `nel`. -/
def firstPrime : Nat → Nat → Nat
  | 0, nel => nel
  | fuel + 1, nel => if isprime nel then nel else firstPrime fuel (nel + 2)

/-- A slot as `calloc` leaves it. -/
def Slot.zero : Slot := ⟨0, none, none⟩

/-- `hcreate_r`: `none` when a table is still active or `calloc` fails. -/
def hcreateR (callocOk : Bool) (nel : Nat) : Option Htab → Option Htab
  | some _ => none
  | none =>
    if callocOk then
      some { table := fun _ => Slot.zero, size := firstPrime (nel ||| 1) (nel ||| 1), filled := 0 }
    else none

/-! ## hsearch -/

/-- The value `hsearch_r` computes for a string, in 32 bits: its length, then its bytes from the last to the first. -/
def strHash (key : CString) : Nat :=
  key.bytes.foldr (fun c h => (h * 2 ^ 4 + c.toNat) % 2 ^ 32) key.bytes.length

/-- First hash function: simply take the modulus but prevent zero. -/
def Htab.hval (h : Htab) (key : CString) : Nat :=
  if strHash key % h.size = 0 then 1 else strHash key % h.size

/-- Second hash function. -/
def Htab.hval2 (h : Htab) (hval : Nat) : Nat := 1 + hval % (h.size - 2)

/-- The test for the entry of `key` in a slot: the stored hash first, then `strcmp`. -/
def Slot.isEntryOf (s : Slot) (hval : Nat) (key : CString) : Option Bool :=
  if s.used = hval then s.key.map (fun k => decide (key = k)) else some false

/-- Where the probing ends: at the entry, or at a slot that is not the entry's. -/
inductive ProbeEnd where
  | found (idx : Nat)
  | stopped (idx : Nat)
  deriving DecidableEq, Repr

/-- The `do ... while` of `hsearch_r`: step back, stop at the start, at the entry, or at a slot never used. -/
def Htab.probe (h : Htab) (key : CString) (hval : Nat) : Nat → Nat → Option ProbeEnd
  | 0, _ => none
  | fuel + 1, prev =>
    let idx := back h.size (h.hval2 hval) prev
    if idx = hval then some (.stopped idx)
    else
      match (h.table idx).isEntryOf hval key with
      | none => none
      | some true => some (.found idx)
      | some false => if (h.table idx).used ≠ 0 then h.probe key hval fuel idx else some (.stopped idx)

/-- Where the search for a key ends, with `first_deleted` when it ends without the entry. -/
inductive Located where
  | found (idx : Nat)
  | absent (idx firstDeleted : Nat)
  deriving DecidableEq, Repr

/-- The search of `hsearch_r`. Only the first slot tried may become `first_deleted`. -/
def Htab.locate (h : Htab) (key : CString) : Option Located :=
  let hval := h.hval key
  if (h.table hval).used ≠ 0 then
    match (h.table hval).isEntryOf hval key with
    | none => none
    | some true => some (.found hval)
    | some false =>
      match h.probe key hval h.size hval with
      | none => none
      | some (.found idx) => some (.found idx)
      | some (.stopped idx) => some (.absent idx (if (h.table hval).used = -1 then hval else 0))
  else some (.absent hval 0)

/-- What `hsearch_r` returns: the number, the slot `*retval` points to, `errno` when it is set, and the table. -/
structure HsearchRet where
  ret : Nat
  retval : Option Nat
  errno : Option Errno
  htab : Htab

/-- Replace a slot. -/
def Htab.setSlot (h : Htab) (idx : Nat) (s : Slot) : Htab := { h with table := Function.update h.table idx s }

/-- `hsearch_r` at the entry: an `ENTER` with data overwrites the value. -/
def Htab.atEntry (h : Htab) (mem : Strdup) (item : Entry) (action : Action) (idx : Nat) : HsearchRet :=
  if action = .enter ∧ item.data.isSome then
    if mem.data then
      { ret := idx, retval := some idx, errno := none, htab := h.setSlot idx { h.table idx with data := item.data } }
    else
      { ret := 0, retval := none, errno := some .ENOMEM, htab := h.setSlot idx { h.table idx with data := none } }
  else { ret := idx, retval := some idx, errno := none, htab := h }

/-- `hsearch_r` without the entry: an `ENTER` creates it, in the deleted first slot or where the probing ended. -/
def Htab.atEmpty (h : Htab) (mem : Strdup) (item : Entry) (action : Action) (idx firstDeleted : Nat) : Option HsearchRet :=
  match action with
  | .find => some { ret := 0, retval := none, errno := some .ESRCH, htab := h }
  | .enter =>
    if h.filled = h.size then some { ret := 0, retval := none, errno := some .ENOMEM, htab := h }
    else
      match item.data with
      | none => none
      | some data =>
        let idx := if firstDeleted ≠ 0 then firstDeleted else idx
        let h' := h.setSlot idx
          { used := h.hval item.key, key := if mem.key then some item.key else none,
            data := if mem.data then some data else none }
        if !mem.key || !mem.data then some { ret := 0, retval := none, errno := some .ENOMEM, htab := h' }
        else some { ret := 1, retval := some idx, errno := none, htab := { h' with filled := h.filled + 1 } }

def hsearchR (mem : Strdup) (item : Entry) (action : Action) (h : Htab) : Option HsearchRet :=
  match h.locate item.key with
  | none => none
  | some (.found idx) => some (h.atEntry mem item action idx)
  | some (.absent idx firstDeleted) => h.atEmpty mem item action idx firstDeleted

/-- `hdelete_r`. The value the `apply` callback returns is not looked at, so the callback is left out. -/
def hdeleteR (key : CString) (h : Htab) : Option (Nat × Htab) :=
  match hsearchR .ok ⟨key, none⟩ .find h with
  | none => none
  | some r =>
    if r.ret = 0 then some (0, h)
    else some (1, { h.setSlot r.ret ⟨-1, none, none⟩ with filled := h.filled - 1 })

/-- The value of the entry `hsearch_r` returns for `FIND`, if it returns one. -/
def hfind (h : Htab) (key : CString) : Option CString :=
  (hsearchR .ok ⟨key, none⟩ .find h).bind fun r => r.retval.bind fun idx => (r.htab.table idx).data

end UBoot
