import UBoot.Word
import Mathlib.Logic.Function.Basic

/-!
# Logical memory blocks

lib/lmb.c: the table of reserved regions with `lmb_reserve`, `lmb_free` and `lmb_is_reserved`, and the search of `__lmb_alloc_base`
through the table of memory regions. `phys_addr_t`, `phys_size_t` and `unsigned long` have 32 bits, so sums and differences are
taken modulo `2 ^ 32`. The table is an array of `MAX_LMB_REGIONS + 1` entries, of which the first `cnt` are in use and the rest hold
what was left there; a result of `none` is an access outside the array.
-/

namespace UBoot

def MAX_LMB_REGIONS : Nat := 8

structure LmbProperty where
  base : Nat
  size : Nat
  deriving DecidableEq

/-- `struct lmb_region`, without its `size`, which nothing reads. -/
structure LmbRegion where
  cnt : Nat
  region : Nat → LmbProperty

/-- Write an entry. -/
def LmbRegion.set (rgn : LmbRegion) (i : Nat) (p : LmbProperty) : LmbRegion :=
  { rgn with region := Function.update rgn.region i p }

def lmbAddrsAdjacent (base1 size1 base2 size2 : Nat) : Int :=
  if base2 = add32 base1 size1 then 1 else if base1 = add32 base2 size2 then -1 else 0

def LmbRegion.regionsAdjacent (rgn : LmbRegion) (r1 r2 : Nat) : Int :=
  lmbAddrsAdjacent (rgn.region r1).base (rgn.region r1).size (rgn.region r2).base (rgn.region r2).size

/-- The loop of `lmb_remove_region`: move the entries after `i` down, as long as `i` is below `bound`. -/
def removeLoop (bound : Nat) : Nat → Nat → (Nat → LmbProperty) → Option (Nat → LmbProperty)
  | 0, _, _ => none
  | fuel + 1, i, region =>
    if i < bound then
      if i + 1 ≤ MAX_LMB_REGIONS then removeLoop bound fuel (i + 1) (Function.update region i (region (i + 1))) else none
    else some region

/-- `lmb_remove_region`. The bound `cnt - 1` is unsigned, so with no entry in use the loop leaves the array. -/
def LmbRegion.removeRegion (rgn : LmbRegion) (r : Nat) : Option LmbRegion :=
  (removeLoop (sub32 rgn.cnt 1) (MAX_LMB_REGIONS + 1) r rgn.region).map fun region => ⟨sub32 rgn.cnt 1, region⟩

def LmbRegion.coalesceRegions (rgn : LmbRegion) (r1 r2 : Nat) : Option LmbRegion :=
  (rgn.set r1 ⟨(rgn.region r1).base, add32 (rgn.region r1).size (rgn.region r2).size⟩).removeRegion r2

/-- `lmb_init`, over what the array held before. -/
def lmbInit (before : Nat → LmbProperty) : LmbRegion := ⟨1, Function.update before 0 ⟨0, 0⟩⟩

/-! ## lmb_add_region -/

/-- Where the first loop of `lmb_add_region` ends. -/
inductive LmbScan where
  | same
  | before (i : Nat)
  | after (i : Nat)
  | nothing
  deriving DecidableEq, Repr

/-- The first loop of `lmb_add_region`, with `left` entries to go: an entry that is the range, or one it can be coalesced
with, the range coming before or after it. -/
def LmbRegion.scan (rgn : LmbRegion) (base size : Nat) : Nat → Nat → LmbScan
  | 0, _ => .nothing
  | left + 1, i =>
    if (rgn.region i).base = base ∧ (rgn.region i).size = size then .same
    else if 0 < lmbAddrsAdjacent base size (rgn.region i).base (rgn.region i).size then .before i
    else if lmbAddrsAdjacent base size (rgn.region i).base (rgn.region i).size < 0 then .after i
    else rgn.scan base size left (i + 1)

/-- After the first loop ended at `i` with `coalesced` already counted: try to coalesce the regions `i` and `i + 1`. The
bound `cnt - 1` is unsigned. -/
def LmbRegion.coalesceNext (rgn : LmbRegion) (i coalesced : Nat) : Option (Nat × LmbRegion) :=
  if i < sub32 rgn.cnt 1 ∧ rgn.regionsAdjacent i (i + 1) ≠ 0 then
    (rgn.coalesceRegions i (i + 1)).map fun rgn => (coalesced + 1, rgn)
  else some (coalesced, rgn)

/-- The loop that adds the range to the sorted table, from entry `n - 1` down. -/
def insertLoop (new : LmbProperty) : Nat → (Nat → LmbProperty) → (Nat → LmbProperty)
  | 0, region => region
  | n + 1, region =>
    if new.base < (region n).base then insertLoop new n (Function.update region (n + 1) (region n))
    else Function.update region (n + 1) new

/-- The rest of `lmb_add_region`, after the attempts to coalesce. -/
def LmbRegion.addSorted (rgn : LmbRegion) (base size : Nat) : Int × LmbRegion :=
  if MAX_LMB_REGIONS ≤ rgn.cnt then (-1, rgn)
  else
    let region := insertLoop ⟨base, size⟩ rgn.cnt rgn.region
    (0, ⟨rgn.cnt + 1, if base < (region 0).base then Function.update region 0 ⟨base, size⟩ else region⟩)

/-- `lmb_add_region` after its first loop ended at `i`. -/
def LmbRegion.finish (rgn : LmbRegion) (base size i coalesced : Nat) : Option (Int × LmbRegion) :=
  (rgn.coalesceNext i coalesced).map fun r => if r.1 ≠ 0 then ((r.1 : Int), r.2) else r.2.addSorted base size

/-- `lmb_add_region`: what is returned, and the table. -/
def LmbRegion.addRegion (rgn : LmbRegion) (base size : Nat) : Option (Int × LmbRegion) :=
  if rgn.cnt = 1 ∧ (rgn.region 0).size = 0 then
    some (0, rgn.set 0 ⟨base, size⟩)
  else
    match rgn.scan base size rgn.cnt 0 with
    | .same => some (0, rgn)
    | .before i =>
      (rgn.set i ⟨sub32 (rgn.region i).base size, add32 (rgn.region i).size size⟩).finish base size i 1
    | .after i =>
      (rgn.set i ⟨(rgn.region i).base, add32 (rgn.region i).size size⟩).finish base size i 1
    | .nothing => rgn.finish base size rgn.cnt 0

/-- `lmb_add`, on the table of memory regions. -/
def lmbAdd (rgn : LmbRegion) (base size : Nat) : Option (Int × LmbRegion) := rgn.addRegion base size

/-- `lmb_reserve`, on the table of reserved regions. -/
def lmbReserve (rgn : LmbRegion) (base size : Nat) : Option (Int × LmbRegion) := rgn.addRegion base size

/-! ## lmb_free and lmb_is_reserved -/

/-- The end of an entry, in 32 bits. -/
def LmbProperty.end32 (p : LmbProperty) : Nat := add32 p.base p.size

/-- The first loop of `lmb_free`, with `left` entries to go: the entry the range belongs to. -/
def LmbRegion.findRegion (rgn : LmbRegion) (base end' : Nat) : Nat → Nat → Option Nat
  | 0, _ => none
  | left + 1, i =>
    if (rgn.region i).base ≤ base ∧ end' ≤ (rgn.region i).end32 then some i else rgn.findRegion base end' left (i + 1)

/-- `lmb_free` on the table of reserved regions: what is returned, and the table. -/
def lmbFree (rgn : LmbRegion) (base size : Nat) : Option (Int × LmbRegion) :=
  let end' := add32 base size
  match rgn.findRegion base end' rgn.cnt 0 with
  | none => some (-1, rgn)
  | some i =>
    let rgnbegin := (rgn.region i).base
    let rgnend := (rgn.region i).end32
    if rgnbegin = base ∧ rgnend = end' then (rgn.removeRegion i).map fun rgn => (0, rgn)
    else if rgnbegin = base then
      some (0, rgn.set i ⟨end', sub32 (rgn.region i).size size⟩)
    else if rgnend = end' then
      some (0, rgn.set i ⟨rgnbegin, sub32 (rgn.region i).size size⟩)
    else
      (rgn.set i ⟨rgnbegin, sub32 base rgnbegin⟩).addRegion end' (sub32 rgnend end')

/-- The test of `lmb_is_reserved` for one entry. -/
def LmbProperty.has (p : LmbProperty) (addr : Nat) : Bool := p.base ≤ addr && addr ≤ sub32 (add32 p.base p.size) 1

def lmbIsReserved (rgn : LmbRegion) (addr : Nat) : Bool := (List.range rgn.cnt).any fun i => (rgn.region i).has addr

/-! ## lmb_alloc_base -/

/-- `struct lmb` -/
structure Lmb where
  memory : LmbRegion
  reserved : LmbRegion

def lmbAddrsOverlap (base1 size1 base2 size2 : Nat) : Bool := base1 < add32 base2 size2 && base2 < add32 base1 size1

/-- `lmb_overlaps_region`: the first entry that overlaps with the range, or none for a result of `-1`. -/
def LmbRegion.overlapsRegion (rgn : LmbRegion) (base size : Nat) : Option Nat :=
  (List.range rgn.cnt).find? fun i => lmbAddrsOverlap base size (rgn.region i).base (rgn.region i).size

/-- `lmb_align_down`: the mask `~(size - 1)` has 32 bits. -/
def lmbAlignDown (addr size : Nat) : Nat := addr &&& (2 ^ 32 - 1 - sub32 size 1)

def lmbAlignUp (addr size : Nat) : Nat := add32 addr (sub32 size 1) &&& (2 ^ 32 - 1 - sub32 size 1)

/-- Where the search of `__lmb_alloc_base` begins in a region of memory, if it does not pass it over. -/
def lmbSearchBase (lmbbase lmbsize size align maxAddr : Nat) : Option Nat :=
  if lmbsize < size then none
  else if maxAddr = 0 then some (lmbAlignDown (sub32 (add32 lmbbase lmbsize) size) align)
  else if lmbbase < maxAddr then some (lmbAlignDown (sub32 (min (add32 lmbbase lmbsize) maxAddr) size) align)
  else none

/-- The inner loop of `__lmb_alloc_base` in a region of memory that begins at `lmbbase`: the place it finds, if any; `none` when it has
not ended after `fuel` rounds. -/
def LmbRegion.searchLoop (reserved : LmbRegion) (lmbbase size align : Nat) : Nat → Nat → Option (Option Nat)
  | 0, _ => none
  | fuel + 1, base =>
    if base ≠ 0 ∧ lmbbase ≤ base then
      match reserved.overlapsRegion base size with
      | none => some (some base)
      | some j =>
        let resBase := (reserved.region j).base
        if resBase < size then some none
        else reserved.searchLoop lmbbase size align fuel (lmbAlignDown (sub32 resBase size) align)
    else some none

/-- The outer loop of `__lmb_alloc_base`, over the regions of memory below `n` from the last one down: what is returned, and the table
of reserved regions. -/
def Lmb.allocLoop (lmb : Lmb) (size align maxAddr fuel : Nat) : Nat → Option (Nat × LmbRegion)
  | 0 => some (0, lmb.reserved)
  | n + 1 =>
    let rgn := lmb.memory.region n
    match lmbSearchBase rgn.base rgn.size size align maxAddr with
    | none => lmb.allocLoop size align maxAddr fuel n
    | some start =>
      match lmb.reserved.searchLoop rgn.base size align fuel start with
      | none => none
      | some none => lmb.allocLoop size align maxAddr fuel n
      | some (some base) =>
        (lmb.reserved.addRegion base (lmbAlignUp size align)).map fun r => if r.1 < 0 then (0, r.2) else (base, r.2)

def lmbAllocBase (lmb : Lmb) (size align maxAddr fuel : Nat) : Option (Nat × LmbRegion) :=
  lmb.allocLoop size align maxAddr fuel lmb.memory.cnt

end UBoot
