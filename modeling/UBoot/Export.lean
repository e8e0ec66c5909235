import UBoot.Hashtable

/-!
# Linearising the environment

`hexport_r` of lib/hashtable.c and the `qsort` of lib/qsort.c it uses. The first pass collects the entries and adds up
the length the output needs, the second writes them, sorted by key, as `name=value` with an escaping backslash before
every separator and every backslash of a value. The first pass counts these escapes only when the separator is not NUL.
-/

namespace UBoot

/-! ## qsort -/

/-- The gap the shell sort starts with: `do { wgap = 3 * wgap + 1; } while (wgap < (nel-1)/3);`. -/
def qsortGap (nel : Nat) : Nat → Nat → Nat
  | 0, wgap => wgap
  | fuel + 1, wgap => if 3 * wgap + 1 < (nel - 1) / 3 then qsortGap nel fuel (3 * wgap + 1) else 3 * wgap + 1

section Qsort

variable {α : Type}

/-- The innermost loop of `qsort`: move the element at `j` down by `gap` as long as it is smaller. -/
def qsortSift (comp : α → α → Int) (gap : Nat) : Nat → Nat → List α → List α
  | 0, _, l => l
  | fuel + 1, j, l =>
    match l[j - gap]?, l[j]? with
    | some a, some b =>
      if comp a b ≤ 0 then l
      else if gap ≤ j - gap then qsortSift comp gap fuel (j - gap) ((l.set (j - gap) b).set j a)
      else (l.set (j - gap) b).set j a
    | _, _ => l

/-- The middle loop of `qsort`, over the elements from `i` on. -/
def qsortPass (comp : α → α → Int) (gap : Nat) : Nat → Nat → List α → List α
  | 0, _, l => l
  | fuel + 1, i, l =>
    let l' := qsortSift comp gap l.length i l
    if i + 1 < l.length then qsortPass comp gap fuel (i + 1) l' else l'

/-- The outer loop of `qsort`, over the gaps. -/
def qsortGaps (comp : α → α → Int) : Nat → Nat → List α → List α
  | 0, _, l => l
  | fuel + 1, gap, l =>
    let l' := qsortPass comp gap l.length gap l
    if (gap - 1) / 3 ≠ 0 then qsortGaps comp fuel ((gap - 1) / 3) l' else l'

/-- `qsort`: a shell sort. Swapping `width` bytes swaps two elements. -/
def qsort (comp : α → α → Int) (l : List α) : List α :=
  if 1 < l.length then qsortGaps comp l.length (qsortGap l.length l.length 0) l else l

end Qsort

/-! ## hexport -/

/-- `cmpkey`: entries are sorted by key. -/
def cmpkey (e f : CString × CString) : Int := strcmp e.1 f.1

/-- Pass 1 of `hexport_r` over the slots: the used entries that are selected (with no selection, all of them). -/
def Htab.usedEntries (h : Htab) (argv : List CString) : List Nat → Option (List (CString × CString))
  | [] => some []
  | i :: is =>
    if 0 < (h.table i).used then
      match (h.table i).key with
      | none => none
      | some k =>
        if argv ≠ [] ∧ k ∉ argv then h.usedEntries argv is
        else
          match (h.table i).data with
          | none => none
          | some d => (h.usedEntries argv is).map ((k, d) :: ·)
    else h.usedEntries argv is

/-- The room pass 1 reserves for a value: with a separator other than NUL, two bytes for each that needs an escape. -/
def valueRoom (sep : UInt8) (d : CString) : Nat :=
  if sep = 0 then d.bytes.length
  else d.bytes.length + (d.bytes.filter fun c => c = sep ∨ c = chBackslash).length

/-- `totlen` after pass 1. -/
def totlen (sep : UInt8) (list : List (CString × CString)) : Nat :=
  (list.map fun e => e.1.bytes.length + 2 + valueRoom sep e.2 + 2).sum

/-- Pass 2 writes a byte of a value, with an escape before a separator or a backslash. -/
def escapeByte (sep c : UInt8) : List UInt8 := if c = sep ∨ c = chBackslash then [chBackslash, c] else [c]

/-- Pass 2 writes an entry. -/
def exportEntry (sep : UInt8) (e : CString × CString) : List UInt8 :=
  e.1.bytes ++ chEquals :: (e.2.bytes.flatMap (escapeByte sep) ++ [sep])

/-- `hexport_r`, which returns the length of the buffer: here the buffer itself, or the `errno` of a return of `-1`. The
result is `none` when pass 2 writes outside the buffer. `respGiven` says whether the caller supplies the buffer. -/
def hexportR (callocOk respGiven : Bool) (h : Htab) (sep : UInt8) (size : Nat) (argv : List CString) : Option (Except Errno (List UInt8)) :=
  match h.usedEntries argv (List.range' 1 h.size) with
  | none => none
  | some list =>
    if size ≠ 0 ∧ size < totlen sep list + 1 then some (.error .ENOMEM)
    else
      let size := if size ≠ 0 then size else totlen sep list + 1
      if !respGiven && !callocOk then some (.error .ENOMEM)
      else
        let out := (qsort cmpkey list).flatMap (exportEntry sep) ++ [0]
        if out.length ≤ size then some (.ok (out ++ List.replicate (size - out.length) 0)) else none

end UBoot
