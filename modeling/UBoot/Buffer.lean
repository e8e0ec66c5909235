import Mathlib.Data.List.Basic

/-!
# A buffer of bytes

A buffer is the list of its bytes, and a result of `none` is an access outside it.
-/

namespace UBoot

open List

/-- A byte is stored in the buffer. -/
def putByte (data : List UInt8) (i : Nat) (b : UInt8) : Option (List UInt8) :=
  if i < data.length then some (data.set i b) else none

/-- Bytes are stored one after the other. -/
def putBytes (data : List UInt8) (i : Nat) : List UInt8 → Option (List UInt8)
  | [] => some data
  | b :: bs => (putByte data i b).bind fun data => putBytes data (i + 1) bs

/-- The first bytes of what is left of a buffer. -/
def takeBytes (n : Nat) (src : List UInt8) : Option (List UInt8) :=
  if n ≤ src.length then some (src.take n) else none

/-- `memmove` within the buffer. -/
def memmove (buf : List UInt8) (dst src n : Nat) : Option (List UInt8) :=
  if src + n ≤ buf.length then putBytes buf dst ((buf.drop src).take n) else none

theorem takeBytes_isSome_iff {n : Nat} {src : List UInt8} : (takeBytes n src).isSome ↔ n ≤ src.length := by
  unfold takeBytes
  split
  next h => exact iff_of_true rfl h
  next h => exact iff_of_false Bool.false_ne_true h

theorem lt_of_putByte {data data' : List UInt8} {i : Nat} {b : UInt8} (h : putByte data i b = some data') : i < data.length := by
  unfold putByte at h
  split at h
  next hlt => exact hlt
  next => cases h

theorem putByte_append (as bs : List UInt8) (x b : UInt8) : putByte (as ++ x :: bs) as.length b = some (as ++ b :: bs) := by
  simp [putByte]

theorem putBytes_append (pre old rest bs : List UInt8) (h : old.length = bs.length) :
    putBytes (pre ++ old ++ rest) pre.length bs = some (pre ++ bs ++ rest) := by
  induction bs generalizing pre old with
  | nil =>
    obtain rfl : old = [] := eq_nil_of_length_eq_zero h
    simp [putBytes]
  | cons b bs ih =>
    obtain ⟨x, old, rfl⟩ := exists_cons_of_length_pos (Nat.lt_of_lt_of_le (Nat.succ_pos _) (Nat.le_of_eq h.symm))
    have hput := putByte_append pre (old ++ rest) x b
    have ih' := ih (pre ++ [b]) old (Nat.succ.inj h)
    simp only [append_assoc, cons_append, nil_append, length_append, length_singleton] at ih' hput ⊢
    rw [putBytes, hput, Option.bind_some, ih']

theorem putBytes_some (data bs : List UInt8) (i : Nat) (h : i + bs.length ≤ data.length) :
    ∃ data', putBytes data i bs = some data' ∧ data'.length = data.length := by
  induction bs generalizing data i with
  | nil => exact ⟨data, rfl, rfl⟩
  | cons b bs ih =>
    rw [length_cons] at h
    have hput : putByte data i b = some (data.set i b) := if_pos (by omega)
    obtain ⟨data', h', hlen⟩ := ih (data.set i b) (i + 1) (by rw [length_set]; omega)
    exact ⟨data', by rw [putBytes, hput, Option.bind_some, h'], by rw [hlen, length_set]⟩

/-- Moving bytes away from the start of the buffer by one. -/
theorem memmove_up (pre bs rest : List UInt8) (x : UInt8) :
    ∃ y, memmove (pre ++ bs ++ x :: rest) (pre.length + 1) pre.length bs.length = some (pre ++ y :: (bs ++ rest)) := by
  have hread : ((pre ++ bs ++ x :: rest).drop pre.length).take bs.length = bs := by
    rw [append_assoc, drop_left, take_left]
  obtain ⟨y, old, hold⟩ : ∃ y old, bs ++ [x] = y :: old := exists_cons_of_ne_nil (by simp)
  have hlen : old.length = bs.length := by
    have := congrArg List.length hold
    simpa using this.symm
  have hput := putBytes_append (pre ++ [y]) old rest bs hlen
  have hbuf : pre ++ bs ++ x :: rest = pre ++ [y] ++ old ++ rest := by
    rw [show x :: rest = [x] ++ rest from rfl, ← append_assoc, append_assoc pre bs [x], hold]
    simp
  refine ⟨y, ?_⟩
  rw [memmove, if_pos (by simp), hread, hbuf]
  simpa using hput

/-- Moving bytes towards the start of the buffer by one. -/
theorem memmove_down (pre bs rest : List UInt8) (x : UInt8) :
    ∃ y, memmove (pre ++ x :: (bs ++ rest)) pre.length (pre.length + 1) bs.length = some (pre ++ bs ++ y :: rest) := by
  have hread : ((pre ++ x :: (bs ++ rest)).drop (pre.length + 1)).take bs.length = bs := by
    rw [show pre ++ x :: (bs ++ rest) = (pre ++ [x]) ++ (bs ++ rest) by simp, show pre.length + 1 = (pre ++ [x]).length by simp,
      drop_left, take_left]
  obtain ⟨old, y, hold⟩ : ∃ old y, x :: bs = old ++ [y] :=
    ⟨(x :: bs).dropLast, (x :: bs).getLast (by simp), (dropLast_concat_getLast _).symm⟩
  have hlen : old.length = bs.length := by
    have := congrArg List.length hold
    simpa using this.symm
  have hput := putBytes_append pre old (y :: rest) bs hlen
  have hbuf : pre ++ x :: (bs ++ rest) = pre ++ old ++ y :: rest := by
    rw [← cons_append, hold]
    simp
  refine ⟨y, ?_⟩
  rw [memmove, if_pos (by simp; omega), hread, hbuf]
  exact hput

end UBoot
