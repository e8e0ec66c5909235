import Mathlib.Data.List.Basic

/-!
# Lines to recall

A list of lines, newest first, and a position in it: position `0` is the line being written, position `k` the `k`-th newest
line. `prev` goes back by one line and answers it, `next` comes forward by one; where there is nothing to go to, they answer
nothing and stay.
-/

namespace Lib

/-- A key of the recall: back to an older line, or forward to a newer one. -/
inductive RecallKey where
  | prev | next
  deriving DecidableEq, Repr

/-- Lines, newest first, and a position among them. -/
structure Recall (α : Type*) where
  lines : List α
  pos : Nat
  pos_le : pos ≤ lines.length

namespace Recall

variable {α : Type*}

/-- Ready to recall: at the line being written. -/
def start (lines : List α) : Recall α := ⟨lines, 0, Nat.zero_le _⟩

/-- Back to the next older line. -/
def prev (r : Recall α) : Option α × Recall α :=
  if h : r.pos < r.lines.length then (some r.lines[r.pos], ⟨r.lines, r.pos + 1, h⟩) else (none, r)

/-- Forward to the next newer line, and after the newest to the line being written, which is `blank`. -/
def next (blank : α) (r : Recall α) : Option α × Recall α :=
  match h : r.pos with
  | 0 => (none, r)
  | k + 1 =>
    (some (if h0 : k = 0 then blank else r.lines.get ⟨k - 1, by have := r.pos_le; omega⟩), ⟨r.lines, k, by have := r.pos_le; omega⟩)

def press (blank : α) (r : Recall α) : RecallKey → Option α × Recall α
  | .prev => r.prev
  | .next => r.next blank

/-- The answers to a sequence of keys, and where they leave the recall. -/
def run (blank : α) : List RecallKey → Recall α → List (Option α) × Recall α
  | [], r => ([], r)
  | key :: keys, r => ((r.press blank key).1 :: (run blank keys (r.press blank key).2).1, (run blank keys (r.press blank key).2).2)

theorem prev_of_lt {r : Recall α} (h : r.pos < r.lines.length) : r.prev = (some r.lines[r.pos], ⟨r.lines, r.pos + 1, h⟩) := dif_pos h

theorem prev_of_eq {r : Recall α} (h : r.pos = r.lines.length) : r.prev = (none, r) := dif_neg (by omega)

end Recall
end Lib
