import Mathlib.Data.List.Basic
import Mathlib.Logic.Function.Basic

/-!
# A redo log with revocations

A transaction writes values to keys, and may revoke keys: what earlier transactions wrote to these is not to be replayed. `logResult`
says what a log means for each key. `replayed` is what a replay writes that goes through the log once and has a test for what to skip;
`lastWrite_replayed` says which test is the right one.
-/

namespace Lib

open List

variable {K V : Type*}

/-- The keys a transaction revokes, and what it writes, in this order. -/
structure LogTxn (K V : Type*) where
  revokes : List K
  writes : List (K × V)

/-- The writes of a log from its transaction `n` on, less what `skip` says of a transaction's number and a key. -/
def replayed (skip : Nat → K → Bool) : Nat → List (LogTxn K V) → List (K × V)
  | _, [] => []
  | n, t :: ts => t.writes.filter (fun w => !skip n w.1) ++ replayed skip (n + 1) ts

/-- A replay writes nothing of its own. -/
theorem mem_replayed {skip : Nat → K → Bool} {ts : List (LogTxn K V)} {n : Nat} {w : K × V} (h : w ∈ replayed skip n ts) :
    ∃ t ∈ ts, w ∈ t.writes := by
  induction ts generalizing n with
  | nil => cases h
  | cons t ts ih =>
    rcases mem_append.1 h with h | h
    · exact ⟨t, mem_cons_self, (mem_filter.1 h).1⟩
    · obtain ⟨u, hu, hw⟩ := ih h
      exact ⟨u, mem_cons_of_mem _ hu, hw⟩

/-- Tests that agree on the writes of a log replay the same. -/
theorem replayed_congr {skip skip' : Nat → K → Bool} {ts : List (LogTxn K V)} {n : Nat}
    (h : ∀ i t, ts[i]? = some t → ∀ w ∈ t.writes, skip (n + i) w.1 = skip' (n + i) w.1) : replayed skip n ts = replayed skip' n ts := by
  induction ts generalizing n with
  | nil => rfl
  | cons t ts ih =>
    have htail : replayed skip (n + 1) ts = replayed skip' (n + 1) ts := by
      apply ih
      intro i u hu w hw
      rw [Nat.add_assoc, Nat.add_comm 1]
      exact h (i + 1) u hu w hw
    rw [replayed, replayed, htail]
    congr 1
    apply filter_congr
    intro w hw
    rw [show skip n w.1 = skip' n w.1 from h 0 t rfl w hw]

variable [DecidableEq K]

/-- The value of the last write to a key. -/
def lastWrite : List (K × V) → K → Option V
  | [], _ => none
  | w :: ws, k => (lastWrite ws k).or (if w.1 = k then some w.2 else none)

/-- A memory after a list of writes. -/
def applyWrites (m : K → V) (ws : List (K × V)) : K → V := ws.foldl (fun m w => Function.update m w.1 w.2) m

/-- Some transaction revokes a key. -/
def revokedIn (ts : List (LogTxn K V)) (k : K) : Bool := ts.any fun t => decide (k ∈ t.revokes)

/-- What a log leaves for a key: the last write that no later transaction revokes. -/
def logResult : List (LogTxn K V) → K → Option V
  | [], _ => none
  | t :: ts, k => (logResult ts k).or (if revokedIn ts k then none else lastWrite t.writes k)

/-- A log of one transaction. -/
theorem logResult_singleton (t : LogTxn K V) (k : K) : logResult [t] k = lastWrite t.writes k := by
  simp [logResult, revokedIn]

theorem applyWrites_append (m : K → V) (ws ws' : List (K × V)) : applyWrites m (ws ++ ws') = applyWrites (applyWrites m ws) ws' :=
  foldl_append

theorem lastWrite_append (ws ws' : List (K × V)) (k : K) : lastWrite (ws ++ ws') k = (lastWrite ws' k).or (lastWrite ws k) := by
  induction ws with
  | nil => simp [lastWrite]
  | cons w ws ih => rw [cons_append, lastWrite, lastWrite, ih, Option.or_assoc]

/-- A key has the value of the last write to it, or the one it had. -/
theorem applyWrites_apply (m : K → V) (ws : List (K × V)) (k : K) : applyWrites m ws k = (lastWrite ws k).getD (m k) := by
  induction ws generalizing m with
  | nil => rfl
  | cons w ws ih =>
    rw [applyWrites, foldl_cons, ← applyWrites, ih, lastWrite]
    cases lastWrite ws k with
    | some v => rfl
    | none =>
      by_cases hk : w.1 = k
      · rw [if_pos hk, ← hk, Function.update_self]
        rfl
      · rw [if_neg hk, Function.update_of_ne (Ne.symm hk)]
        rfl

/-- What is written is written by a write. -/
theorem mem_of_lastWrite {ws : List (K × V)} {k : K} {v : V} (h : lastWrite ws k = some v) : (k, v) ∈ ws := by
  induction ws with
  | nil => simp [lastWrite] at h
  | cons w ws ih =>
    rw [lastWrite, Option.or_eq_some_iff] at h
    rcases h with h | ⟨-, h⟩
    · exact mem_cons_of_mem _ (ih h)
    · split at h
      · next hk =>
        cases h
        subst hk
        exact mem_cons_self
      · cases h

theorem lastWrite_eq_none {ws : List (K × V)} {k : K} (h : ∀ v, (k, v) ∉ ws) : lastWrite ws k = none := by
  cases hw : lastWrite ws k with
  | none => rfl
  | some v => exact absurd (mem_of_lastWrite hw) (h v)

/-- A write is the last one to its key, if no key is written twice. -/
theorem lastWrite_of_mem {ws : List (K × V)} (hnodup : (ws.map Prod.fst).Nodup) {k : K} {v : V} (h : (k, v) ∈ ws) : lastWrite ws k = some v := by
  induction ws with
  | nil => cases h
  | cons w ws ih =>
    rw [map_cons, nodup_cons] at hnodup
    rw [lastWrite]
    rcases mem_cons.1 h with rfl | h
    · have hnone : lastWrite ws k = none := by
        apply lastWrite_eq_none
        intro u hu
        exact hnodup.1 (mem_map.2 ⟨(k, u), hu, rfl⟩)
      rw [hnone, if_pos rfl]
      rfl
    · rw [ih hnodup.2 h]
      rfl

/-- A test of keys keeps the last write to a key, or none. -/
theorem lastWrite_filter (p : K → Bool) (ws : List (K × V)) (k : K) :
    lastWrite (ws.filter fun w => p w.1) k = if p k then lastWrite ws k else none := by
  induction ws with
  | nil => simp [lastWrite]
  | cons w ws ih =>
    by_cases hk : w.1 = k
    · subst hk
      by_cases hp : p w.1
      · simp [lastWrite, ih, hp]
      · simp [ih, hp]
    · by_cases hp : p w.1
      · simp [lastWrite, ih, hp, hk]
      · simp [lastWrite, ih, hp, hk]

/-- A replay is right when it skips a write just if a later transaction revokes the key. -/
theorem lastWrite_replayed (skip : Nat → K → Bool) (k : K) (ts : List (LogTxn K V)) (n : Nat)
    (h : ∀ i t, ts[i]? = some t → ∀ v, (k, v) ∈ t.writes → skip (n + i) k = revokedIn (ts.drop (i + 1)) k) :
    lastWrite (replayed skip n ts) k = logResult ts k := by
  induction ts generalizing n with
  | nil => rfl
  | cons t ts ih =>
    have htail : lastWrite (replayed skip (n + 1) ts) k = logResult ts k := by
      apply ih
      intro i u hu v hv
      rw [Nat.add_assoc, Nat.add_comm 1]
      exact h (i + 1) u hu v hv
    have hhead : lastWrite (t.writes.filter fun w => !skip n w.1) k = if revokedIn ts k then none else lastWrite t.writes k := by
      rw [lastWrite_filter (fun k => !skip n k)]
      by_cases hw : ∃ v, (k, v) ∈ t.writes
      · obtain ⟨v, hv⟩ := hw
        have hskip : skip n k = revokedIn ts k := h 0 t rfl v hv
        rw [hskip]
        cases revokedIn ts k <;> rfl
      · rw [lastWrite_eq_none fun v hv => hw ⟨v, hv⟩, ite_self, ite_self]
    rw [replayed, lastWrite_append, htail, hhead, logResult]

/-- What a log leaves is a write of some transaction, and no later one revokes the key. -/
theorem exists_of_logResult {ts : List (LogTxn K V)} {k : K} {v : V} (h : logResult ts k = some v) :
    ∃ n t, ts[n]? = some t ∧ (k, v) ∈ t.writes ∧ revokedIn (ts.drop (n + 1)) k = false := by
  induction ts with
  | nil => simp [logResult] at h
  | cons t ts ih =>
    rw [logResult, Option.or_eq_some_iff] at h
    rcases h with h | ⟨-, h⟩
    · obtain ⟨n, u, hu, hmem, hrev⟩ := ih h
      exact ⟨n + 1, u, hu, hmem, hrev⟩
    · split at h
      · cases h
      · next hrev => exact ⟨0, t, rfl, mem_of_lastWrite h, by simpa using hrev⟩

end Lib
