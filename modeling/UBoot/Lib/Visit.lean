import Mathlib.Data.List.Basic
import Mathlib.Data.List.Nodup
import Mathlib.Data.List.Range

/-!
# Loops that ask for the next hit

A loop asks for the first position behind the last one that satisfies a test, and ends when the answer is zero. `hits p n idx` are
the positions it gets, behind `idx` and below `n`. If the answers are right (`Answers`), the loop visits just these, in order, up to
one at which its body ends it.
-/

namespace Lib

open List

variable {σ : Type*}

/-- The positions behind `idx` and below `n` that satisfy the test. -/
def hits (p : Nat → Bool) (n idx : Nat) : List Nat := (List.range' (idx + 1) (n - (idx + 1))).filter p

/-- `while ((idx = next(idx)))`: the body says whether to go on. The last answer, and the state. -/
def whileNext (next : Nat → Option Nat) (body : Nat → σ → Option (Bool × σ)) : Nat → Nat → σ → Option (Nat × σ)
  | 0, _, _ => none
  | fuel + 1, idx, s =>
    match next idx with
    | none => none
    | some idx =>
      if idx = 0 then some (0, s)
      else
        match body idx s with
        | none => none
        | some (false, s) => some (idx, s)
        | some (true, s) => whileNext next body fuel idx s

/-- The body at each position of a list, up to one at which it ends the loop. -/
def visit (body : Nat → σ → Option (Bool × σ)) : List Nat → σ → Option (Nat × σ)
  | [], s => some (0, s)
  | i :: is, s =>
    match body i s with
    | none => none
    | some (false, s) => some (i, s)
    | some (true, s) => visit body is s

/-- The first hit behind a position, or zero. -/
def Answers (next : Nat → Option Nat) (p : Nat → Bool) (n : Nat) : Prop := ∀ idx, next idx = some ((hits p n idx).headD 0)

variable {p : Nat → Bool} {n idx : Nat}

theorem mem_hits {i : Nat} : i ∈ hits p n idx ↔ idx < i ∧ i < n ∧ p i = true := by
  rw [hits, mem_filter, mem_range'_1, ← and_assoc]
  exact and_congr_left fun _ => by omega

theorem nodup_hits : (hits p n idx).Nodup := List.Nodup.filter _ nodup_range'

/-- The positions behind `idx`, taken one at a time. -/
theorem hits_step (hlt : idx + 1 < n) : hits p n idx = if p (idx + 1) then (idx + 1) :: hits p n (idx + 1) else hits p n (idx + 1) := by
  obtain ⟨k, hk⟩ : ∃ k, n - (idx + 1) = k + 1 := ⟨n - (idx + 1) - 1, by omega⟩
  have hk' : n - (idx + 1 + 1) = k := by omega
  rw [hits, hits, hk, hk', range'_succ, filter_cons]

theorem hits_end (hle : n ≤ idx + 1) : hits p n idx = [] := by
  rw [hits, Nat.sub_eq_zero_of_le hle]
  rfl

/-- Behind the first hit are the others. -/
theorem hits_tail {i : Nat} {is : List Nat} (h : hits p n idx = i :: is) : is = hits p n i := by
  obtain ⟨k, hk⟩ : ∃ k, k = n - idx := ⟨_, rfl⟩
  induction k generalizing idx with
  | zero =>
    rw [hits_end (by omega)] at h
    cases h
  | succ k ih =>
    by_cases hlt : idx + 1 < n
    · rw [hits_step hlt] at h
      by_cases hp : p (idx + 1) = true
      · rw [if_pos hp] at h
        obtain ⟨rfl, rfl⟩ := List.cons.inj h
        rfl
      · rw [if_neg hp] at h
        exact ih h (by omega)
    · rw [hits_end (by omega)] at h
      cases h

/-- With the right answers the loop visits the hits. -/
theorem whileNext_eq {next : Nat → Option Nat} (h : Answers next p n) (body : Nat → σ → Option (Bool × σ)) {fuel : Nat}
    (hfuel : (hits p n idx).length < fuel) (s : σ) : whileNext next body fuel idx s = visit body (hits p n idx) s := by
  induction fuel generalizing idx s with
  | zero => omega
  | succ fuel ih =>
    rw [whileNext, h idx]
    cases hh : hits p n idx with
    | nil => rfl
    | cons i is =>
      have hi : i ≠ 0 := by
        have := (mem_hits.1 (hh ▸ mem_cons_self : i ∈ hits p n idx)).1
        omega
      rw [hh, length_cons] at hfuel
      rw [hits_tail hh] at hfuel ⊢
      dsimp only [headD_cons, visit]
      rw [if_neg hi]
      cases body i s with
      | none => rfl
      | some r =>
        obtain ⟨go, s'⟩ := r
        cases go with
        | false => rfl
        | true => exact ih (by omega) s'

theorem length_hits_le : (hits p n idx).length ≤ n := by
  refine Nat.le_trans (length_filter_le _ _) ?_
  rw [length_range']
  omega

variable (body : Nat → σ → Option (Bool × σ))

/-- A body that never ends the loop and keeps a relation to the positions visited. -/
theorem visit_invariant (R : List Nat → σ → Prop) {L : List Nat}
    (hbody : ∀ done i rest s, L = done ++ i :: rest → R done s → ∃ s', body i s = some (true, s') ∧ R (done ++ [i]) s') {s : σ}
    (hR : R [] s) : ∃ s', visit body L s = some (0, s') ∧ R L s' := by
  have key (is done : List Nat) (s : σ) (hL : L = done ++ is) (hR : R done s) : ∃ s', visit body is s = some (0, s') ∧ R L s' := by
    induction is generalizing done s with
    | nil => exact ⟨s, rfl, by rwa [hL, append_nil]⟩
    | cons i is ih =>
      obtain ⟨s₁, h1, hR₁⟩ := hbody done i is s hL hR
      obtain ⟨s₂, h2, hR₂⟩ := ih (done ++ [i]) s₁ (by rw [hL, append_assoc]; rfl) hR₁
      exact ⟨s₂, by rw [visit, h1]; exact h2, hR₂⟩
  exact key L [] s rfl hR

/-- A loop that is stuck at one of its positions, in every state that it can be in there. -/
theorem visit_stuck (R : σ → Prop) {L : List Nat} (hbody : ∀ i s, R s → body i s = none ∨ ∃ s', body i s = some (true, s') ∧ R s')
    {i : Nat} (hi : i ∈ L) (hstuck : ∀ s, R s → body i s = none) {s : σ} (hR : R s) : visit body L s = none := by
  induction L generalizing s with
  | nil => cases hi
  | cons j L ih =>
    rw [visit]
    rcases mem_cons.1 hi with rfl | hi
    · rw [hstuck s hR]
    · rcases hbody j s hR with hj | ⟨s', hj, hR'⟩
      · rw [hj]
      · rw [hj]
        exact ih hi hR'

end Lib
