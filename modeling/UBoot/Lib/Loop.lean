import Mathlib.Logic.Relation

/-!
# Loops that end

One round of a loop goes wrong, ends it with a result, or goes on to a state with less left to do. So every run ends. `run_eq_some_iff`
and `run_isSome_iff` say what it comes to in terms of the states that it reaches: the result is that of a reached state that ends, and
a run goes right just if every reached state does.
-/

namespace Lib

variable {α ρ : Type*}

/-- A loop: its round, and a bound for the rounds that are left. -/
structure Loop (α ρ : Type*) where
  round : α → Option (ρ ⊕ α)
  left : α → Nat
  progress : ∀ {a a'}, round a = some (.inr a') → left a' < left a

namespace Loop

def rounds (l : Loop α ρ) : Nat → α → Option ρ
  | 0, _ => none
  | n + 1, a => (l.round a).bind (Sum.elim some (l.rounds n))

def run (l : Loop α ρ) (a : α) : Option ρ := l.rounds (l.left a + 1) a

/-- The states that a run comes to. -/
def Reaches (l : Loop α ρ) : α → α → Prop := Relation.ReflTransGen fun a a' => l.round a = some (.inr a')

variable {l : Loop α ρ} {a a' : α} {r : ρ}

/-- More rounds than are left make no difference. -/
theorem rounds_eq_run {n : Nat} (h : l.left a < n) : l.rounds n a = l.run a := by
  unfold run
  generalize hm : l.left a + 1 = m
  have hlt : l.left a < m := by omega
  clear hm
  induction n generalizing a m with
  | zero => exact absurd h (Nat.not_lt_zero _)
  | succ n ih =>
    cases m with
    | zero => exact absurd hlt (Nat.not_lt_zero _)
    | succ m =>
      rw [rounds, rounds]
      match hround : l.round a with
      | none => rfl
      | some (.inl r) => rfl
      | some (.inr a') =>
        have hless := l.progress hround
        exact ih (by omega) m (by omega)

theorem run_none (h : l.round a = none) : l.run a = none := by
  rw [run, rounds, h]
  rfl

theorem run_ends (h : l.round a = some (.inl r)) : l.run a = some r := by
  rw [run, rounds, h]
  rfl

theorem run_goes (h : l.round a = some (.inr a')) : l.run a = l.run a' := by
  rw [run, rounds, h]
  exact rounds_eq_run (l.progress h)

/-- From every state that is reached the run is the same. -/
theorem run_of_reaches (h : l.Reaches a a') : l.run a = l.run a' := by
  induction h with
  | refl => rfl
  | tail _ hround ih => exact ih.trans (run_goes hround)

/-- A run has the result of the state that it ends in. -/
theorem run_eq_some_iff : l.run a = some r ↔ ∃ a', l.Reaches a a' ∧ l.round a' = some (.inl r) := by
  constructor
  · intro h
    induction hn : l.left a using Nat.strongRecOn generalizing a with
    | ind n ih =>
      match hround : l.round a with
      | none =>
        rw [run_none hround] at h
        cases h
      | some (.inl r') =>
        obtain rfl : r' = r := Option.some.inj ((run_ends hround).symm.trans h)
        exact ⟨a, Relation.ReflTransGen.refl, hround⟩
      | some (.inr a') =>
        have hless := l.progress hround
        obtain ⟨e, hreach, hend⟩ := ih _ (by omega) ((run_goes hround).symm.trans h) rfl
        exact ⟨e, Relation.ReflTransGen.head hround hreach, hend⟩
  · rintro ⟨a', hreach, hend⟩
    exact (run_of_reaches hreach).trans (run_ends hend)

/-- The first round of a run with a result. -/
theorem exists_round (h : l.run a = some r) : ∃ x, l.round a = some x := by
  cases hround : l.round a with
  | none => exact nomatch (run_none hround).symm.trans h
  | some x => exact ⟨x, rfl⟩

/-- A run goes right when every state that it reaches does. -/
theorem run_isSome_iff : (l.run a).isSome ↔ ∀ a', l.Reaches a a' → (l.round a').isSome := by
  constructor
  · intro h a' hreach
    rw [run_of_reaches hreach] at h
    cases hround : l.round a' with
    | none =>
      rw [run_none hround] at h
      exact h
    | some _ => rfl
  · intro h
    induction hn : l.left a using Nat.strongRecOn generalizing a with
    | ind n ih =>
      match hround : l.round a with
      | none =>
        have hsome := h a Relation.ReflTransGen.refl
        rw [hround] at hsome
        exact absurd hsome Bool.false_ne_true
      | some (.inl r) =>
        rw [run_ends hround]
        rfl
      | some (.inr a') =>
        have hless := l.progress hround
        rw [run_goes hround]
        exact ih _ (by omega) (fun e he => h e (Relation.ReflTransGen.head hround he)) rfl

end Loop

end Lib
