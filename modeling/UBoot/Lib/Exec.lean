import Mathlib.Logic.Basic

/-!
# Runs of a step relation

A system is a relation `step s i s'`: from state `s` the input `i` may lead to `s'`. `Exec step s is s'` is a run over a
list of inputs. A run is guarded by a condition on the state before each input by taking the relation
`Guarded ok step`. The two rules are the ones a safety proof needs: an invariant kept by one step is kept by a run, and a
run splits where its inputs split.
-/

namespace Lib

variable {σ ι : Type*}

/-- A run of `step` over a list of inputs, from the first state to the last. -/
inductive Exec (step : σ → ι → σ → Prop) : σ → List ι → σ → Prop where
  | nil (s : σ) : Exec step s [] s
  | cons {s s' s'' : σ} {i : ι} {is : List ι} : step s i s' → Exec step s' is s'' → Exec step s (i :: is) s''

/-- A step taken only where the condition `ok` holds of the state before it and of its input. -/
def Guarded (ok : σ → ι → Prop) (step : σ → ι → σ → Prop) (s : σ) (i : ι) (s' : σ) : Prop :=
  ok s i ∧ step s i s'

/-- The relation of a partial step function. -/
def stepOf (f : σ → ι → Option σ) (s : σ) (i : ι) (s' : σ) : Prop := f s i = some s'

/-- The relation of a step function. -/
def stepFn (f : σ → ι → σ) (s : σ) (i : ι) (s' : σ) : Prop := f s i = s'

/-- What one step preserves, a run preserves. -/
theorem Exec.invariant {step : σ → ι → σ → Prop} {Inv : σ → Prop}
    (hstep : ∀ s i s', Inv s → step s i s' → Inv s') {s s' : σ} {is : List ι} (h : Exec step s is s') (h0 : Inv s) :
    Inv s' := by
  induction h with
  | nil s => exact h0
  | cons hs _ ih => exact ih (hstep _ _ _ h0 hs)

/-- A relation to the states of a function that every step keeps is kept by a run and a fold. -/
theorem Exec.refines {τ : Type*} {step : σ → ι → σ → Prop} {f : τ → ι → τ} {R : σ → τ → Prop}
    (hstep : ∀ s i s' t, R s t → step s i s' → R s' (f t i)) {s s' : σ} {is : List ι} (h : Exec step s is s') {t : τ}
    (h0 : R s t) : R s' (is.foldl f t) := by
  induction h generalizing t with
  | nil s => exact h0
  | cons hs _ ih => exact ih (hstep _ _ _ _ h0 hs)

/-- A run of one relation is a run of every relation that holds of its steps. -/
theorem Exec.mono {step step' : σ → ι → σ → Prop} (hstep : ∀ s i s', step s i s' → step' s i s') {s s' : σ} {is : List ι}
    (h : Exec step s is s') : Exec step' s is s' := by
  induction h with
  | nil s => exact Exec.nil s
  | cons hs _ ih => exact Exec.cons (hstep _ _ _ hs) ih

/-- A run over one list and then another is a run over both. -/
theorem Exec.append {step : σ → ι → σ → Prop} {s s' s'' : σ} {is js : List ι} (h : Exec step s is s')
    (h' : Exec step s' js s'') : Exec step s (is ++ js) s'' := by
  induction h with
  | nil s => exact h'
  | cons hs _ ih => exact Exec.cons hs (ih h')

/-- A run over one input is one step. -/
theorem Exec.single {step : σ → ι → σ → Prop} {s s' : σ} {i : ι} (h : step s i s') : Exec step s [i] s' :=
  Exec.cons h (Exec.nil s')

/-- A partial step function that runs through a list of inputs makes a run over them. -/
theorem Exec.of_foldlM {f : σ → ι → Option σ} {s s' : σ} {is : List ι} (h : is.foldlM f s = some s') : Exec (stepOf f) s is s' := by
  induction is generalizing s with
  | nil =>
    obtain rfl : s = s' := by simpa using h
    exact Exec.nil s
  | cons i is ih =>
    rw [List.foldlM_cons] at h
    cases hf : f s i with
    | none =>
      rw [hf] at h
      cases h
    | some t =>
      rw [hf] at h
      exact Exec.cons hf (ih h)

/-- The same for a guard that can be decided. -/
theorem Exec.of_guarded_foldlM {ok : σ → ι → Prop} [∀ s i, Decidable (ok s i)] {f : σ → ι → Option σ} {s s' : σ} {is : List ι}
    (h : is.foldlM (fun s i => if ok s i then f s i else none) s = some s') : Exec (Guarded ok (stepOf f)) s is s' := by
  refine (Exec.of_foldlM h).mono ?_
  intro t i t' ht
  by_cases hok : ok t i
  · exact ⟨hok, (if_pos hok).symm.trans ht⟩
  · cases (if_neg hok).symm.trans ht

/-- The same for a step function that is total. -/
theorem Exec.of_guarded_foldl {ok : σ → ι → Prop} [∀ s i, Decidable (ok s i)] {f : σ → ι → σ} {s s' : σ} {is : List ι}
    (h : is.foldlM (fun s i => if ok s i then some (f s i) else none) s = some s') : Exec (Guarded ok (stepFn f)) s is s' := by
  refine (Exec.of_guarded_foldlM h).mono ?_
  intro t i t' ht
  exact ⟨ht.1, Option.some.inj ht.2⟩

/-- A step function makes a run over every list of inputs. -/
theorem Exec.foldl (f : σ → ι → σ) (s : σ) (is : List ι) : Exec (stepFn f) s is (is.foldl f s) := by
  induction is generalizing s with
  | nil => exact Exec.nil s
  | cons i is ih => exact Exec.cons rfl (ih (f s i))

end Lib
