import Mathlib.Logic.Relation
import Mathlib.Order.WellFounded
import Mathlib.Data.Fintype.EquivFin

/-!
# Walks that reach a cycle

A walk that follows the links of a relation on finitely many states ends, whichever links it takes, unless it can reach a state that links
lead back to.
-/

namespace Lib

section

variable {α : Type*} {r : α → α → Prop} {a b : α}

/-- Links lead from a state to one that links lead back to. -/
def ReachesCycle (r : α → α → Prop) (a : α) : Prop := ∃ b, Relation.ReflTransGen r a b ∧ Relation.TransGen r b b

/-- A cycle is reached through one of the next states. -/
theorem reachesCycle_iff : ReachesCycle r a ↔ ∃ b, r a b ∧ ReachesCycle r b := by
  constructor
  · rintro ⟨c, hac, hcc⟩
    rcases Relation.ReflTransGen.cases_head hac with rfl | ⟨b, hab, hbc⟩
    · obtain ⟨b, hab, hba⟩ := Relation.TransGen.head'_iff.1 hcc
      exact ⟨b, hab, a, hba, hcc⟩
    · exact ⟨b, hab, c, hbc, hcc⟩
  · rintro ⟨b, hab, c, hbc, hcc⟩
    exact ⟨c, Relation.ReflTransGen.head hab hbc, hcc⟩

/-- A state without links reaches no cycle. -/
theorem not_reachesCycle_of_end (h : ∀ b, ¬r a b) : ¬ReachesCycle r a := fun hcyc =>
  have ⟨b, hab, _⟩ := reachesCycle_iff.1 hcyc
  h b hab

/-- A state with one link reaches a cycle just if the state that it leads to does. -/
theorem reachesCycle_of_unique (hab : r a b) (h : ∀ c, r a c → c = b) : ReachesCycle r a ↔ ReachesCycle r b := by
  rw [reachesCycle_iff]
  constructor
  · rintro ⟨c, hac, hc⟩
    exact h c hac ▸ hc
  · exact fun hb => ⟨b, hab, hb⟩

/-- On finitely many states, every walk from a state ends just if no cycle can be reached from it. -/
theorem acc_iff_not_reachesCycle [Finite α] : Acc (flip r) a ↔ ¬ReachesCycle r a := by
  constructor
  · intro hacc
    induction hacc with
    | intro a _ ih =>
      intro hcyc
      obtain ⟨b, hab, hb⟩ := reachesCycle_iff.1 hcyc
      exact ih b hab hb
  · intro hcyc
    -- the states that are reached, ordered by the links between them
    let below : α → α → Prop := fun y x => Relation.ReflTransGen r a x ∧ Relation.TransGen r x y
    have htrans : IsTrans α below := ⟨fun _ _ _ hxy hyz => ⟨hyz.1, hyz.2.trans hxy.2⟩⟩
    have hirrefl : Std.Irrefl below := ⟨fun x hx => hcyc ⟨x, hx⟩⟩
    have hwf : WellFounded below := Finite.wellFounded_of_trans_of_irrefl below
    have hall : ∀ x, Relation.ReflTransGen r a x → Acc (flip r) x := by
      intro x
      induction x using hwf.induction with
      | _ x ih =>
        intro hax
        refine Acc.intro x fun y hxy => ?_
        exact ih y ⟨hax, Relation.TransGen.single hxy⟩ (hax.tail hxy)
    exact hall a Relation.ReflTransGen.refl

end

/-!
## Machines that may run for ever

One round of a machine goes wrong, ends with a result, or goes on to a next state. A run that halts ends with a result just if no state that
it comes to goes wrong (`returns_iff_of_halts`).
-/

section

variable {α ρ : Type*} {round : α → Option (ρ ⊕ α)} {a b : α} {r : ρ}

/-- The machine goes on from a state to another one. -/
def Goes (round : α → Option (ρ ⊕ α)) (a b : α) : Prop := round a = some (.inr b)

/-- The machine comes from a state to another one. -/
def Comes (round : α → Option (ρ ⊕ α)) : α → α → Prop := Relation.ReflTransGen (Goes round)

/-- Some rounds: nothing if they were too few, else whether the run has gone wrong, and its result. -/
def machine (round : α → Option (ρ ⊕ α)) : Nat → α → Option (Option ρ)
  | 0, _ => none
  | n + 1, a =>
    match round a with
    | none => some none
    | some (.inl r) => some (some r)
    | some (.inr a') => machine round n a'

/-- A run from a state ends with a result. -/
def Returns (round : α → Option (ρ ⊕ α)) (a : α) : Prop := ∃ n r, machine round n a = some (some r)

/-- A run from a state ends, with a result or by going wrong. -/
def Halts (round : α → Option (ρ ⊕ α)) (a : α) : Prop := ∃ n o, machine round n a = some o

theorem machine_goes {n : Nat} (h : Goes round a b) : machine round (n + 1) a = machine round n b := by
  have hround : round a = some (.inr b) := h
  rw [machine, hround]

theorem Goes.unique {c : α} (h : Goes round a b) (h' : Goes round a c) : c = b := by
  have hbc : some (Sum.inr b : ρ ⊕ α) = some (.inr c) := h.symm.trans h'
  cases hbc
  rfl

/-- A run goes wrong only in a state that it comes to. -/
theorem machine_ne_wrong (h : ∀ b, Comes round a b → round b ≠ none) (n : Nat) : machine round n a ≠ some none := by
  induction n generalizing a with
  | zero => exact nofun
  | succ n ih =>
    match hround : round a with
    | none => exact absurd hround (h a Relation.ReflTransGen.refl)
    | some (.inl r) => simp [machine, hround]
    | some (.inr a') =>
      rw [machine_goes hround]
      exact ih fun b hb => h b (Relation.ReflTransGen.head hround hb)

theorem halts_of_comes (h : Comes round a b) (hb : Halts round b) : Halts round a := by
  induction h using Relation.ReflTransGen.head_induction_on with
  | refl => exact hb
  | head hgoes _ ih =>
    obtain ⟨n, o, hrun⟩ := ih
    exact ⟨n + 1, o, (machine_goes hgoes).trans hrun⟩

/-- A run that ends with a result comes to no state that goes wrong, and to none again. -/
theorem sound_of_returns (h : Returns round a) : (∀ b, Comes round a b → round b ≠ none) ∧ ¬ReachesCycle (Goes round) a := by
  obtain ⟨n, r, hrun⟩ := h
  induction n generalizing a with
  | zero => cases hrun
  | succ n ih =>
    match hround : round a with
    | none => simp [machine, hround] at hrun
    | some (.inl r') =>
      have hend : ∀ b, ¬Goes round a b := by
        intro b hb
        rw [Goes, hround] at hb
        cases hb
      refine ⟨?_, not_reachesCycle_of_end hend⟩
      intro b hb
      rcases Relation.ReflTransGen.cases_head hb with rfl | ⟨c, hac, _⟩
      · rw [hround]
        exact Option.some_ne_none _
      · exact absurd hac (hend c)
    | some (.inr a') =>
      obtain ⟨hsound, hcyc⟩ := ih ((machine_goes hround).symm.trans hrun)
      refine ⟨?_, ?_⟩
      · intro b hb
        rcases Relation.ReflTransGen.cases_head hb with rfl | ⟨c, hac, hcb⟩
        · rw [hround]
          exact Option.some_ne_none _
        · exact hsound b (Goes.unique hround hac ▸ hcb)
      · rwa [reachesCycle_of_unique (show Goes round a a' from hround) fun c hc => Goes.unique hround hc]

/-- A run that ends does so with a result just if it comes to no state that goes wrong. -/
theorem returns_iff_of_halts (h : Halts round a) : Returns round a ↔ ∀ b, Comes round a b → round b ≠ none := by
  constructor
  · intro hreturns
    exact (sound_of_returns hreturns).1
  · intro hsound
    obtain ⟨n, o, hrun⟩ := h
    cases o with
    | none => exact absurd hrun (machine_ne_wrong hsound n)
    | some r => exact ⟨n, r, hrun⟩

/-- A run that ends comes to no state that goes on to itself. -/
theorem not_goes_self_of_halts (h : Halts round a) (hb : Comes round a b) : ¬Goes round b b := by
  obtain ⟨n, o, hrun⟩ := h
  induction n generalizing a with
  | zero => cases hrun
  | succ n ih =>
    intro hself
    rcases Relation.ReflTransGen.cases_head hb with rfl | ⟨c, hac, hcb⟩
    · exact ih Relation.ReflTransGen.refl ((machine_goes hself).symm.trans hrun) hself
    · exact ih hcb ((machine_goes hac).symm.trans hrun) hself

/-- A run that ends goes on from finitely many states. -/
theorem bounded_of_halts (pos : α → Nat) (h : Halts round a) : ∃ n, ∀ b c, Comes round a b → Goes round b c → pos b < n := by
  obtain ⟨n, o, hrun⟩ := h
  induction n generalizing a with
  | zero => cases hrun
  | succ n ih =>
    by_cases hgoes : ∃ c, Goes round a c
    · obtain ⟨c, hac⟩ := hgoes
      obtain ⟨k, hk⟩ := ih ((machine_goes hac).symm.trans hrun)
      refine ⟨max k (pos a + 1), fun b d hb hd => ?_⟩
      rcases Relation.ReflTransGen.cases_head hb with rfl | ⟨c', hac', hcb⟩
      · omega
      · have hlt := hk b d (Goes.unique hac hac' ▸ hcb) hd
        omega
    · refine ⟨0, fun b d hb hd => ?_⟩
      rcases Relation.ReflTransGen.cases_head hb with rfl | ⟨c, hac, _⟩
      · exact absurd ⟨d, hd⟩ hgoes
      · exact absurd ⟨c, hac⟩ hgoes

/-- A run along which a number grows, where the state is not the same as before, ends just if no state comes again at once and the number
is bounded where the run goes on. -/
theorem halts_iff_bounded (pos : α → Nat) (hpos : ∀ b c, Comes round a b → Goes round b c → c = b ∨ pos b < pos c) :
    Halts round a ↔ (∀ b, Comes round a b → ¬Goes round b b) ∧ ∃ n, ∀ b c, Comes round a b → Goes round b c → pos b < n := by
  constructor
  · exact fun h => ⟨fun b hb => not_goes_self_of_halts h hb, bounded_of_halts pos h⟩
  · rintro ⟨hself, n, hn⟩
    have hall : ∀ k b, Comes round a b → n - pos b < k → Halts round b := by
      intro k
      induction k with
      | zero => exact fun b _ hk => absurd hk (Nat.not_lt_zero _)
      | succ k ih =>
        intro b hb hk
        match hround : round b with
        | none => exact ⟨1, none, by simp [machine, hround]⟩
        | some (.inl r) => exact ⟨1, some r, by simp [machine, hround]⟩
        | some (.inr c) =>
          have hbc : Goes round b c := hround
          have hlt := hn b c hb hbc
          have hgrows : pos b < pos c := by
            rcases hpos b c hb hbc with rfl | hgrows
            · exact absurd hbc (hself c hb)
            · exact hgrows
          exact halts_of_comes (Relation.ReflTransGen.single hbc) (ih c (hb.tail hbc) (by omega))
    exact hall _ a Relation.ReflTransGen.refl (Nat.lt_succ_self _)

/-- A test of all states of a run that ends within some rounds. -/
def allStates (round : α → Option (ρ ⊕ α)) (test : α → Bool) : Nat → α → Bool
  | 0, _ => false
  | n + 1, a =>
    test a &&
      match round a with
      | some (.inr a') => allStates round test n a'
      | _ => true

theorem of_allStates {test : α → Bool} {n : Nat} (h : allStates round test n a = true) (hb : Comes round a b) : test b = true := by
  induction n generalizing a with
  | zero => cases h
  | succ n ih =>
    rw [allStates, Bool.and_eq_true] at h
    obtain ⟨htest, hrest⟩ := h
    rcases Relation.ReflTransGen.cases_head hb with rfl | ⟨c, hac, hcb⟩
    · exact htest
    · have hround : round a = some (.inr c) := hac
      rw [hround] at hrest
      exact ih hrest hcb

/-! ## What comes of a run -/

/-- A run from a state ends with a result, or goes wrong. -/
def Outcome (round : α → Option (ρ ⊕ α)) (a : α) (o : Option ρ) : Prop := ∃ n, machine round n a = some o

theorem outcome_of_goes {o : Option ρ} (h : Goes round a b) : Outcome round a o ↔ Outcome round b o := by
  constructor
  · rintro ⟨n, hrun⟩
    cases n with
    | zero => cases hrun
    | succ n => exact ⟨n, (machine_goes h).symm.trans hrun⟩
  · rintro ⟨n, hrun⟩
    exact ⟨n + 1, (machine_goes h).trans hrun⟩

theorem outcome_of_comes {o : Option ρ} (h : Comes round a b) : Outcome round a o ↔ Outcome round b o := by
  induction h with
  | refl => exact Iff.rfl
  | tail _ hgoes ih => exact ih.trans (outcome_of_goes hgoes)

/-- A run does not go wrong, in any number of rounds, just if no state does that it comes to. -/
theorem machine_ne_wrong_iff : (∀ n, machine round n a ≠ some none) ↔ ∀ b, Comes round a b → round b ≠ none := by
  refine ⟨fun h b hb hwrong => ?_, machine_ne_wrong⟩
  obtain ⟨n, hrun⟩ := (outcome_of_comes hb).2 ⟨1, show machine round 1 b = some none by simp [machine, hwrong]⟩
  exact h n hrun

/-- A run has one outcome. -/
theorem Outcome.unique {o o' : Option ρ} (h : Outcome round a o) (h' : Outcome round a o') : o = o' := by
  obtain ⟨n, hrun⟩ := h
  induction n generalizing a with
  | zero => cases hrun
  | succ n ih =>
    match hround : round a with
    | none =>
      obtain ⟨n', hrun'⟩ := h'
      cases n' with
      | zero => cases hrun'
      | succ n' =>
        rw [machine, hround] at hrun hrun'
        exact Option.some.inj (hrun.symm.trans hrun')
    | some (.inl r) =>
      obtain ⟨n', hrun'⟩ := h'
      cases n' with
      | zero => cases hrun'
      | succ n' =>
        rw [machine, hround] at hrun hrun'
        exact Option.some.inj (hrun.symm.trans hrun')
    | some (.inr a') => exact ih ((outcome_of_goes hround).1 h') ((machine_goes hround).symm.trans hrun)

variable {β : Type*} {round' : β → Option (ρ ⊕ β)}

/-- A round of one machine has its reply in another one: both go wrong, both end with the same result, or both go on, the second one as
`go` says, to states in a relation. -/
def Replies (round : α → Option (ρ ⊕ α)) (round' : β → Option (ρ ⊕ β)) (go : β → β → Prop) (R : α → β → Prop) (a : α) (b : β) : Prop :=
  match round a with
  | none => round' b = none
  | some (.inl r) => round' b = some (.inl r)
  | some (.inr a') => ∃ b', go b b' ∧ R a' b'

section

variable {go : β → β → Prop} {R : α → β → Prop} {b b' : β}

theorem Replies.wrong (ha : round a = none) (hb : round' b = none) : Replies round round' go R a b := by
  unfold Replies
  rw [ha]
  exact hb

theorem Replies.ends (ha : round a = some (.inl r)) (hb : round' b = some (.inl r)) : Replies round round' go R a b := by
  unfold Replies
  rw [ha]
  exact hb

theorem Replies.goes {a' : α} (ha : Goes round a a') (hb : go b b') (h : R a' b') : Replies round round' go R a b := by
  have hround : round a = some (.inr a') := ha
  unfold Replies
  rw [hround]
  exact ⟨b', hb, h⟩

/-- The reply to a round that goes on. -/
theorem Replies.of_goes {a' : α} (h : Replies round round' go R a b) (ha : Goes round a a') : ∃ b', go b b' ∧ R a' b' := by
  have hround : round a = some (.inr a') := ha
  unfold Replies at h
  rwa [hround] at h

/-- A reply that is taken further, where the round goes on. -/
theorem Replies.imp {γ : Type*} {round'' : γ → Option (ρ ⊕ γ)} {go' : γ → γ → Prop} {S : α → γ → Prop} {c : γ}
    (h : Replies round round' go R a b) (hwrong : round' b = none → round'' c = none)
    (hends : ∀ r, round' b = some (.inl r) → round'' c = some (.inl r))
    (hgoes : ∀ a' b', Goes round a a' → go b b' → R a' b' → ∃ c', go' c c' ∧ S a' c') : Replies round round'' go' S a c := by
  unfold Replies at h ⊢
  match hround : round a with
  | none =>
    rw [hround] at h
    exact hwrong h
  | some (.inl r) =>
    rw [hround] at h
    exact hends r h
  | some (.inr a') =>
    rw [hround] at h
    obtain ⟨b', hgo, hr⟩ := h
    exact hgoes a' b' hround hgo hr

end

/-- Where every round has its reply, after some rounds of the second machine, the second machine has the outcome of the first. -/
theorem outcome_of_simulation {R : α → β → Prop}
    (hsim : ∀ a b, R a b → ∃ b', Comes round' b b' ∧ Replies round round' (Comes round') R a b') {b : β}
    {o : Option ρ} (hab : R a b) (h : Outcome round a o) : Outcome round' b o := by
  obtain ⟨n, hrun⟩ := h
  induction n generalizing a b with
  | zero => cases hrun
  | succ n ih =>
    obtain ⟨b', hcomes, hreply⟩ := hsim a b hab
    refine (outcome_of_comes hcomes).2 ?_
    unfold Replies at hreply
    match hround : round a with
    | none =>
      rw [hround] at hreply
      refine ⟨1, ?_⟩
      rw [machine, hround] at hrun
      rw [machine, hreply]
      exact hrun
    | some (.inl r) =>
      rw [hround] at hreply
      refine ⟨1, ?_⟩
      rw [machine, hround] at hrun
      rw [machine, hreply]
      exact hrun
    | some (.inr a') =>
      rw [hround] at hreply
      obtain ⟨c, hcomes', hac⟩ := hreply
      exact (outcome_of_comes hcomes').2 (ih hac ((machine_goes hround).symm.trans hrun))

/-- If the run of the first machine ends, the outcomes are the same. -/
theorem outcome_iff_of_simulation {R : α → β → Prop} (hsim : ∀ a b, R a b → ∃ b', Comes round' b b' ∧ Replies round round' (Comes round') R a b')
    {b : β} (hab : R a b) (hhalts : Halts round a) (o : Option ρ) : Outcome round a o ↔ Outcome round' b o := by
  refine ⟨outcome_of_simulation hsim hab, fun h => ?_⟩
  obtain ⟨n, o', hrun⟩ := hhalts
  have ho : Outcome round a o' := ⟨n, hrun⟩
  rwa [← (outcome_of_simulation hsim hab ho).unique h]

end

end Lib
