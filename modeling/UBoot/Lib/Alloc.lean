import UBoot.Lib.Exec
import Mathlib.Data.List.Nodup
import Mathlib.Data.Nat.Find
import Mathlib.Logic.Function.Basic

/-!
# Numbers that are given out

A set of numbers in use, of which each call gives out one that was free until there is none (`Gives`). In a run each number is given out
once, and was free before it (`Exec.gives`). `freeFrom` counts the free numbers of a range.
-/

namespace Lib

open List Function

variable {used used' : Nat → Bool} {total a n i : Nat}

/-- How many of the `n` numbers from `a` on are free. -/
def freeFrom (used : Nat → Bool) (a n : Nat) : Nat := (List.range' a n).countP fun i => !used i

theorem freeFrom_eq_zero : freeFrom used a n = 0 ↔ ∀ i, a ≤ i → i < a + n → used i = true := by
  unfold freeFrom
  rw [countP_eq_zero]
  simp only [mem_range'_1, Bool.not_eq_true', Bool.not_eq_false, and_imp]

/-- The numbers of other ranges do not count. -/
theorem freeFrom_congr (h : ∀ i, a ≤ i → i < a + n → used' i = used i) : freeFrom used' a n = freeFrom used a n := by
  refine countP_congr fun i hi => ?_
  rw [mem_range'_1] at hi
  rw [h i hi.1 hi.2]

theorem freeFrom_update_of_outside (h : i < a ∨ a + n ≤ i) (b : Bool) : freeFrom (Function.update used i b) a n = freeFrom used a n :=
  freeFrom_congr fun j h1 h2 => update_of_ne (by omega) b used

/-- A number that is used now is one free number less. -/
theorem freeFrom_update (hfree : used i = false) (h1 : a ≤ i) (h2 : i < a + n) :
    freeFrom (Function.update used i true) a n + 1 = freeFrom used a n := by
  induction n generalizing a with
  | zero => omega
  | succ n ih =>
    have hcons (u : Nat → Bool) : freeFrom u a (n + 1) = freeFrom u (a + 1) n + if u a = false then 1 else 0 := by
      rw [freeFrom, range'_succ, countP_cons, freeFrom]
      cases u a <;> rfl
    rw [hcons, hcons]
    rcases Nat.eq_or_lt_of_le h1 with rfl | hlt
    · rw [freeFrom_update_of_outside (Or.inl (Nat.lt_succ_self a)), update_self, if_pos hfree]
      rfl
    · rw [← ih (a := a + 1) hlt (by omega), update_of_ne (by omega), Nat.add_right_comm]

/-- The free numbers of two ranges, one behind the other. -/
theorem freeFrom_append (used : Nat → Bool) (a n m : Nat) : freeFrom used a (n + m) = freeFrom used a n + freeFrom used (a + n) m := by
  rw [freeFrom, ← range'_append_1, countP_append]
  rfl

/-- The free numbers below a bound. -/
theorem freeFrom_of_threshold (used : Nat → Bool) (ha : ∀ i, a ≤ i → i < a + n → used i = true) {m : Nat}
    (hb : ∀ i, a + n ≤ i → i < a + n + m → used i = false) : freeFrom used a (n + m) = m := by
  rw [freeFrom_append, freeFrom_eq_zero.2 ha, Nat.zero_add, freeFrom, countP_eq_length.2, length_range']
  intro i hi
  rw [mem_range'_1] at hi
  rw [hb i hi.1 hi.2]
  rfl

/-- The first free number, and none below it is free. -/
structure FirstFree (total : Nat) (used : Nat → Bool) (i : Nat) : Prop where
  lt : i < total
  free : used i = false
  first : ∀ j, j < i → used j = true

theorem exists_firstFree (h : ∃ i, i < total ∧ used i = false) : ∃ i, FirstFree total used i := by
  refine ⟨Nat.find h, (Nat.find_spec h).1, (Nat.find_spec h).2, fun j hj => ?_⟩
  have hlt := (Nat.find_spec h).1
  rw [← Bool.not_eq_false]
  exact fun hfree => Nat.find_min h hj ⟨by omega, hfree⟩

/-- A call gives out a number that was free, or says that there is none. -/
inductive Gives (total : Nat) : (Nat → Bool) → Option Nat → (Nat → Bool) → Prop
  | number {used : Nat → Bool} {i : Nat} (hlt : i < total) (hfree : used i = false) :
    Gives total used (some i) (Function.update used i true)
  | none {used : Nat → Bool} (hused : ∀ i, i < total → used i = true) : Gives total used none used

/-- In a run, each number is given out once, was free before, and is used afterwards. -/
theorem Exec.gives {rs : List (Option Nat)} (h : Exec (Gives total) used rs used') :
    (rs.filterMap id).Nodup ∧ (∀ i, used' i = true ↔ used i = true ∨ some i ∈ rs) ∧
      (∀ i, some i ∈ rs → i < total ∧ used i = false) ∧ (none ∈ rs → ∀ i, i < total → used' i = true) := by
  induction h with
  | nil used => exact ⟨nodup_nil, fun i => by simp, fun i hi => absurd hi not_mem_nil, fun hn => absurd hn not_mem_nil⟩
  | @cons used used₁ used' r rs hs _ ih =>
    obtain ⟨hnodup, hused, hfree, hnone⟩ := ih
    cases hs with
    | @number n hlt hfree₁ =>
      refine ⟨?_, fun i => ?_, fun i hi => ?_, fun hn => ?_⟩
      · rw [filterMap_cons_some (f := id) (b := n) rfl, nodup_cons]
        refine ⟨fun hmem => ?_, hnodup⟩
        have h := (hfree n (by simpa using hmem)).2
        rw [update_self] at h
        cases h
      · rw [hused, update_apply, mem_cons, Option.some.injEq]
        split <;> simp_all
      · rcases mem_cons.1 hi with h | h
        · obtain rfl := Option.some.inj h
          exact ⟨hlt, hfree₁⟩
        · obtain ⟨h1, h2⟩ := hfree i h
          rw [update_apply] at h2
          split at h2
          · cases h2
          · exact ⟨h1, h2⟩
      · exact hnone ((mem_cons.1 hn).resolve_left nofun)
    | none hall =>
      refine ⟨hnodup, fun i => ?_, fun i hi => ?_, fun _ i hi => (hused i).2 (Or.inl (hall i hi))⟩
      · rw [hused, mem_cons]
        simp
      · exact hfree i ((mem_cons.1 hi).resolve_left nofun)

/-! ## A system that gives out numbers -/

/-- The numbers in use after a call. -/
def after (used : Nat → Bool) : Option Nat → Nat → Bool
  | none => used
  | some n => Function.update used n true

/-- The calls of a system together with the numbers in use. -/
def WithUsed {σ : Type*} (call : σ → Option Nat → σ → Prop) (s : σ × (Nat → Bool)) (r : Option Nat) (s' : σ × (Nat → Bool)) : Prop :=
  call s.1 r s'.1 ∧ s'.2 = after s.2 r

/-- A run in which each call gives out a number. -/
theorem Exec.withUsed {σ : Type*} {call : σ → Option Nat → σ → Prop} {ok : σ × (Nat → Bool) → Prop} {s s' : σ × (Nat → Bool)}
    {rs : List (Option Nat)} (h : Exec (Guarded (fun s _ => ok s) (WithUsed call)) s rs s') (Inv : σ → (Nat → Bool) → Prop)
    (hstep : ∀ s used r s', Inv s used → ok (s, used) → call s r s' → Gives total used r (after used r) ∧ Inv s' (after used r))
    (h0 : Inv s.1 s.2) : Exec (Gives total) s.2 rs s'.2 ∧ Inv s'.1 s'.2 := by
  induction h with
  | nil s => exact ⟨Exec.nil s.2, h0⟩
  | @cons s s₁ s₂ r rs hs _ ih =>
    obtain ⟨hok, hcall, hused⟩ := hs
    obtain ⟨hgives, hinv⟩ := hstep s.1 s.2 r s₁.1 h0 hok hcall
    rw [← hused] at hgives hinv
    obtain ⟨hrun, hlast⟩ := ih hinv
    exact ⟨Exec.cons hgives hrun, hlast⟩

/-! ## The first numbers -/

/-- The numbers below a bound are in use. -/
def below (m n : Nat) : Bool := decide (n < m)

theorem freeFrom_below {m free : Nat} (hn : a + n = m) : freeFrom (below m) a (n + free) = free :=
  freeFrom_of_threshold _ (fun _ _ hi => decide_eq_true (by omega)) fun _ hi _ => decide_eq_false (by omega)

theorem firstFree_below {m : Nat} (hm : m < total) : FirstFree total (below m) m :=
  ⟨hm, decide_eq_false (Nat.lt_irrefl m), fun _ hj => decide_eq_true hj⟩

theorem after_below (m : Nat) : Lib.after (below m) (some m) = below (m + 1) := by
  funext n
  rw [Lib.after, update_apply]
  by_cases hn : n = m
  · rw [if_pos hn]
    exact (decide_eq_true (by omega)).symm
  · rw [if_neg hn]
    exact decide_eq_decide.2 (by omega)

end Lib
