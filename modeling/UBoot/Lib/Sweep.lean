import Mathlib.Data.List.Basic

/-!
# Sweeps over addresses

A sweep goes up from its start. An address counts toward the length of the sweep or does not, and it is taken or passed over; the sweep
ends at its stop, or when as many addresses have counted as it is long. `reaches_chunk` says what a chunk of like addresses adds, which is
what a loop over chunks does in one step.
-/

namespace Lib

open List

/-- Where a sweep starts and stops, its length, which addresses count toward it, and which it takes. -/
structure Sweep where
  start : Nat
  stop : Nat
  length : Nat
  counts : Nat → Bool
  takes : Nat → Bool

namespace Sweep

/-- The same sweep with another start and length. -/
def behind (s : Sweep) (start length : Nat) : Sweep := { s with start := start, length := length }

/-- How many addresses between the start and `a` count. -/
def counted (s : Sweep) (a : Nat) : Nat := (List.range' s.start (a - s.start)).countP s.counts

/-- The sweep takes `a`, and has not counted its length before. -/
def Reaches (s : Sweep) (a : Nat) : Prop := s.start ≤ a ∧ a < s.stop ∧ s.takes a = true ∧ s.counted a < s.length

/-- The length is used up before any address that is not of the given kind would be taken. -/
def Spares (s : Sweep) (p : Nat → Prop) : Prop := ∀ a, s.start ≤ a → a < s.stop → s.takes a = true → ¬p a → s.length ≤ s.counted a

theorem spares_iff {s : Sweep} {p : Nat → Prop} : s.Spares p ↔ ∀ a, s.Reaches a → p a := by
  constructor
  · rintro h a ⟨h₁, h₂, h₃, h₄⟩
    by_contra hp
    exact absurd h₄ (Nat.not_lt.2 (h a h₁ h₂ h₃ hp))
  · intro h a h₁ h₂ h₃ hp
    by_contra h₄
    exact hp (h a ⟨h₁, h₂, h₃, Nat.lt_of_not_le h₄⟩)

/-- Nothing is reached with no length. -/
theorem not_reaches_zero {s : Sweep} {o a : Nat} : ¬(s.behind o 0).Reaches a := fun h => Nat.not_lt_zero _ h.2.2.2

/-- Where all addresses count. -/
theorem counted_all {s : Sweep} (h : ∀ a, s.counts a = true) (a : Nat) : s.counted a = a - s.start := by
  rw [counted, countP_eq_length.2 fun b _ => h b, length_range']

theorem counted_mono {s : Sweep} {a b : Nat} (h : a ≤ b) : s.counted a ≤ s.counted b := by
  rw [counted, counted, show b - s.start = (a - s.start) + (b - s.start - (a - s.start)) by omega, ← range'_append_1, countP_append]
  exact Nat.le_add_right _ _

/-- A sweep that begins at or behind `lo` and whose length is used up before `hi` stays between the two. -/
theorem spares_of_room {s : Sweep} {lo hi : Nat} (hlo : lo ≤ s.start) (hroom : s.length ≤ s.counted hi) : s.Spares fun a => lo ≤ a ∧ a < hi := by
  intro a ha _ _ hout
  have hhi : hi ≤ a := Nat.le_of_not_lt fun h => hout ⟨Nat.le_trans hlo ha, h⟩
  exact Nat.le_trans hroom (counted_mono hhi)

/-- What counts up to `a` counts before `m` or from `m` on. -/
theorem counted_behind {s : Sweep} {o m l k a : Nat} (hm : o ≤ m) (ha : m ≤ a) :
    (s.behind o l).counted a = (s.behind o l).counted m + (s.behind m k).counted a := by
  have hsum : a - o = (m - o) + (a - m) := by omega
  simp only [counted, behind]
  rw [hsum, ← range'_append_1, countP_append, Nat.add_sub_cancel' hm]

/-- A chunk of like addresses counts as a whole or not at all. -/
theorem counted_chunk {s : Sweep} {o m l : Nat} {c : Bool} (hc : ∀ a, o ≤ a → a < m → s.counts a = c) :
    (s.behind o l).counted m = if c then m - o else 0 := by
  have hall : ∀ a ∈ List.range' o (m - o), s.counts a = c := by
    intro a ha
    rw [mem_range'_1] at ha
    exact hc a ha.1 (by omega)
  simp only [counted, behind]
  cases c with
  | true => rw [countP_eq_length.2 hall, length_range', if_pos rfl]
  | false =>
    rw [if_neg Bool.false_ne_true, countP_eq_zero]
    intro a ha
    rw [hall a ha]
    exact Bool.false_ne_true

/-- A chunk of like addresses adds those of its addresses that are within the length, if they are taken, and what is reached behind it. -/
theorem reaches_chunk {s : Sweep} {o m l a : Nat} {c t : Bool} (hm : o ≤ m) (hc : ∀ a, o ≤ a → a < m → s.counts a = c)
    (ht : ∀ a, o ≤ a → a < m → s.takes a = t) : (s.behind o l).Reaches a ↔
      (o ≤ a ∧ a < m ∧ a < s.stop ∧ t = true ∧ (if c then a - o else 0) < l) ∨ (s.behind m (l - if c then m - o else 0)).Reaches a := by
  rcases Nat.lt_or_ge a m with ham | ham
  · have hcnt : o ≤ a → (s.behind o l).counted a = if c then a - o else 0 := by
      intro _
      exact counted_chunk fun b h₁ h₂ => hc b h₁ (Nat.lt_trans h₂ ham)
    have hno : ¬(s.behind m (l - if c then m - o else 0)).Reaches a := fun h => absurd h.1 (Nat.not_le.2 ham)
    constructor
    · rintro ⟨h₁, h₂, h₃, h₄⟩
      have h₁ : o ≤ a := h₁
      rw [hcnt h₁] at h₄
      exact Or.inl ⟨h₁, ham, h₂, (ht a h₁ ham).symm.trans h₃, h₄⟩
    · rintro (⟨h₁, -, h₂, h₃, h₄⟩ | h)
      · exact ⟨h₁, h₂, (ht a h₁ ham).trans h₃, by rw [hcnt h₁]; exact h₄⟩
      · exact absurd h hno
  · have hsum := counted_behind (s := s) (l := l) (k := l - if c then m - o else 0) hm ham
    rw [counted_chunk hc] at hsum
    constructor
    · rintro ⟨-, h₂, h₃, h₄⟩
      rw [hsum] at h₄
      have h₄ : (if c then m - o else 0) + (s.behind m (l - if c then m - o else 0)).counted a < l := h₄
      exact Or.inr ⟨ham, h₂, h₃, Nat.lt_sub_of_add_lt (by rw [Nat.add_comm]; exact h₄)⟩
    · rintro (⟨-, h, -⟩ | ⟨-, h₂, h₃, h₄⟩)
      · exact absurd h (Nat.not_lt.2 ham)
      · have h₄ : (s.behind m (l - if c then m - o else 0)).counted a < l - if c then m - o else 0 := h₄
        refine ⟨Nat.le_trans hm ham, h₂, h₃, ?_⟩
        rw [hsum]
        show _ < l
        omega

end Sweep

end Lib
