import UBoot.Hashtable
import Mathlib.NumberTheory.Bertrand
import Mathlib.NumberTheory.LucasPrimality
import Mathlib.Tactic.ReduceModChar

/-!
# The size `hcreate_r` chooses

`isprime` decides primality of an odd number as long as the squares it computes fit in 32 bits, and the loop of `hcreate_r`
stops at the first prime not smaller than the number asked for.
-/

namespace UBoot

namespace PrimesAux

variable {n : Nat}

/-- No number from two up to `div` (excluded) divides `n`. -/
def NoSmallDivisor (n div : Nat) : Prop := ∀ d, 2 ≤ d → d < div → ¬d ∣ n

/-- Where the loop of `isprime` stops: at a proper divisor, or past the square root with no divisor met. -/
theorem isprimeLoop_spec (hodd : n % 2 = 1) (hb : n ≤ 65535 ^ 2) (fuel div : Nat)
    (hd3 : 3 ≤ div) (hdo : div % 2 = 1) (hdn : div < n) (hdb : div ≤ 65535) (hno : NoSmallDivisor n div)
    (hfuel : n ≤ fuel + div) :
    ∃ r, isprimeLoop n fuel div = r ∧ 3 ≤ r ∧ r < n ∧ (r ∣ n ∨ n ≤ r * r ∧ NoSmallDivisor n r) := by
  induction fuel generalizing div with
  | zero => omega
  | succ fuel ih =>
    have hsq : div * div % 2 ^ 32 = div * div :=
      Nat.mod_eq_of_lt (by have := Nat.mul_le_mul hdb hdb; omega)
    unfold isprimeLoop
    rw [hsq]
    by_cases hc : div * div < n ∧ n % div ≠ 0
    · rw [if_pos hc]
      have hlt : div + 2 < n := by nlinarith [hc.1]
      have hle : div < 65535 := by nlinarith [hc.1]
      refine ih (div + 2) (by omega) (by omega) hlt (by omega) ?_ (by omega)
      intro d h2 hd
      rcases Nat.lt_trichotomy d div with hlt | rfl | hgt
      · exact hno d h2 hlt
      · exact fun hdvd => hc.2 (Nat.mod_eq_zero_of_dvd hdvd)
      · -- the number between is even and the number tested is odd
        obtain rfl : d = div + 1 := by omega
        intro hdvd
        have h2d : 2 ∣ div + 1 := by omega
        have := h2d.trans hdvd
        omega
    · rw [if_neg hc]
      refine ⟨div, rfl, hd3, hdn, ?_⟩
      by_cases hz : n % div = 0
      · exact Or.inl (Nat.dvd_of_mod_eq_zero hz)
      · exact Or.inr ⟨Nat.le_of_not_lt fun h => hc ⟨h, hz⟩, hno⟩

/-- `isprime` decides primality. -/
theorem isprime_iff (hodd : n % 2 = 1) (h5 : 5 ≤ n) (hb : n ≤ 65535 ^ 2) : isprime n = true ↔ n.Prime := by
  have hno : NoSmallDivisor n 3 := by
    intro d h2 h3 hd
    obtain rfl : d = 2 := by omega
    omega
  obtain ⟨r, hr, hr3, hrn, hcase⟩ := isprimeLoop_spec hodd hb n 3 (by omega) rfl (by omega) (by omega) hno (by omega)
  simp only [isprime, hr, bne_iff_ne, ne_eq]
  constructor
  · intro hmod
    obtain ⟨hsq, hsmall⟩ := hcase.resolve_left fun hd => hmod (Nat.mod_eq_zero_of_dvd hd)
    rw [Nat.prime_def_le_sqrt]
    refine ⟨by omega, ?_⟩
    intro m h2 hm hdvd
    have hmm : m * m ≤ n := Nat.le_sqrt.1 hm
    rcases Nat.lt_trichotomy m r with hlt | rfl | hgt
    · exact hsmall m h2 hlt hdvd
    · exact hmod (Nat.mod_eq_zero_of_dvd hdvd)
    · nlinarith
  · intro hp hmod
    rcases (Nat.dvd_prime hp).1 (Nat.dvd_of_mod_eq_zero hmod) with h | h <;> omega

/-- The loop of `hcreate_r` stops at the first prime from an odd number on, if there is one within reach. -/
theorem firstPrime_spec (fuel n q : Nat) (hodd : n % 2 = 1) (h5 : 5 ≤ n) (hq : q.Prime) (hnq : n ≤ q) (hb : q ≤ 65535 ^ 2)
    (hfuel : q ≤ n + 2 * fuel) :
    (firstPrime fuel n).Prime ∧ n ≤ firstPrime fuel n ∧ ∀ p, p.Prime → n ≤ p → firstPrime fuel n ≤ p := by
  induction fuel generalizing n with
  | zero =>
    obtain rfl : n = q := by omega
    exact ⟨hq, Nat.le_refl _, fun p _ hp => hp⟩
  | succ fuel ih =>
    unfold firstPrime
    by_cases hp : isprime n = true
    · rw [if_pos hp]
      exact ⟨(isprime_iff hodd h5 (by omega)).1 hp, Nat.le_refl _, fun p _ hp => hp⟩
    · rw [if_neg hp]
      have hnp : ¬n.Prime := fun h => hp ((isprime_iff hodd h5 (by omega)).2 h)
      -- a prime from `n` on is odd and is not `n`
      have hskip (p : Nat) (hpp : p.Prime) (hle : n ≤ p) : n + 2 ≤ p := by
        have hpo := hpp.eq_two_or_odd
        have hne : p ≠ n := fun h => hnp (h ▸ hpp)
        omega
      obtain ⟨h1, h2, h3⟩ := ih (n + 2) (by omega) (by omega) (hskip q hq hnq) (by omega)
      exact ⟨h1, by omega, fun p hpp hle => h3 p hpp (hskip p hpp hle)⟩

theorem or_one_cases (n : Nat) : (n ||| 1) % 2 = 1 ∧ n ≤ n ||| 1 ∧ (n ||| 1) ≤ n + 1 := by
  have h1 : (n ||| 1) % 2 = 1 := by simp
  have h2 : (n ||| 1) / 2 = n / 2 := by
    rw [Nat.or_div_two]
    simp
  omega

/-- A prime above all that `nel` may be. -/
theorem prime_above : Nat.Prime (3 * 2 ^ 30 + 1) := by
  refine lucas_primality _ 5 (by reduce_mod_char) fun q hq hdvd => ?_
  have hcases : q = 3 ∨ q = 2 := by
    rcases hq.dvd_mul.1 (show q ∣ 3 * 2 ^ 30 from hdvd) with h3 | h2
    · exact Or.inl ((Nat.prime_dvd_prime_iff_eq hq Nat.prime_three).1 h3)
    · exact Or.inr ((Nat.prime_dvd_prime_iff_eq hq Nat.prime_two).1 (hq.dvd_of_dvd_pow h2))
  rcases hcases with rfl | rfl
  · reduce_mod_char
    decide
  · reduce_mod_char
    decide

end PrimesAux

open PrimesAux

/-- The table `hcreate_r` makes for `nel` entries has the least prime not smaller than `nel` as its size and nothing in it. -/
theorem hcreateR_spec (nel : Nat) (h4 : 4 ≤ nel) (hb : nel ≤ 2 ^ 31) :
    ∃ n, hcreateR true nel none = some ⟨fun _ => Slot.zero, n, 0⟩ ∧ n.Prime ∧ nel ≤ n ∧ ∀ p, p.Prime → nel ≤ p → n ≤ p := by
  obtain ⟨hodd, hle, hle'⟩ := or_one_cases nel
  obtain ⟨q, hq, hle2, hreach, hq2⟩ : ∃ q, q.Prime ∧ (nel ||| 1) ≤ q ∧ q ≤ 3 * (nel ||| 1) ∧ q ≤ 3 * 2 ^ 30 + 1 := by
    rcases Nat.lt_or_ge (2 ^ 30) nel with hlarge | hsmall
    · exact ⟨_, prime_above, by omega, by omega, Nat.le_refl _⟩
    · obtain ⟨q, hq, hlt, hq2⟩ := Nat.exists_prime_lt_and_le_two_mul (nel ||| 1) (by omega)
      exact ⟨q, hq, hlt.le, by omega, by omega⟩
  obtain ⟨h1, h2, h3⟩ := firstPrime_spec (nel ||| 1) (nel ||| 1) q hodd (by omega) hq hle2 (by omega) (by omega)
  refine ⟨_, rfl, h1, by omega, fun p hp hnp => h3 p hp ?_⟩
  have hpo := hp.eq_two_or_odd
  omega

end UBoot
