import Mathlib.Data.Nat.ModEq
import Mathlib.Data.Nat.Prime.Basic
import Mathlib.Logic.Function.Iterate
import Mathlib.Order.Interval.Finset.Nat

/-!
# Stepping backwards round a table

The positions of a table are `1 .. p`. `back p d i` is the position `d` places before `i`, going round from `1` to `p`: the
step of a double-hashing search. When `d` and `p` are coprime the first `p` positions visited from any start are all
the positions of the table, each once.
-/

namespace Lib

/-- The position `d` places before `i` in a table with positions `1 .. p`. -/
def back (p d i : Nat) : Nat := if i ≤ d then p + i - d else i - d

variable {p d : Nat}

/-- A step back stays in the table. -/
theorem back_mem (hd : d < p) {i : Nat} (hi : 1 ≤ i) (hip : i ≤ p) : 1 ≤ back p d i ∧ back p d i ≤ p := by
  unfold back
  split <;> omega

/-- The positions visited from a start stay in the table. -/
theorem back_iterate_mem (hd : d < p) {h : Nat} (h1 : 1 ≤ h) (hp : h ≤ p) (n : Nat) : 1 ≤ (back p d)^[n] h ∧ (back p d)^[n] h ≤ p := by
  induction n with
  | zero => exact ⟨h1, hp⟩
  | succ n ih =>
    rw [Function.iterate_succ_apply']
    exact back_mem hd ih.1 ih.2

/-- A step back subtracts `d`, modulo the size of the table. -/
theorem back_add_modEq (hd : d < p) (i : Nat) : back p d i + d ≡ i [MOD p] := by
  unfold back
  split
  · rw [show p + i - d + d = i + p by omega]
    exact Nat.add_modEq_right
  · rw [show i - d + d = i by omega]

/-- After `n` steps back, `n * d` has been subtracted, modulo the size of the table. -/
theorem back_iterate_add_modEq (hd : d < p) (h n : Nat) : (back p d)^[n] h + n * d ≡ h [MOD p] := by
  induction n with
  | zero => simp [Nat.ModEq.refl]
  | succ n ih =>
    rw [Function.iterate_succ_apply', Nat.succ_mul, show ∀ x : Nat, x + (n * d + d) = x + d + n * d by omega]
    exact ((back_add_modEq hd _).add_right (n * d)).trans ih

/-- Two positions of the table that agree modulo its size are the same. -/
theorem eq_of_modEq_of_mem {i j : Nat} (hi : 1 ≤ i) (hip : i ≤ p) (hj : 1 ≤ j) (hjp : j ≤ p) (h : i ≡ j [MOD p]) : i = j := by
  unfold Nat.ModEq at h
  rcases Nat.lt_or_ge i p with hi' | hi' <;> rcases Nat.lt_or_ge j p with hj' | hj'
  · rwa [Nat.mod_eq_of_lt hi', Nat.mod_eq_of_lt hj'] at h
  · obtain rfl : j = p := by omega
    rw [Nat.mod_eq_of_lt hi', Nat.mod_self] at h
    omega
  · obtain rfl : i = p := by omega
    rw [Nat.mod_eq_of_lt hj', Nat.mod_self] at h
    omega
  · omega

/-- The first `p` positions visited are distinct. -/
theorem back_iterate_inj (hd : d < p) (hc : Nat.Coprime d p) {h m n : Nat} (hm : m < p) (hn : n < p)
    (he : (back p d)^[m] h = (back p d)^[n] h) : m = n := by
  have key : m * d ≡ n * d [MOD p] := by
    apply Nat.ModEq.add_left_cancel' ((back p d)^[m] h)
    calc (back p d)^[m] h + m * d ≡ h [MOD p] := back_iterate_add_modEq hd h m
      _ ≡ (back p d)^[n] h + n * d [MOD p] := (back_iterate_add_modEq hd h n).symm
      _ = (back p d)^[m] h + n * d := by rw [he]
  have key' : m ≡ n [MOD p] := Nat.ModEq.cancel_right_of_coprime (by rwa [Nat.gcd_comm]) key
  unfold Nat.ModEq at key'
  rwa [Nat.mod_eq_of_lt hm, Nat.mod_eq_of_lt hn] at key'

/-- After `p` steps the search is back at its start. -/
theorem back_iterate_period (hd : d < p) {h : Nat} (h1 : 1 ≤ h) (hp : h ≤ p) : (back p d)^[p] h = h := by
  have hmem := back_iterate_mem hd h1 hp p
  apply eq_of_modEq_of_mem hmem.1 hmem.2 h1 hp
  have key := back_iterate_add_modEq hd h p
  exact (show (back p d)^[p] h + p * d ≡ (back p d)^[p] h [MOD p] by simp [Nat.ModEq]).symm.trans key

/-- The search comes back to its start only after `p` steps. -/
theorem back_iterate_ne_start (hd : d < p) (hc : Nat.Coprime d p) {h n : Nat} (hn0 : 0 < n) (hn : n < p) : (back p d)^[n] h ≠ h := by
  intro he
  have := back_iterate_inj hd hc hn (show 0 < p by omega) (by rw [he]; rfl)
  omega

/-- Every position of the table is visited within the first `p` steps. -/
theorem exists_back_iterate (hd : d < p) (hc : Nat.Coprime d p) {h : Nat} (h1 : 1 ≤ h) (hp : h ≤ p) {i : Nat} (hi : 1 ≤ i)
    (hip : i ≤ p) : ∃ n < p, (back p d)^[n] h = i := by
  have hinj : Set.InjOn (fun n => (back p d)^[n] h) (Finset.range p) := by
    intro m hm n hn he
    simp only [Finset.coe_range, Set.mem_Iio] at hm hn
    exact back_iterate_inj hd hc hm hn he
  have hmaps : Set.MapsTo (fun n => (back p d)^[n] h) (Finset.range p) (Finset.Icc 1 p) := by
    intro n _
    have := back_iterate_mem hd h1 hp n
    simpa using this
  have hsurj := Finset.surjOn_of_injOn_of_card_le _ hmaps hinj (by simp)
  obtain ⟨n, hn, he⟩ := hsurj (show i ∈ (Finset.Icc 1 p : Finset Nat) by simp [hi, hip])
  exact ⟨n, by simpa using hn, he⟩

end Lib
