import UBoot.Lemmas.Primes
import UBoot.Lemmas.Search

/-!
# The probing covers the table

`hcreate_r` makes the size a prime, so every step of the second hash function is coprime to it, and the slots tried from any start are
all slots of the table, each once.
-/

namespace UBoot

open Lib Htab PrimesAux

/-- The divisors that the loop of `isprime` comes to. -/
inductive Tries (number : Nat) : Nat → Prop where
  | first : Tries number 3
  | next {div : Nat} (h : Tries number div) (hsquare : div * div % 2 ^ 32 < number) (hdvd : number % div ≠ 0) : Tries number (div + 2)

/-- The `n`-th slot tried from `hval` on. -/
def Htab.tried (h : Htab) (hval n : Nat) : Nat := (back h.size (h.hval2 hval))^[n] hval

namespace HashProbeAux

variable {h : Htab} {key : CString} {hval : Nat}

theorem Tries.bounds {number div : Nat} (hb : number ≤ 65535 ^ 2) (h : Tries number div) : div % 2 = 1 ∧ div ≤ 65535 := by
  induction h with
  | first => decide
  | @next div h hsquare hdvd ih =>
    have hexact : div * div % 2 ^ 32 = div * div := Nat.mod_eq_of_lt (by have := Nat.mul_le_mul ih.2 ih.2; omega)
    have hlt : div < 65535 := Nat.lt_of_not_le fun hle => by
      have := Nat.mul_le_mul hle hle
      omega
    omega

theorem tried_mem (h5 : 5 ≤ h.size) (h1 : 1 ≤ hval) (hle : hval ≤ h.size) (n : Nat) : 1 ≤ h.tried hval n ∧ h.tried hval n ≤ h.size :=
  back_iterate_mem (h.hval2_lt h5 _) h1 hle n

theorem tried_inj (hp : h.size.Prime) (h5 : 5 ≤ h.size) {m n : Nat} (hm : m < h.size) (hn : n < h.size)
    (heq : h.tried hval m = h.tried hval n) : m = n :=
  back_iterate_inj (h.hval2_lt h5 _) (h.hval2_coprime hp h5 _) hm hn heq

/-- The probing goes on to the first slot that was never used, or to the start. -/
theorem probe_absent (hp : h.size.Prime) (h5 : 5 ≤ h.size) (h1 : 1 ≤ hval) (hle : hval ≤ h.size)
    (habsent : ∀ i, 1 ≤ i → i ≤ h.size → (h.table i).isEntryOf hval key = some false) (fuel n : Nat) (hfuel : n + fuel = h.size)
    (hpos : 0 < fuel) :
    ∃ m, m ≤ h.size ∧ h.probe key hval fuel (h.tried hval n) = some (.stopped (h.tried hval m)) ∧
      (∀ l, n < l → l < m → (h.table (h.tried hval l)).used ≠ 0) ∧ (m = h.size ∨ (h.table (h.tried hval m)).used = 0) := by
  induction fuel generalizing n with
  | zero => exact absurd hpos (Nat.lt_irrefl 0)
  | succ fuel ih =>
    have hstep : back h.size (h.hval2 hval) (h.tried hval n) = h.tried hval (n + 1) := (Function.iterate_succ_apply' ..).symm
    obtain ⟨hlo, hhi⟩ := tried_mem h5 h1 hle (n + 1)
    simp only [probe, hstep, habsent _ hlo hhi]
    by_cases hback : h.tried hval (n + 1) = hval
    · rw [if_pos hback]
      refine ⟨n + 1, by omega, by rw [hback], fun l _ _ => by omega, Or.inl ?_⟩
      by_contra hne
      have := tried_inj hp h5 (show n + 1 < h.size by omega) (by omega) (hback.trans (rfl : _ = h.tried hval 0))
      omega
    · rw [if_neg hback]
      by_cases hused : (h.table (h.tried hval (n + 1))).used = 0
      · exact ⟨n + 1, by omega, if_neg (not_not.2 hused), fun l _ _ => by omega, Or.inr hused⟩
      · have hmore : 0 < fuel := Nat.pos_of_ne_zero fun h0 => hback (by
          rw [show n + 1 = h.size by omega]
          exact back_iterate_period (h.hval2_lt h5 _) h1 hle)
        obtain ⟨m, hm, hprobe, hbefore, hend⟩ := ih (n + 1) (by omega) hmore
        refine ⟨m, hm, (if_pos hused).trans hprobe, fun l hl hlm => ?_, hend⟩
        rcases Nat.lt_or_eq_of_le hl with hlt | rfl
        · exact hbefore l hlt hlm
        · exact hused

end HashProbeAux

open HashProbeAux in
/-- The size is the least prime that is large enough, found without a product that is cut to 32 bits. In a table of prime size the slots
tried are all slots, each once, before the start comes again. So a search for a key that no slot holds ends, and at a slot that was
never used if there is one. -/
theorem hash_probe_covers : (∀ nel, 4 ≤ nel → nel ≤ 2 ^ 31 → ∃ n, hcreateR true nel none = some ⟨fun _ => Slot.zero, n, 0⟩ ∧ n.Prime ∧ nel ≤ n ∧
      (∀ p, p.Prime → nel ≤ p → n ≤ p) ∧ ∀ number ≤ n, ∀ div, Tries number div → div * div < 2 ^ 32) ∧
    ∀ h : Htab, h.size.Prime → 5 ≤ h.size → (∀ hval, 1 ≤ hval → hval ≤ h.size →
        (∀ i, 1 ≤ i → i ≤ h.size → ∃! n, n < h.size ∧ h.tried hval n = i) ∧ (∀ n, 1 ≤ h.tried hval n ∧ h.tried hval n ≤ h.size) ∧
          h.tried hval h.size = hval ∧ ∀ n, 0 < n → n < h.size → h.tried hval n ≠ hval) ∧
      ∀ key, (1 ≤ h.hval key ∧ h.hval key ≤ h.size) ∧ ((∀ i, 1 ≤ i → i ≤ h.size → (h.table i).isEntryOf (h.hval key) key = some false) →
          ∃ idx firstDeleted, h.locate key = some (.absent idx firstDeleted) ∧
            ((∃ i, 1 ≤ i ∧ i ≤ h.size ∧ (h.table i).used = 0) → 1 ≤ idx ∧ idx ≤ h.size ∧ (h.table idx).used = 0)) := by
  refine ⟨fun nel h4 hb => ?_, fun h hp h5 => ⟨fun hval h1 hle => ?_, fun key => ?_⟩⟩
  · obtain ⟨n, hcreate, hn, hnel, hleast⟩ := hcreateR_spec nel h4 hb
    refine ⟨n, hcreate, hn, hnel, hleast, fun number hnumber div htries => ?_⟩
    have hprime := hleast _ prime_above (by omega)
    obtain ⟨-, hdiv⟩ := Tries.bounds (by omega) htries
    have := Nat.mul_le_mul hdiv hdiv
    omega
  · refine ⟨fun i hi hi' => ?_, tried_mem h5 h1 hle, back_iterate_period (h.hval2_lt h5 _) h1 hle,
      fun n => back_iterate_ne_start (h.hval2_lt h5 _) (h.hval2_coprime hp h5 _)⟩
    obtain ⟨n, hn, htried⟩ := exists_back_iterate (h.hval2_lt h5 _) (h.hval2_coprime hp h5 _) h1 hle hi hi'
    exact ⟨n, ⟨hn, htried⟩, fun m hm => tried_inj hp h5 hm.1 hn (hm.2.trans htried.symm)⟩
  · have h1 := h.hval_pos key
    have hle := (h.hval_lt h5 key).le
    refine ⟨⟨h1, hle⟩, fun habsent => ?_⟩
    unfold locate
    by_cases hused : (h.table (h.hval key)).used = 0
    · exact ⟨h.hval key, 0, if_neg (not_not.2 hused), fun _ => ⟨h1, hle, hused⟩⟩
    · obtain ⟨m, hm, hprobe, hbefore, hend⟩ := probe_absent hp h5 h1 hle habsent h.size 0 (Nat.zero_add _) (by omega)
      have hmem := tried_mem h5 h1 hle m
      refine ⟨h.tried (h.hval key) m, if (h.table (h.hval key)).used = -1 then h.hval key else 0, ?_, fun hfree => ⟨hmem.1, hmem.2, ?_⟩⟩
      · simp only [ne_eq, hused, not_false_eq_true, if_true, habsent _ h1 hle]
        rw [show h.probe key (h.hval key) h.size (h.hval key) = _ from hprobe]
      · refine hend.resolve_left fun hall => ?_
        obtain ⟨i, hi, hi', hzero⟩ := hfree
        obtain ⟨l, hl, htried⟩ : ∃ l < h.size, h.tried (h.hval key) l = i :=
          exists_back_iterate (h.hval2_lt h5 _) (h.hval2_coprime hp h5 _) h1 hle hi hi'
        rw [← htried] at hzero
        rcases Nat.eq_zero_or_pos l with rfl | hlpos
        · exact hused hzero
        · exact hbefore l hlpos (by omega) hzero

/-- A table for four entries, and the slots tried from the third one of five. -/
theorem hash_probe_covers_five : (∃ n, hcreateR true 4 none = some ⟨fun _ => Slot.zero, n, 0⟩ ∧ n.Prime ∧ 4 ≤ n) ∧
      ∃! n, n < 5 ∧ (⟨fun _ => Slot.zero, 5, 0⟩ : Htab).tried 3 n = 1 := by
  obtain ⟨n, hcreate, hn, hnel, -⟩ := hash_probe_covers.1 4 (by decide) (by decide)
  have h := (hash_probe_covers.2 ⟨fun _ => Slot.zero, 5, 0⟩ Nat.prime_five (by decide)).1 3 (by decide) (by decide)
  exact ⟨⟨n, hcreate, hn, hnel⟩, h.1 1 (by decide) (by decide)⟩

end UBoot
