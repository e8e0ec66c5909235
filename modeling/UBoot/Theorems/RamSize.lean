import UBoot.RamSize
import Mathlib.Data.Nat.Basic

/-!
# The size of the RAM, and its words

`get_ram_size` gives the size of the bank, at most that of the range. The words behind the base are as they were; the word at the base is
put back only where the bank is smaller than the range, by the restoring of its mirror images.
-/

namespace UBoot

open Function

namespace RamSize

variable {w k m base i : Nat} {words : Nat → BitVec w} {save : Nat → BitVec w} {bank : RamBank w}
variable {fuel : Nat} {g : Nat → BitVec w}

/-- The words of a bank when the first loop has been at the `i` highest powers of two below `2 ^ m`. -/
def probed (k m base : Nat) (words : Nat → BitVec w) : Nat → Nat → BitVec w
  | 0 => words
  | i + 1 => Function.update (probed k m base words i) ((base + 2 ^ (m - 1 - i)) % 2 ^ k) (ramPattern w (2 ^ (m - 1 - i)))

/-- What the first loop has saved after `i` steps. -/
def Saves (k m base : Nat) (words save : Nat → BitVec w) (i : Nat) : Prop :=
  ∀ j < i, save j = probed k m base words j ((base + 2 ^ (m - 1 - j)) % 2 ^ k)

/-! ## The first loop -/

theorem half_pow (hi : i < m) : 2 ^ m / 2 ^ (i + 1) = 2 ^ (m - 1 - i) := by
  rw [Nat.pow_div hi (by decide), Nat.sub_sub, Nat.add_comm 1 i]

theorem Saves.put (h : Saves k m base words save i) :
    Saves k m base words (Function.update save i (probed k m base words i ((base + 2 ^ (m - 1 - i)) % 2 ^ k))) (i + 1) := by
  intro j hj
  by_cases hji : j = i
  · rw [hji, update_self]
  · rw [update_of_ne hji]
    exact h j (Nat.lt_of_le_of_ne (Nat.le_of_lt_succ hj) hji)

/-- The first loop saves and writes at all powers of two, by induction on those that are left. -/
theorem saveLoop_eq (hm : m ≤ 31) (hi : i ≤ m) (hfuel : m - i < fuel) (hsave : Saves k m base words save i) :
    ∃ save', Saves k m base words save' m ∧ ramSaveLoop base fuel (2 ^ m / 2 ^ (i + 1)) ⟨⟨2 ^ k, probed k m base words i⟩, save, i⟩ =
        some ⟨⟨2 ^ k, probed k m base words m⟩, save', m⟩ := by
  induction fuel generalizing i save with
  | zero => exact absurd hfuel (Nat.not_lt_zero _)
  | succ fuel ih =>
    rcases Nat.lt_or_eq_of_le hi with hlt | rfl
    · obtain ⟨save', hsaves, hloop⟩ := ih hlt (by omega) hsave.put
      refine ⟨save', hsaves, ?_⟩
      rw [← hloop, ramSaveLoop, half_pow hlt, if_pos (Nat.two_pow_pos _), RamProbe.put, if_pos (by simp only; omega), ← half_pow hlt,
        Nat.div_div_eq_div_mul, ← Nat.pow_succ]
      simp only [half_pow hlt]
      rfl
    · refine ⟨save, hsave, ?_⟩
      have hzero : 2 ^ i / 2 ^ (i + 1) = 0 := Nat.div_eq_of_lt (Nat.pow_lt_pow_right (by decide) (Nat.lt_succ_self i))
      rw [ramSaveLoop, hzero, if_neg (Nat.lt_irrefl 0)]

/-! ## Restoring -/

theorem restore_step {f : Nat → BitVec w} {c : Nat} {v : BitVec w} {p : Nat → Prop}
    (h : ∀ a, ¬p a → g a = Function.update f c v a) : ∀ a, ¬(p a ∧ a ≠ c) → Function.update g c (f c) a = f a := by
  intro a ha
  by_cases hc : a = c
  · rw [hc, update_self]
  · rw [update_of_ne hc, h a fun hp => ha ⟨hp, hc⟩, update_of_ne hc]

theorem double_pow (hi : i < m) : 2 ^ (m - (i + 1)) * 2 = 2 ^ (m - i) := by
  rw [← Nat.pow_succ]
  congr 1
  omega

theorem pow_lt (hi : i < m) : 2 ^ (m - (i + 1)) < 2 ^ m := Nat.pow_lt_pow_right (by decide) (by omega)

/-- The steps that are left are taken back, by induction on them. -/
theorem restoreLoop_eq (hi : i ≤ m) (hfuel : i < fuel) (hsave : Saves k m base words save m) :
    ramRestoreLoop base (2 ^ m) fuel (2 ^ (m - i)) ⟨⟨2 ^ k, probed k m base words i⟩, save, i⟩ = some ⟨⟨2 ^ k, words⟩, save, 0⟩ := by
  induction i generalizing fuel with
  | zero =>
    obtain ⟨fuel, rfl⟩ := Nat.exists_eq_add_one.2 hfuel
    rw [ramRestoreLoop, Nat.sub_zero, if_neg (Nat.lt_irrefl _)]
    rfl
  | succ i ih =>
    obtain ⟨fuel, rfl⟩ := Nat.exists_eq_add_one.2 (Nat.lt_of_le_of_lt (Nat.zero_le _) hfuel)
    have hcell : m - (i + 1) = m - 1 - i := by omega
    have hback : (RamProbe.mk ⟨2 ^ k, probed k m base words (i + 1)⟩ save (i + 1)).back (base + 2 ^ (m - (i + 1))) =
        some ⟨⟨2 ^ k, probed k m base words i⟩, save, i⟩ := by
      have hwords := restore_step (p := fun _ => False) (g := probed k m base words (i + 1)) (fun _ _ => rfl)
      unfold RamProbe.back RamBank.write
      simp only [Option.some.injEq, RamProbe.mk.injEq, RamBank.mk.injEq, true_and, and_true]
      funext a
      rw [hsave i hi, hcell]
      exact hwords a (fun h => h.1)
    rw [ramRestoreLoop, if_pos (pow_lt hi), hback]
    simp only
    rw [double_pow hi]
    exact ih (Nat.le_of_lt hi) (Nat.lt_of_succ_lt_succ hfuel)

/-! ## The last loop -/

/-- The words are as they were `i` steps before the end of the first loop, apart from the word at the base, which is 0. -/
structure Probing (k m base : Nat) (words : Nat → BitVec w) (i : Nat) (g : Nat → BitVec w) : Prop where
  other : ∀ a, a ≠ base % 2 ^ k → g a = probed k m base words i a
  base : g (base % 2 ^ k) = 0

theorem cell_ne {e : Nat} (he : e < k) : (base + 2 ^ e) % 2 ^ k ≠ base % 2 ^ k := by
  have hlt : 2 ^ e < 2 ^ k := Nat.pow_lt_pow_right (by decide) he
  have hpos := Nat.two_pow_pos e
  have hmod := Nat.mod_lt base (Nat.two_pow_pos k)
  rw [Nat.add_mod, Nat.mod_eq_of_lt hlt]
  rcases Nat.lt_or_ge (base % 2 ^ k + 2 ^ e) (2 ^ k) with hsmall | hlarge
  · rw [Nat.mod_eq_of_lt hsmall]
    omega
  · rw [Nat.mod_eq_sub_mod hlarge, Nat.mod_eq_of_lt (by omega)]
    omega

theorem pattern_ne_zero (hw : 8 ≤ w) {n : Nat} (hn : n ≤ 2 ^ (w - 1)) : ramPattern w n ≠ 0 := by
  intro h
  have hall : BitVec.ofNat w n = BitVec.allOnes w := by
    rw [← BitVec.not_zero, ← show ramPattern w n = 0#w from h, ramPattern, BitVec.not_not]
  have hnat := congrArg BitVec.toNat hall
  rw [BitVec.toNat_ofNat, BitVec.toNat_allOnes] at hnat
  have hdouble : 2 ^ w = 2 * 2 ^ (w - 1) := by rw [← Nat.pow_succ', Nat.succ_eq_add_one, Nat.sub_add_cancel (by omega)]
  have hbig : 2 ^ 7 ≤ 2 ^ (w - 1) := Nat.pow_le_pow_right (by decide) (by omega)
  rw [Nat.mod_eq_of_lt (by omega)] at hnat
  omega

theorem probe_step (hi : i < m) (hsave : Saves k m base words save m) (h : Probing k m base words (i + 1) g)
    (he : m - (i + 1) < k) :
    RamBank.read ⟨2 ^ k, g⟩ (base + 2 ^ (m - (i + 1))) = ramPattern w (2 ^ (m - (i + 1))) ∧
      Probing k m base words i (Function.update g ((base + 2 ^ (m - (i + 1))) % 2 ^ k) (save i)) := by
  have hcell : m - (i + 1) = m - 1 - i := by omega
  have hne : (base + 2 ^ (m - (i + 1))) % 2 ^ k ≠ base % 2 ^ k := cell_ne he
  refine ⟨?_, ?_, ?_⟩
  · refine (h.other _ hne).trans ?_
    rw [hcell]
    exact update_self _ _ _
  · intro a ha
    rw [hsave i hi, ← hcell]
    refine restore_step (p := fun a => a = base % 2 ^ k) (g := g) (v := ramPattern w (2 ^ (m - (i + 1)))) ?_ a fun hp => ha hp.1
    intro a ha
    rw [h.other a ha, hcell]
    rfl
  · rw [update_of_ne (Ne.symm hne)]
    exact h.base

/-- In a bank that is as large as the range, or larger, every pattern is read. -/
theorem probeLoop_full (hmk : m ≤ k) (hi : i ≤ m) (hfuel : i < fuel)
    (hsave : Saves k m base words save m) (h : Probing k m base words i g) :
    ∃ g', Probing k m base words 0 g' ∧
      ramProbeLoop base (2 ^ m) fuel (2 ^ (m - i)) ⟨⟨2 ^ k, g⟩, save, i⟩ = some (none, ⟨⟨2 ^ k, g'⟩, save, 0⟩) := by
  induction i generalizing fuel g with
  | zero =>
    obtain ⟨fuel, rfl⟩ := Nat.exists_eq_add_one.2 hfuel
    refine ⟨g, h, ?_⟩
    rw [ramProbeLoop, Nat.sub_zero, if_neg (Nat.lt_irrefl _)]
  | succ i ih =>
    obtain ⟨fuel, rfl⟩ := Nat.exists_eq_add_one.2 (Nat.lt_of_le_of_lt (Nat.zero_le _) hfuel)
    obtain ⟨hread, hstep⟩ := probe_step hi hsave h (by omega)
    obtain ⟨g', hg', hloop⟩ := ih (Nat.le_of_lt hi) (Nat.lt_of_succ_lt_succ hfuel) hstep
    refine ⟨g', hg', ?_⟩
    rw [ramProbeLoop, if_pos (pow_lt hi)]
    simp only [RamProbe.back, RamBank.write]
    rw [if_neg (not_not.2 hread), double_pow hi]
    exact hloop

/-- In a smaller bank, the first pattern that is not read is the one at the size of the bank, where the word is 0. -/
theorem probeLoop_short (hkm : k < m) (hpattern : ramPattern w (2 ^ k) ≠ 0) (hi : i ≤ m)
    (hki : m - i ≤ k) (hfuel : i < fuel) (hsave : Saves k m base words save m) (h : Probing k m base words i g) :
    ramProbeLoop base (2 ^ m) fuel (2 ^ (m - i)) ⟨⟨2 ^ k, g⟩, save, i⟩ = some (some (2 ^ k), ⟨⟨2 ^ k, words⟩, save, 0⟩) := by
  induction i generalizing fuel g with
  | zero => omega
  | succ i ih =>
    obtain ⟨fuel, rfl⟩ := Nat.exists_eq_add_one.2 (Nat.lt_of_le_of_lt (Nat.zero_le _) hfuel)
    rw [ramProbeLoop, if_pos (pow_lt hi)]
    simp only [RamProbe.back, RamBank.write]
    rcases Nat.lt_or_eq_of_le hki with hlt | heq
    · obtain ⟨hread, hstep⟩ := probe_step hi hsave h hlt
      rw [if_neg (not_not.2 hread), double_pow hi]
      exact ih (Nat.le_of_lt hi) (by omega) (Nat.lt_of_succ_lt_succ hfuel) hstep
    · -- the mirror image of the base
      have hcell : m - 1 - i = k := by omega
      have hbase : (base + 2 ^ k) % 2 ^ k = base % 2 ^ k := Nat.add_mod_right base (2 ^ k)
      have hread : RamBank.read ⟨2 ^ k, g⟩ (base + 2 ^ k) ≠ ramPattern w (2 ^ k) := by
        change g ((base + 2 ^ k) % 2 ^ k) ≠ ramPattern w (2 ^ k)
        rw [hbase, h.base]
        exact hpattern.symm
      have hwords : Function.update g ((base + 2 ^ k) % 2 ^ k) (save i) = probed k m base words i := by
        funext a
        rw [hsave i hi, hcell]
        refine restore_step (p := fun a => a = base % 2 ^ k) (g := g) (v := ramPattern w (2 ^ k)) ?_ a fun hp => hp.2 (hp.1.trans hbase.symm)
        intro a ha
        rw [h.other a ha, ← hcell]
        rfl
      have hdouble : 2 ^ k * 2 = 2 ^ (m - i) := by rw [← heq, double_pow hi]
      rw [heq, if_pos hread, hwords, hdouble, restoreLoop_eq (Nat.le_of_lt hi) (Nat.lt_of_succ_lt_succ hfuel) hsave]
      rfl

/-! ## The whole -/

theorem Saves.update (h : Saves k m base words save m) (v : BitVec w) : Saves k m base words (Function.update save m v) m := by
  intro j hj
  rw [update_of_ne (Nat.ne_of_lt hj)]
  exact h j hj

/-- What `get_ram_size` gives: the last loop begins where the first one has ended, with the word at the base set to 0. -/
theorem getRamSize_eq (k base : Nat) (hw : 8 ≤ w) (hm : m ≤ 31) (words : Nat → BitVec w) :
    ∃ g save, Saves k m base words save m ∧ Probing k m base words m g ∧ getRamSize base (2 ^ m * sizeofLong w) ⟨2 ^ k, words⟩ =
        (ramProbeLoop base (2 ^ m) (2 ^ m + 1) (2 ^ (m - m)) ⟨⟨2 ^ k, g⟩, save, m⟩).map fun (found, st) =>
          match found with
          | some cnt => (cnt * sizeofLong w, st.bank)
          | none => (2 ^ m * sizeofLong w, st.bank) := by
  have hsizeof : 0 < sizeofLong w := Nat.div_pos hw (by decide)
  have hfuel : m - 0 < 2 ^ m + 1 := Nat.lt_succ_of_lt (Nat.lt_two_pow_self)
  have hnone : Saves k m base words (fun _ => 0) 0 := nofun
  obtain ⟨save, hsave, hloop⟩ := saveLoop_eq hm (Nat.zero_le m) hfuel hnone
  have hstart : probed k m base words 0 = words := rfl
  rw [hstart, Nat.zero_add, Nat.pow_one] at hloop
  refine ⟨Function.update (probed k m base words m) (base % 2 ^ k) 0,
    Function.update save m (probed k m base words m (base % 2 ^ k)), hsave.update _, ⟨?_, update_self _ _ _⟩, ?_⟩
  · intro a ha
    exact update_of_ne ha _ _
  · have hput : (RamProbe.mk ⟨2 ^ k, probed k m base words m⟩ save m).put base 0 =
        some ⟨⟨2 ^ k, Function.update (probed k m base words m) (base % 2 ^ k) 0⟩,
          Function.update save m (probed k m base words m (base % 2 ^ k)), m⟩ := if_pos (Nat.lt_succ_of_le hm)
    have hread : RamBank.read ⟨2 ^ k, Function.update (probed k m base words m) (base % 2 ^ k) (0 : BitVec w)⟩ base = 0 :=
      update_self _ _ _
    unfold getRamSize
    simp only
    rw [Nat.mul_div_cancel _ hsizeof]
    rw [hloop]
    simp only
    rw [hput]
    simp only
    rw [if_neg (not_not.2 hread), Nat.sub_self]
    rfl

theorem pow_le_of_fits (hw : 8 ≤ w) (hkm : k < m) (hfits : 2 ^ m * sizeofLong w < 2 ^ w) : 2 ^ k ≤ 2 ^ (w - 1) := by
  have hsizeof : 0 < sizeofLong w := Nat.div_pos hw (by decide)
  have hmw : m < w := (Nat.pow_lt_pow_iff_right (by decide)).1 (Nat.lt_of_le_of_lt (Nat.le_mul_of_pos_right _ hsizeof) hfits)
  exact Nat.pow_le_pow_right (by decide) (by omega)

/-- The size is always right; the words are as they were, apart from the word at the base in a bank as large as the range. -/
theorem getRamSize_spec (k base : Nat) (hw : 8 ≤ w) (hm : m ≤ 31) (hfits : 2 ^ m * sizeofLong w < 2 ^ w) (words : Nat → BitVec w) :
    ∃ g, getRamSize base (2 ^ m * sizeofLong w) ⟨2 ^ k, words⟩ = some (2 ^ min k m * sizeofLong w, ⟨2 ^ k, g⟩) ∧
      (∀ a, a ≠ base % 2 ^ k → g a = words a) ∧ g (base % 2 ^ k) = if k < m then words (base % 2 ^ k) else 0 := by
  obtain ⟨g, save, hsave, hprobing, hsize⟩ := getRamSize_eq k base hw hm words
  have hfuel : m < 2 ^ m + 1 := Nat.lt_succ_of_lt (Nat.lt_two_pow_self)
  rcases Nat.lt_or_ge k m with hkm | hmk
  · have hpattern := pattern_ne_zero hw (pow_le_of_fits hw hkm hfits)
    have hloop := probeLoop_short hkm hpattern (Nat.le_refl m) (by omega) hfuel hsave hprobing
    refine ⟨words, ?_, fun _ _ => rfl, (if_pos hkm).symm⟩
    rw [hsize, hloop, Nat.min_eq_left (Nat.le_of_lt hkm)]
    rfl
  · obtain ⟨g', hprobing', hloop⟩ := probeLoop_full hmk (Nat.le_refl m) hfuel hsave hprobing
    refine ⟨g', ?_, hprobing'.other, ?_⟩
    · rw [hsize, hloop, Nat.min_eq_right hmk]
      rfl
    · rw [if_neg (Nat.not_lt.2 hmk)]
      exact hprobing'.base

end RamSize

open RamSize in
/-- `get_ram_size` gives the size of the bank, at most that of the range, and leaves every word as it was, just if the bank is smaller than
the range or the word at the base is 0. -/
theorem ram_size_restores_iff {w : Nat} (hw : 8 ≤ w) (k m base : Nat) (hm : m ≤ 31) (hfits : 2 ^ m * sizeofLong w < 2 ^ w)
    (words : Nat → BitVec w) :
    (∃ bank, getRamSize base (2 ^ m * sizeofLong w) ⟨2 ^ k, words⟩ = some (2 ^ min k m * sizeofLong w, bank) ∧
        ∀ a < 2 ^ k, bank.words a = words a) ↔
      k < m ∨ words (base % 2 ^ k) = 0 := by
  obtain ⟨g, hsize, hother, hbase⟩ := getRamSize_spec k base hw hm hfits words
  constructor
  · rintro ⟨bank, hrun, hwords⟩
    rw [hsize] at hrun
    cases hrun
    by_cases hkm : k < m
    · exact Or.inl hkm
    · rw [if_neg hkm] at hbase
      exact Or.inr ((hwords _ (Nat.mod_lt _ (Nat.two_pow_pos k))).symm.trans hbase)
  · intro h
    refine ⟨_, hsize, fun a _ => ?_⟩
    by_cases ha : a = base % 2 ^ k
    · rw [ha]
      refine hbase.trans ?_
      rcases h with hkm | hzero
      · exact if_pos hkm
      · rw [hzero, ite_self]
    · exact hother a ha

/-- A bank of half the range that boards pass, and one of the size of the range with 0 at the base. -/
theorem ram_size_restores_small :
    (∃ bank, getRamSize 0 0x80000000 ⟨2 ^ 28, BitVec.ofNat 32⟩ = some (0x40000000, bank) ∧
        ∀ a < 2 ^ 28, bank.words a = BitVec.ofNat 32 a) ∧
      ∃ bank, getRamSize 6 16 ⟨2 ^ 2, fun a => if a = 2 then (0 : BitVec 32) else 5⟩ = some (16, bank) ∧
        ∀ a < 2 ^ 2, bank.words a = if a = 2 then 0 else 5 :=
  ⟨(ram_size_restores_iff (by decide) 28 29 0 (by decide) (by decide) _).2 (Or.inl (by decide)),
    (ram_size_restores_iff (by decide) 2 2 6 (by decide) (by decide) _).2 (Or.inr rfl)⟩

/-- A bank of 4 words in a range of 4. -/
theorem ram_size_clears_base :
    ¬∃ bank, getRamSize 0 (2 ^ 2 * sizeofLong 32) ⟨2 ^ 2, fun _ => (5 : BitVec 32)⟩ = some (2 ^ min 2 2 * sizeofLong 32, bank) ∧
      ∀ a < 2 ^ 2, bank.words a = 5 := by
  rintro ⟨bank, hrun, hwords⟩
  have hbase : (getRamSize 0 (2 ^ 2 * sizeofLong 32) ⟨2 ^ 2, fun _ => (5 : BitVec 32)⟩).map (fun r => r.2.words 0) = some 0 := by
    decide
  rw [hrun, Option.map_some, hwords 0 (by decide)] at hbase
  exact absurd hbase (by decide)

end UBoot
