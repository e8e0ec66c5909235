import UBoot.EnvDevices

/-!
# The newest saved environment in NAND wins

The serial is increased by saves that fail too, so near its wrap-around a save can write an older one.
-/

namespace UBoot

section

open Lib

variable {α : Type}

/-! ## The condition on a save -/

/-- The serial `s`, written to the side `i`, is newer than the serial `c` of the other side. -/
def NewerSerial (i : Side) (s c : UInt8) : Prop :=
  (c < s ∧ ¬(c = 0 ∧ s = 255)) ∨ (c = 255 ∧ s = 0) ∨ (c = s ∧ i = .one)

/-- The valid copy has a bad CRC, or the serial the next `saveenv` writes is newer than its serial. -/
def Nand.SerialOk (s : Nand α) : Prop :=
  (s.flash s.envValid).crcOk = false ∨ NewerSerial s.envValid.other (s.envFlags + 1) (s.flash s.envValid).flags

/-- The condition on a `saveenv`: one that returns 0 writes a newer serial. -/
def NandOk (s : Nand α) (o : NandSave α) : Prop := o.exportOk = true → o.erase = .ok → o.write = .ok → s.SerialOk

/-- The flash is safe for what was saved. -/
def Nand.Safe (s : Nand α) (W : Set α) : Prop := Lib.Safe Env.Intact Env.data nandChoose W s.flash s.envValid

namespace EnvNandAux

/-! ## The choice -/

/-- `env_relocate_spec` takes the only copy with a good CRC, and one of the two if both are good. -/
theorem nandChoose_rule : ChoiceRule Env.Intact (nandChoose (α := α)) where
  intact_of_some := by
    intro c i h
    unfold nandChoose at h
    cases h1 : (c .one).crcOk <;> cases h2 : (c .two).crcOk <;> cases i <;> simp_all [Env.Intact]
  isSome_of_intact := by
    intro c i h
    unfold nandChoose
    cases h1 : (c .one).crcOk <;> cases h2 : (c .two).crcOk <;> cases i <;> simp_all [Env.Intact]

theorem checkSerial_of_newer {i : Side} {s c : UInt8} (h : NewerSerial i s c) :
    (i = .one → checkSerial s c = .one) ∧ (i = .two → checkSerial c s = .two) := by
  unfold NewerSerial at h
  unfold checkSerial
  refine ⟨?_, ?_⟩
  · intro hi
    subst hi
    grind
  · intro hi
    subst hi
    grind

theorem nandChoose_put {s : Nand α} {e : Env α} (he : e.crcOk = true) (hs : (s.flash s.envValid).crcOk = true)
    (h : NewerSerial s.envValid.other e.flags (s.flash s.envValid).flags) :
    nandChoose (s.put e).flash = some s.envValid.other := by
  obtain ⟨h1, h2⟩ := checkSerial_of_newer h
  unfold nandChoose Nand.put
  cases hv : s.envValid with
  | one =>
    rw [hv] at hs h2
    simp [Side.other, hs, he] at h2 ⊢
    exact h2
  | two =>
    rw [hv] at hs h1
    simp [Side.other, hs, he] at h1 ⊢
    exact h1

/-! ## One step -/

variable {s : Nand α} {h : Saved α}

theorem safe_boot {W : Set α} (hs : s.Safe W) : s.boot.2.Safe W := by
  obtain ⟨i, hi, -⟩ := Safe.exists_choose nandChoose_rule hs
  have hb : s.boot.2 = ⟨s.flash, i, (s.flash i).flags⟩ := by simp [Nand.boot, Nand.envRelocateSpec, hi]
  rw [hb]
  exact Safe.of_choose nandChoose_rule hs hi

/-- What a `saveenv` that does not return 0 leaves: the valid copy is still the valid one, and the other one is as it was, has a
bad CRC, or was written completely. -/
theorem saveenv_attempt (s : Nand α) (h : Saved α) (data : α) (o : NandSave α) (hne : (s.saveenv data o).ending ≠ .ok) :
    (s.saveenv data o).state.envValid = s.envValid ∧ ∃ e, (s.saveenv data o).state.flash = Function.update s.flash s.envValid.other e ∧
        (e = s.flash s.envValid.other ∨ ¬e.Intact ∨ e.data ∈ (h.attempt data (s.saveenv data o).complete).wanted) := by
  unfold Nand.saveenv at hne ⊢
  cases hx : o.exportOk with
  | false => exact ⟨by simp, s.flash s.envValid.other, by simp, Or.inl rfl⟩
  | true =>
    simp only [hx, Bool.not_true, Bool.false_eq_true, if_false] at hne ⊢
    cases he : o.erase with
    | error left => exact ⟨rfl, _, rfl, by cases left <;> simp [Env.afterErase, Env.Intact]⟩
    | cut left => exact ⟨rfl, _, rfl, by cases left <;> simp [Env.afterErase, Env.Intact]⟩
    | ok =>
      simp only [he] at hne ⊢
      cases hw : o.write with
      | error left => exact ⟨rfl, _, rfl, Or.inr (h.attempt_afterWrite left)⟩
      | cut left => exact ⟨rfl, _, rfl, Or.inr (h.attempt_afterWrite left)⟩
      | ok => simp [hw] at hne

/-- A `saveenv` that returns 0 writes the other copy and makes it the valid one. -/
theorem saveenv_ok {s : Nand α} {data : α} {o : NandSave α} (hok : (s.saveenv data o).ending = .ok) :
    o.exportOk = true ∧ o.erase = .ok ∧ o.write = .ok ∧ (s.saveenv data o).state =
      ⟨(s.put ⟨data, true, s.envFlags + 1⟩).flash, s.envValid.other, s.envFlags + 1⟩ := by
  unfold Nand.saveenv at hok ⊢
  cases hx : o.exportOk <;> cases he : o.erase <;> cases hw : o.write <;> simp_all [Nand.put]

/-- A `saveenv` that does not return 0 leaves the flash safe for what was saved and what it wrote. -/
theorem safe_attempt (hs : s.Safe h.wanted) (data : α) (o : NandSave α) (hne : (s.saveenv data o).ending ≠ .ok) :
    (s.saveenv data o).state.Safe (h.attempt data (s.saveenv data o).complete).wanted := by
  obtain ⟨hv, e, hf, he⟩ := saveenv_attempt s h data o hne
  unfold Nand.Safe
  rw [hv, hf]
  exact Safe.update_other hs (h.wanted_subset_attempt data _) he

/-- A `saveenv` that returns 0 and writes a newer serial leaves the flash safe for its own data. -/
theorem safe_success (h : Saved α) {data : α} {o : NandSave α} (hok : (s.saveenv data o).ending = .ok)
    (hnewer : NandOk s o) : (s.saveenv data o).state.Safe (h.success data).wanted := by
  obtain ⟨hx, he, hw, hstate⟩ := saveenv_ok hok
  have hserial := hnewer hx he hw
  rw [hstate]
  refine ⟨by simp [Nand.put, Env.Intact], by simp [Nand.put, Saved.mem_wanted_success], ?_⟩
  have hold : (s.put ⟨data, true, s.envFlags + 1⟩).flash s.envValid.other.other = s.flash s.envValid := by
    simp [Nand.put, (Side.other_ne s.envValid).symm]
  cases hc : (s.flash s.envValid).crcOk with
  | false => exact Or.inl (by simp only [hold]; simp [Env.Intact, hc])
  | true => exact Or.inr (Or.inr (nandChoose_put rfl hc (hserial.resolve_left (by simp [hc]))))

end EnvNandAux

open EnvNandAux

/-- The newest saved environment wins: over every run of any length from any state in which nothing was saved yet, whose saves
that return 0 all write a newer serial, once one has returned 0 a boot imports the data of the last that did, or of
a later one that wrote its copy completely, and not the default environment. -/
theorem nand_newest_wins (s₀ : SaveSys (Nand α) α) (h₀ : s₀.saved.last = none) (ops : List (SaveOp (NandSave α) α))
    (s : SaveSys (Nand α) α) (hrun : Exec (Guarded (SaveGuard NandOk) (stepFn nandDriver.step)) s₀ ops s)
    (hlast : s.saved.last.isSome) :
    ∃ d, s.state.boot.1 = some d ∧ (s.saved.last = some d ∨ d ∈ s.saved.later) := by
  have hsafe : s.state.Safe s.saved.wanted :=
    SaveDriver.safe_of_exec Nand.Safe (fun _ _ => safe_boot) (fun _ _ data o hs hne => safe_attempt hs data o hne)
      (fun _ h _ _ hok hend => safe_success h hend hok) hrun h₀ hlast
  obtain ⟨i, hi, hd⟩ := Safe.exists_choose nandChoose_rule hsafe
  exact ⟨(s.state.flash i).data, by simp [Nand.boot, Nand.envRelocateSpec, hi], hd⟩

/-- A device with two blank copies, after its first boot. -/
def blankNand : SaveSys (Nand Nat) Nat := ⟨⟨fun _ => ⟨0, false, 255⟩, .one, 0⟩, ⟨none, []⟩⟩

/-- A `saveenv` in which nothing fails. -/
def goodSave : NandSave Nat := ⟨true, .ok, .ok⟩

/-- A `saveenv` whose erase fails before it changes anything. -/
def eraseFails : NandSave Nat := ⟨true, .error .untouched, .ok⟩

/-- A device whose copies have the serials 253 and 252. -/
def usedNand : SaveSys (Nand Nat) Nat := ⟨⟨fun i => ⟨0, true, if i = .one then 253 else 252⟩, .one, 253⟩, ⟨none, []⟩⟩

/-- Saves over the wrap-around of the serial, one that fails, and one more. -/
def usedRun : List (SaveOp (NandSave Nat) Nat) := [.save 1 goodSave, .save 2 goodSave, .save 3 goodSave, .save 4 eraseFails, .save 5 goodSave]

instance decidableNewerSerial (i : Side) (s c : UInt8) : Decidable (NewerSerial i s c) :=
  inferInstanceAs (Decidable ((c < s ∧ ¬(c = 0 ∧ s = 255)) ∨ (c = 255 ∧ s = 0) ∨ (c = s ∧ i = .one)))

instance decidableSerialOk (s : Nand α) : Decidable s.SerialOk :=
  inferInstanceAs (Decidable (_ = false ∨ NewerSerial _ _ _))

/-- The state after `usedRun`. -/
def usedState : SaveSys (Nand Nat) Nat :=
  (usedRun.foldlM (fun (s : SaveSys (Nand Nat) Nat) op => if s.state.SerialOk then some (nandDriver.step s op) else none) usedNand).get (by decide)

/-- The best serial is found across 255 and 0, and the save that fails changes nothing. -/
theorem nand_newest_wins_wrap : Exec (Guarded (SaveGuard NandOk) (stepFn nandDriver.step)) usedNand usedRun usedState ∧
    usedState.state.boot.1 = some 5 := by
  have hserial : Exec (Guarded (fun s _ => s.state.SerialOk) (stepFn nandDriver.step)) usedNand usedRun usedState :=
    Exec.of_guarded_foldl (Option.some_get _).symm
  have hrun : Exec (Guarded (SaveGuard NandOk) (stepFn nandDriver.step)) usedNand usedRun usedState := by
    refine hserial.mono ?_
    rintro s op s' ⟨hok, hstep⟩
    refine ⟨?_, hstep⟩
    cases op with
    | save data o => exact fun _ _ _ => hok
    | reboot => trivial
  obtain ⟨d, hboot, hd⟩ := nand_newest_wins usedNand rfl _ _ hrun (by decide)
  rw [show usedState.saved.last = some 5 by decide, show usedState.saved.later = [] by decide] at hd
  obtain rfl : 5 = d := Option.some.inj (hd.resolve_right List.not_mem_nil)
  exact ⟨hrun, hboot⟩

/-- 254 saves, of the data 1 to 254, then one that fails, and one that succeeds. -/
def wrapRun : List (SaveOp (NandSave Nat) Nat) :=
  (List.range' 1 254).map (fun d => .save d goodSave) ++ [.save 255 eraseFails, .save 256 goodSave]

/-- Without the condition an older environment wins: after `wrapRun` a boot imports the data of the save before the last that
returned 0. -/
theorem nand_newest_wins_false : ∃ s, Exec (stepFn nandDriver.step) blankNand wrapRun s ∧ s.saved.last = some 256 ∧
    s.saved.later = [] ∧ s.state.boot.1 = some 254 :=
  ⟨_, Exec.foldl _ _ _, by decide, by decide, by decide +kernel⟩

end

/-!
## The environment in SPI flash is crash-safe

At every step of `saveenv` the valid copy is intact, and the other copy is damaged, or new, or older and marked obsolete.
-/

section

open Lib

variable {α : Type}

/-- The flash is safe for what was saved. -/
def Sf.Safe (s : Sf α) (W : Set α) : Prop := Lib.Safe Env.Intact Env.data sfChoose W s.flash s.envValid

namespace EnvSfAux

/-- `env_relocate_spec` takes the only copy with a good CRC, and one of the two if both are good. -/
theorem sfChoose_rule : ChoiceRule Env.Intact (sfChoose (α := α)) where
  intact_of_some := by
    intro c i h
    unfold sfChoose at h
    cases h1 : (c .one).crcOk <;> cases h2 : (c .two).crcOk <;> cases i <;> simp_all [Env.Intact]
  isSome_of_intact := by
    intro c i h
    unfold sfChoose
    cases h1 : (c .one).crcOk <;> cases h2 : (c .two).crcOk <;> cases i <;> simp_all [Env.Intact]

theorem sfChoose_active {flash : Side → Env α} {i : Side} (hi : (flash i).crcOk = true) (ha : (flash i).flags = ACTIVE_FLAG)
    (ho : (flash i.other).flags = OBSOLETE_FLAG) : sfChoose flash = some i := by
  unfold sfChoose
  cases i with
  | one =>
    simp only [Side.other] at ho
    cases h2 : (flash .two).crcOk <;> simp [hi, ha, ho, checkFlags]
  | two =>
    simp only [Side.other] at ho
    cases h1 : (flash .one).crcOk <;> simp [hi, ha, ho, checkFlags, ACTIVE_FLAG, OBSOLETE_FLAG]

/-! ## One step -/

variable {embedded : Bool} {s : Sf α} {h : Saved α}

theorem safe_boot {W : Set α} (hs : s.Safe W) : s.boot.2.Safe W := by
  obtain ⟨i, hi, -⟩ := Safe.exists_choose sfChoose_rule hs
  have hb : s.boot.2 = ⟨s.flash, i⟩ := by simp [Sf.boot, Sf.envRelocateSpec, hi]
  rw [hb]
  exact Safe.of_choose sfChoose_rule hs hi

theorem safe_setFlags {W : Set α} (hs : s.Safe W) (ho : (s.flash s.envValid.other).data ∈ W) (flags : UInt8) : (s.setFlags flags).Safe W := by
  refine safe_of_wanted ?_ ?_ ?_
  · simpa [Sf.setFlags, Env.Intact] using hs.intact_cur
  · simpa [Sf.setFlags] using hs.wanted_cur
  · simpa [Sf.setFlags] using ho

theorem safe_put {data : α} {complete : Bool} (hs : s.Safe h.wanted) {e : Env α}
    (he : e = s.flash s.envValid.other ∨ ¬e.Intact ∨ e.data ∈ (h.attempt data complete).wanted) :
    (s.put e).Safe (h.attempt data complete).wanted := Safe.update_other hs (h.wanted_subset_attempt data complete) he

theorem safe_afterErase {data : α} (hs : s.Safe h.wanted) (left : EraseLeft α) :
    (s.put ((s.flash s.envValid.other).afterErase left)).Safe (h.attempt data false).wanted := by
  refine safe_put hs ?_
  cases left with
  | untouched => exact Or.inl rfl
  | damaged garbage flags => exact Or.inr (Or.inl (by simp [Env.afterErase, Env.Intact]))

/-- A `saveenv` that does not return 0, wherever it stops, leaves the flash safe for what was saved and what it wrote. -/
theorem safe_attempt (hs : s.Safe h.wanted) (data : α) (o : SfSave α) (hne : (s.saveenv embedded data o).ending ≠ .ok) :
    (s.saveenv embedded data o).state.Safe (h.attempt data (s.saveenv embedded data o).complete).wanted := by
  have hnone : s.Safe (h.attempt data false).wanted := hs.mono (h.wanted_subset_attempt data false)
  have hnew : (s.put ⟨data, true, ACTIVE_FLAG⟩).Safe (h.attempt data true).wanted :=
    safe_put hs (Or.inr (Or.inr (h.mem_wanted_attempt data)))
  have hflags (flags : UInt8) : ((s.put ⟨data, true, ACTIVE_FLAG⟩).setFlags flags).Safe (h.attempt data true).wanted :=
    safe_setFlags hnew (by simp [Sf.put, h.mem_wanted_attempt data]) flags
  unfold Sf.saveenv at hne ⊢
  cases hp : o.prepareOk with
  | false => exact hnone
  | true =>
    simp only [hp, Bool.not_true, Bool.false_eq_true, if_false] at hne ⊢
    cases hr : (if embedded = true then o.readRest else FlashEnd.ok) with
    | error _ => exact hnone
    | cut _ => exact hnone
    | ok =>
      simp only [hr] at hne ⊢
      cases he : o.erase with
      | error left => exact safe_afterErase hs left
      | cut left => exact safe_afterErase hs left
      | ok =>
        simp only [he] at hne ⊢
        cases hw : o.write with
        | error left => exact safe_put hs (Or.inr (h.attempt_afterWrite left))
        | cut left => exact safe_put hs (Or.inr (h.attempt_afterWrite left))
        | ok =>
          simp only [hw] at hne ⊢
          cases hb : (if embedded = true then o.writeRest else FlashEnd.ok) with
          | error _ => exact hnew
          | cut _ => exact hnew
          | ok =>
            simp only [hb] at hne ⊢
            cases ho : o.obsolete with
            | error flags => exact hflags flags
            | cut flags => exact hflags flags
            | ok => simp [ho] at hne

/-- A `saveenv` that returns 0 wrote the other copy, marked the valid one obsolete, and made the other the valid one. -/
theorem saveenv_ok {data : α} {o : SfSave α} (hok : (s.saveenv embedded data o).ending = .ok) : (s.saveenv embedded data o).state =
      { (s.put ⟨data, true, ACTIVE_FLAG⟩).setFlags OBSOLETE_FLAG with envValid := s.envValid.other } := by
  unfold Sf.saveenv at hok ⊢
  split at hok
  · cases hok
  split at hok <;> try cases hok
  split at hok <;> try cases hok
  split at hok <;> try cases hok
  split at hok <;> try cases hok
  split at hok <;> try cases hok
  simp_all

/-- A `saveenv` that returns 0 leaves the flash safe for its own data. -/
theorem safe_success (h : Saved α) {data : α} {o : SfSave α} (hok : (s.saveenv embedded data o).ending = .ok) :
    (s.saveenv embedded data o).state.Safe (h.success data).wanted := by
  rw [saveenv_ok hok]
  have hne := Side.other_ne s.envValid
  refine ⟨?_, ?_, Or.inr (Or.inr (sfChoose_active ?_ ?_ ?_))⟩
  · simp [Sf.setFlags, Sf.put, Env.Intact]
  · simp [Sf.setFlags, Sf.put, h.mem_wanted_success]
  · simp [Sf.setFlags, Sf.put]
  · simp [Sf.setFlags, Sf.put]
  · simp [Sf.setFlags, Sf.put]

end EnvSfAux

open EnvSfAux

/-- The environment in SPI flash is crash-safe: over every run of any length of saves, each of whose steps may succeed, fail or
be cut by a loss of power, and of reboots, from any state in which nothing was saved yet, once a `saveenv` has returned 0 a
boot imports the data of the last that did, or of a later one that wrote its copy completely, and not the default
environment. -/
theorem sf_crash_safe (embedded : Bool) (s₀ : SaveSys (Sf α) α) (h₀ : s₀.saved.last = none)
    (ops : List (SaveOp (SfSave α) α)) (s : SaveSys (Sf α) α)
    (hrun : Exec (stepFn (sfDriver embedded).step) s₀ ops s) (hlast : s.saved.last.isSome) :
    ∃ d, s.state.boot.1 = some d ∧ (s.saved.last = some d ∨ d ∈ s.saved.later) := by
  have hsafe : s.state.Safe s.saved.wanted :=
    SaveDriver.safe_of_exec Sf.Safe (fun _ _ => safe_boot) (fun _ _ data o hs hne => safe_attempt hs data o hne)
      (fun _ h _ _ _ hend => safe_success h hend) (SaveDriver.exec_guarded hrun) h₀ hlast
  obtain ⟨i, hi, hd⟩ := Safe.exists_choose sfChoose_rule hsafe
  exact ⟨(s.state.flash i).data, by simp [Sf.boot, Sf.envRelocateSpec, hi], hd⟩

/-- A device with two blank copies, after its first boot. -/
def blankSf : SaveSys (Sf Nat) Nat := ⟨⟨fun _ => ⟨0, false, 255⟩, .one⟩, ⟨none, []⟩⟩

/-- One save that succeeds, and one that loses its power before the old copy is marked obsolete. -/
def cutRun : List (SaveOp (SfSave Nat) Nat) :=
  [.save 7 ⟨true, .ok, .ok, .ok, .ok, .ok⟩, .save 8 ⟨true, .ok, .ok, .ok, .ok, .cut ACTIVE_FLAG⟩]

/-- After `cutRun` both copies are active, and a boot imports one of them. -/
theorem sf_crash_safe_cut : ∃ s, Exec (stepFn (sfDriver true).step) blankSf cutRun s ∧ s.saved.last = some 7 ∧
    ∃ d, s.state.boot.1 = some d ∧ (s.saved.last = some d ∨ d ∈ s.saved.later) :=
  ⟨_, Exec.foldl _ _ _, rfl, sf_crash_safe true blankSf rfl cutRun _ (Exec.foldl _ _ _) rfl⟩

end

end UBoot
