import UBoot.Lib.Exec
import UBoot.Lib.Redundant

/-!
# The stored environment

`env_t` of include/environment.h as it is read back from a redundant store: the data, whether the CRC over the data matches, and
the flags byte, which the CRC does not cover. The two places of the store are the sides `one` and `two`, as `gd->env_valid`
numbers them. The operations on the flash may succeed, return an error, or be cut by a loss of power.
-/

namespace UBoot

open Lib

/-- `env_t`, with the CRC replaced by the outcome of its check. -/
structure Env (α : Type) where
  data : α
  crcOk : Bool
  flags : UInt8
  deriving DecidableEq

/-- The CRC of the copy matches. -/
def Env.Intact {α : Type} (e : Env α) : Prop := e.crcOk = true

/-- How an operation on the flash ends; an error or a loss of power leaves something behind. -/
inductive FlashEnd (ρ : Type) where
  | ok
  | error (left : ρ)
  | cut (left : ρ)

/-- What an erase that does not succeed leaves: the copy as it was, or something with a bad CRC. -/
inductive EraseLeft (α : Type) where
  | untouched
  | damaged (garbage : α) (flags : UInt8)

/-- What a write that does not succeed leaves: something with a bad CRC, or all that was to be written. -/
inductive WriteLeft (α : Type) where
  | damaged (garbage : α) (flags : UInt8)
  | complete

/-- Whether a write that does not succeed leaves all that was to be written. -/
def WriteLeft.isComplete {α : Type} : WriteLeft α → Bool
  | .damaged _ _ => false
  | .complete => true

/-- The copy `e` after an erase that did not succeed. -/
def Env.afterErase {α : Type} (e : Env α) : EraseLeft α → Env α
  | .untouched => e
  | .damaged garbage flags => ⟨garbage, false, flags⟩

/-- The copy that was to become `new` after a write that did not succeed. -/
def Env.afterWrite {α : Type} (new : Env α) : WriteLeft α → Env α
  | .damaged garbage flags => ⟨garbage, false, flags⟩
  | .complete => new

/-- How a call of `saveenv` ends: with a return of 0, with another return, or with a loss of power. -/
inductive SaveEnd where
  | ok | failed | cut
  deriving DecidableEq, Repr

/-! ## What was saved -/

/-- The record of a run: the data of the last `saveenv` that returned 0, if one did, and of those after it that did not
return 0 but wrote their copy completely. -/
structure Saved (α : Type) where
  last : Option α
  later : List α

/-- The record after a `saveenv` that returned 0. -/
def Saved.success {α : Type} (_ : Saved α) (d : α) : Saved α := ⟨some d, []⟩

/-- The record after a `saveenv` that did not return 0, given whether it wrote its copy completely. -/
def Saved.attempt {α : Type} (h : Saved α) (d : α) (complete : Bool) : Saved α :=
  ⟨h.last, if complete then d :: h.later else h.later⟩

/-- The data an import may then give. -/
def Saved.wanted {α : Type} (h : Saved α) : Set α := {d | h.last = some d ∨ d ∈ h.later}

namespace Saved

variable {α : Type} (h : Saved α) (d : α)

theorem mem_wanted_success : d ∈ (h.success d).wanted := Or.inl rfl

theorem wanted_subset_attempt (complete : Bool) : h.wanted ⊆ (h.attempt d complete).wanted := by
  intro e he
  refine he.imp_right ?_
  intro hmem
  cases complete with
  | false => exact hmem
  | true => exact List.mem_cons_of_mem d hmem

theorem attempt_afterWrite {e : Env α} (left : WriteLeft α) :
    ¬(e.afterWrite left).Intact ∨ (e.afterWrite left).data ∈ (h.attempt e.data left.isComplete).wanted := by
  cases left with
  | damaged garbage flags => exact Or.inl (by simp [Env.Intact, Env.afterWrite])
  | complete => exact Or.inr (Or.inr List.mem_cons_self)

theorem mem_wanted_attempt : d ∈ (h.attempt d true).wanted := Or.inr List.mem_cons_self

end Saved

/-! ## Runs of a driver -/

/-- What a call of `saveenv` does: how it ends, whether it wrote its copy completely, and the state it leaves. -/
structure SaveResult (σ : Type) where
  ending : SaveEnd
  complete : Bool
  state : σ

/-- A driver of a redundant store: `saveenv` of some data, given what happens to the call, and a boot, with the data imported
or `none` for the default environment. -/
structure SaveDriver (σ ω α : Type) where
  saveenv : σ → α → ω → SaveResult σ
  boot : σ → Option α × σ

/-- A step of a run: a `saveenv`, after which the power may be gone, or a reboot. -/
inductive SaveOp (ω α : Type) where
  | save (data : α) (o : ω)
  | reboot

/-- The state of a driver with the record of what was saved. -/
structure SaveSys (σ α : Type) where
  state : σ
  saved : Saved α

/-- One step. A loss of power is followed by a boot. -/
def SaveDriver.step {σ ω α : Type} (d : SaveDriver σ ω α) (s : SaveSys σ α) : SaveOp ω α → SaveSys σ α
  | .reboot => { s with state := (d.boot s.state).2 }
  | .save data o =>
    let r := d.saveenv s.state data o
    match r.ending with
    | .ok => ⟨r.state, s.saved.success data⟩
    | .failed => ⟨r.state, s.saved.attempt data r.complete⟩
    | .cut => ⟨(d.boot r.state).2, s.saved.attempt data r.complete⟩

/-- The condition `ok` on the state before a `saveenv` and on what happens to it. -/
def SaveGuard {σ ω α : Type} (ok : σ → ω → Prop) (s : SaveSys σ α) : SaveOp ω α → Prop
  | .reboot => True
  | .save _ o => ok s.state o

section Driver

variable {σ ω α : Type} {d : SaveDriver σ ω α} {ok : σ → ω → Prop}
variable {s₀ : SaveSys σ α} {ops : List (SaveOp ω α)}

/-- What a boot, a failed or interrupted `saveenv` and a successful one each keep, every run keeps once a `saveenv` has
returned 0. -/
theorem SaveDriver.safe_of_exec (Safe : σ → Set α → Prop) (hboot : ∀ s W, Safe s W → Safe (d.boot s).2 W)
    (hattempt : ∀ s (h : Saved α) data o, Safe s h.wanted → (d.saveenv s data o).ending ≠ .ok →
      Safe (d.saveenv s data o).state (h.attempt data (d.saveenv s data o).complete).wanted)
    (hsuccess : ∀ s (h : Saved α) data o, ok s o → (d.saveenv s data o).ending = .ok → Safe (d.saveenv s data o).state (h.success data).wanted)
    {s : SaveSys σ α} (hrun : Exec (Guarded (SaveGuard ok) (stepFn d.step)) s₀ ops s)
    (h₀ : s₀.saved.last = none) (hlast : s.saved.last.isSome) : Safe s.state s.saved.wanted := by
  have hstep (s : SaveSys σ α) (op : SaveOp ω α) (s' : SaveSys σ α) (hinv : s.saved.last.isSome → Safe s.state s.saved.wanted)
      (hs : Guarded (SaveGuard ok) (stepFn d.step) s op s') : s'.saved.last.isSome → Safe s'.state s'.saved.wanted := by
    obtain ⟨hok, rfl⟩ := hs
    cases op with
    | reboot => exact fun hl => hboot _ _ (hinv hl)
    | save data o =>
      cases hend : (d.saveenv s.state data o).ending with
      | ok =>
        simp only [SaveDriver.step, hend]
        exact fun _ => hsuccess s.state s.saved data o hok hend
      | failed =>
        simp only [SaveDriver.step, hend]
        exact fun hl => hattempt s.state s.saved data o (hinv hl) (by simp [hend])
      | cut =>
        simp only [SaveDriver.step, hend]
        exact fun hl => hboot _ _ (hattempt s.state s.saved data o (hinv hl) (by simp [hend]))
  exact hrun.invariant hstep (fun h => by simp [h₀] at h) hlast

theorem SaveDriver.exec_guarded {s : SaveSys σ α} (hrun : Exec (stepFn d.step) s₀ ops s) :
    Exec (Guarded (SaveGuard fun _ _ => True) (stepFn d.step)) s₀ ops s := by
  refine hrun.mono fun s op s' hs => ⟨?_, hs⟩
  cases op <;> trivial

end Driver

end UBoot
