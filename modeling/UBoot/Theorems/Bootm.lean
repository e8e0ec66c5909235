import UBoot.Bootm
import UBoot.Lib.Exec

/-!
# The order of the bootm subcommands

The order is kept by comparing the bits in `images.state`; no test looks for the bit of `start`.
-/

namespace UBoot

section

open Lib

/-- A call of `bootm` with its first argument, and what the functions it calls find and return. -/
structure BootmInvocation where
  argv1 : CString
  src : BootmSource
  rets : BootmReturns

/-- `images`, with the history of the calls: whether the last start succeeded, if there was one, and what ran since. -/
structure BootmRun where
  images : BootmHeaders
  started : Option Bool
  executed : List BootmSub

def BootmRun.powerUp : BootmRun := ⟨BootmHeaders.zero, none, []⟩

/-- The subcommand a call names. -/
def BootmInvocation.sub (cfg : BootmConfig) (i : BootmInvocation) : Option BootmSub := findCmdTbl i.argv1 (cmdBootmSub cfg)

/-- What a call does on an `images`. -/
def BootmInvocation.run (cfg : BootmConfig) (i : BootmInvocation) (images : BootmHeaders) : Option BootmResult :=
  doBootmSubcommand cfg i.argv1 i.src i.rets images

/-- The run after a call. -/
def bootmStep (cfg : BootmConfig) (s : BootmRun) (i : BootmInvocation) : BootmRun :=
  match i.sub cfg, i.run cfg s.images with
  | some .start, some r => ⟨r.images, some (decide (r.ret = 0)), []⟩
  | some sub, some r => ⟨r.images, s.started, sub :: s.executed⟩
  | _, _ => s

/-- A call is in order: if it is not a start and does more than return usage, the last start succeeded, and its state is
above every state executed since. -/
def InOrder (cfg : BootmConfig) (s : BootmRun) (i : BootmInvocation) : Prop :=
  ∀ sub, i.sub cfg = some sub → sub ≠ .start → (i.run cfg s.images).isSome → s.started = some true ∧ ∀ t ∈ s.executed, t.state < sub.state

/-- The test that is missing: the bit of `start` is set, or the order is wrong anyway. -/
def StartTested (cfg : BootmConfig) (s : BootmRun) (i : BootmInvocation) : Prop :=
  ∀ sub, i.sub cfg = some sub → sub ≠ .start → s.images.state.testBit 0 ∨ sub.state ≤ s.images.state

namespace BootmAux
variable {cfg : BootmConfig} {sub : BootmSub}


/-- What `images.state` says of the calls: its lowest bit is that of a start that succeeded, and no subcommand executed
since has a state above it. -/
structure StateInv (s : BootmRun) : Prop where
  start_bit : s.images.state.testBit 0 ↔ s.started = some true
  executed_le : ∀ t ∈ s.executed, t.state ≤ s.images.state

theorem stateInv_powerUp : StateInv BootmRun.powerUp := by
  refine ⟨by decide, ?_⟩
  intro t ht
  cases ht

theorem fitParams_state (src : BootmSource) (images : BootmHeaders) : (fitParams src images).2.state = images.state := by
  unfold fitParams
  split
  · rfl
  · split
    · rfl
    · split <;> rfl

theorem imageParams_state (cfg : BootmConfig) (src : BootmSource) (images : BootmHeaders) :
    (imageParams cfg src images).2.state = images.state := by
  unfold imageParams
  split
  · rfl
  · split
    · exact fitParams_state src images
    · rfl
  · rfl

theorem entryPoint_state (cfg : BootmConfig) (src : BootmSource) (images : BootmHeaders) :
    (entryPoint cfg src images).2.state = images.state := by
  unfold entryPoint
  split
  · rfl
  · split <;> rfl

theorem linuxParts_state (cfg : BootmConfig) (src : BootmSource) (images : BootmHeaders) :
    (linuxParts cfg src images).2.state = images.state := by
  unfold linuxParts
  split
  · split
    · rfl
    · split <;> rfl
  · rfl

/-- A start sets its bit at the very end: a start that fails leaves the cleared state. -/
theorem bootmStart_state (cfg : BootmConfig) (src : BootmSource) :
    (bootmStart cfg src).1 = 0 ∧ (bootmStart cfg src).2.state = BootmSub.start.state ∨
      (bootmStart cfg src).1 = 1 ∧ (bootmStart cfg src).2.state = 0 := by
  unfold bootmStart
  simp only
  split
  · exact Or.inr ⟨rfl, rfl⟩
  have hparams := imageParams_state cfg src { BootmHeaders.zero with
    verify := src.verify, legacyHdrValid := src.legacyHdrValid, fitUnameOs := src.fitUnameOs
    os.imageStart := src.imageStart, os.imageLen := src.imageLen }
  split
  · rename_i images h
    rw [h] at hparams
    exact Or.inr ⟨rfl, hparams⟩
  rename_i images h
  rw [h] at hparams
  have hentry := entryPoint_state cfg src images
  split
  · rename_i images' h'
    rw [h'] at hentry
    exact Or.inr ⟨rfl, hentry.trans hparams⟩
  rename_i images' h'
  rw [h'] at hentry
  split
  · rename_i images'' h''
    have hlinux := congrArg (fun r => r.2.state) h''
    simp only [linuxParts_state] at hlinux
    refine Or.inr ⟨rfl, ?_⟩
    rw [← hlinux]
    split <;> exact hentry.trans hparams
  · exact Or.inl ⟨rfl, rfl⟩

theorem run_eq {i : BootmInvocation} (hsub : i.sub cfg = some sub) (hne : sub ≠ .start)
    (images : BootmHeaders) : i.run cfg images =
      if images.state ≥ sub.state then none
      else some (runSub i.rets { images with state := images.state ||| sub.state } sub) := by
  unfold BootmInvocation.run doBootmSubcommand
  rw [BootmInvocation.sub] at hsub
  rw [hsub]
  cases sub <;> first | rfl | exact absurd rfl hne

theorem runSub_state (rets : BootmReturns) (images : BootmHeaders) (sub : BootmSub) : (runSub rets images sub).images.state = images.state := by
  cases sub <;> rfl

theorem testBit_state (hne : sub ≠ .start) : sub.state.testBit 0 = false := by
  cases sub <;> first | rfl | exact absurd rfl hne

theorem StateInv.step {s : BootmRun} (h : StateInv s) (i : BootmInvocation) :
    StateInv (bootmStep cfg s i) := by
  unfold bootmStep
  split
  · rename_i r hsub hr
    have hstart : r = ⟨(bootmStart cfg i.src).1, (bootmStart cfg i.src).2, []⟩ := by
      rw [BootmInvocation.sub] at hsub
      rw [BootmInvocation.run, doBootmSubcommand, hsub] at hr
      exact (Option.some.inj hr).symm
    subst hstart
    refine ⟨?_, fun t ht => by cases ht⟩
    rcases bootmStart_state cfg i.src with ⟨hret, hstate⟩ | ⟨hret, hstate⟩
    · simp only [hret, hstate]
      decide
    · simp only [hret, hstate]
      decide
  · rename_i sub r hne hsub hr
    rw [run_eq hsub hne] at hr
    split at hr
    · cases hr
    · obtain rfl := Option.some.inj hr
      refine ⟨?_, ?_⟩
      · rw [runSub_state, Nat.testBit_or, testBit_state hne, Bool.or_false]
        exact h.start_bit
      · intro t ht
        rw [runSub_state]
        rcases List.mem_cons.1 ht with rfl | ht
        · exact Nat.right_le_or
        · exact (h.executed_le t ht).trans Nat.left_le_or
  · exact h

end BootmAux

open BootmAux

/-- In every run from power-up, a call is in order exactly when the bit of start is set in `images.state` or the call is
refused by the comparison. -/
theorem bootm_in_order_iff (cfg : BootmConfig) (is : List BootmInvocation) (s : BootmRun)
    (hrun : Exec (stepFn (bootmStep cfg)) BootmRun.powerUp is s) (i : BootmInvocation) :
    InOrder cfg s i ↔ StartTested cfg s i := by
  have hstep (s : BootmRun) (i : BootmInvocation) (s' : BootmRun) (h : StateInv s) (hs : stepFn (bootmStep cfg) s i s') : StateInv s' := by
    rw [stepFn] at hs
    subst hs
    exact h.step i
  have hinv := hrun.invariant hstep stateInv_powerUp
  constructor
  · intro h sub hsub hne
    by_cases hle : sub.state ≤ s.images.state
    · exact Or.inr hle
    · have hsome : (i.run cfg s.images).isSome := by
        rw [run_eq hsub hne, if_neg hle]
        rfl
      exact Or.inl (hinv.start_bit.2 (h sub hsub hne hsome).1)
  · intro h sub hsub hne hsome
    have hlt : s.images.state < sub.state := by
      rw [run_eq hsub hne] at hsome
      by_contra hle
      rw [if_pos (Nat.le_of_not_lt hle)] at hsome
      cases hsome
    have hbit : s.images.state.testBit 0 := (h sub hsub hne).resolve_right (Nat.not_le.2 hlt)
    exact ⟨hinv.start_bit.1 hbit, fun t ht => (hinv.executed_le t ht).trans_lt hlt⟩

/-- What `bootm_start` finds of an image that is not there. -/
def noImage : BootmSource where
  verify := true
  osHdr := 0
  imageStart := 0
  imageLen := 0
  legacyHdrValid := false
  fitUnameOs := false
  format := .invalid
  legacyType := 0
  legacyComp := 0
  legacyOs := 0
  legacyEnd := 0
  legacyLoad := 0
  legacyEp := 0
  fitType := ⟨1, 0⟩
  fitComp := ⟨1, 0⟩
  fitOs := ⟨1, 0⟩
  fitEnd := 0
  fitLoad := ⟨1, 0⟩
  fitEntry := ⟨1, 0⟩
  ramdisk := 1
  rdStart := 0
  rdEnd := 0
  fdt := 1
  ftAddr := 0
  ftLen := 0

/-- A legacy standalone image. -/
def standaloneImage : BootmSource :=
  { noImage with
    osHdr := 0x1000, imageStart := 0x1040, imageLen := 0x100, legacyHdrValid := true, format := .legacy, legacyType := 1 }

/-- Calls that return 0 and change nothing. -/
def quietReturns : BootmReturns := ⟨0, 0, 0, 0, 0, 0, 0, 0, 0, id⟩

def loadosCall : BootmInvocation := ⟨CString.ofBytes [0x6c, 0x6f, 0x61, 0x64, 0x6f, 0x73], noImage, quietReturns⟩

/-- After a start that succeeded, `bootm loados` is in order. -/
theorem bootm_in_order_started : InOrder ⟨false, false, true⟩ (bootmStep ⟨false, false, true⟩ BootmRun.powerUp
      ⟨CString.ofBytes [0x73, 0x74, 0x61, 0x72, 0x74], standaloneImage, quietReturns⟩) loadosCall := by
  refine (bootm_in_order_iff _ [_] _ (Exec.single rfl) loadosCall).2 fun sub hsub hne => Or.inl ?_
  decide

/-- At power-up, `bootm loados` loads from the cleared `images`. -/
theorem bootm_in_order_false : (loadosCall.run ⟨false, false, true⟩ BootmHeaders.zero).map (·.calls.length) = some 2 ∧
    BootmRun.powerUp.started = none ∧ ¬InOrder ⟨false, false, true⟩ BootmRun.powerUp loadosCall := by
  refine ⟨by decide, rfl, ?_⟩
  intro h
  have := (h .loados (by decide) (by decide) (by decide)).1
  cases this

end

/-!
## Moving an image with a watchdog

`memmove_wd` moves its chunks in the order of their addresses, whichever way they go.
-/

section

namespace LoadOsAux

theorem unspoiled_of_le {c dst src : Nat} (h : dst ≤ src) (m : Nat → UInt8) (n : Nat) : Lib.Unspoiled c m dst src n := by
  intro i _ _ hread
  have := Nat.div_mul_le_self i c
  omega

theorem memmoveWd_false (m : Nat → UInt8) (dst src len chunksz : Nat) :
    Ram.memmoveWd false m dst src len chunksz = Ram.memmove m dst src len := by
  unfold Ram.memmoveWd
  split
  next h =>
    subst h
    rw [Ram.memmove, if_pos rfl]
  next => rfl

/-- `memmove_wd` with a watchdog is `memmove` when no chunk spoils a later one. -/
theorem memmoveWd_true_iff (m : Nat → UInt8) (dst src len : Nat) {chunksz : Nat} (hc : 0 < chunksz) :
    Ram.memmoveWd true m dst src len chunksz = Ram.memmove m dst src len ↔ Lib.Unspoiled chunksz m dst src len := by
  by_cases heq : dst = src
  · subst heq
    have hsame : Ram.memmoveWd true m dst dst len chunksz = Ram.memmove m dst dst len := by
      rw [Ram.memmoveWd, if_pos rfl, Ram.memmove, if_pos rfl]
    exact iff_of_true hsame (unspoiled_of_le (Nat.le_refl _) m len)
  · rw [Ram.memmoveWd, if_neg heq, if_pos rfl, Ram.memmoveWdLoop_eq, Ram.memmove_eq]
    exact Lib.moveChunks_eq_move_iff hc m dst src (Nat.le_refl len)

/-- An uncompressed image is loaded alike with and without a watchdog when it stays where it is, or no chunk spoils a later one. -/
theorem bootmLoadOs_eq_iff (codecs : Nat → Option Codec) (mem : Nat → UInt8) (os : ImageInfo) (loadEnd : Nat) (hcomp : os.comp = IH_COMP_NONE) :
    bootmLoadOs true codecs mem os loadEnd = bootmLoadOs false codecs mem os loadEnd ↔
      os.load = os.start ∨ Lib.Unspoiled CHUNKSZ mem os.load os.imageStart os.imageLen := by
  have hmove := memmoveWd_true_iff mem os.load os.imageStart os.imageLen (show 0 < CHUNKSZ by decide)
  by_cases hxip : os.load = os.start ∨ os.load = os.imageStart
  · have hsame : bootmLoadOs true codecs mem os loadEnd = bootmLoadOs false codecs mem os loadEnd := by
      simp only [bootmLoadOs, if_pos hcomp, if_pos hxip]
    exact iff_of_true hsame (hxip.imp_right fun h => unspoiled_of_le (Nat.le_of_eq h) mem _)
  · have hstart : os.load ≠ os.start := fun h => hxip (Or.inl h)
    simp only [bootmLoadOs, if_pos hcomp, if_neg hxip, memmoveWd_false]
    rw [or_iff_right hstart, ← hmove]
    constructor
    · intro h
      have := congrArg OsLoaded.mem h
      simpa only [apply_ite OsLoaded.mem, ite_self] using this
    · intro h
      rw [h]

end LoadOsAux

open LoadOsAux

/-- A move with a watchdog is one `memmove` exactly when no chunk replaces a byte that a later one reads by another, and that is what an
uncompressed image depends on that is not executed in place. -/
theorem memmoveWd_iff (mem : Nat → UInt8) (dst src len chunksz : Nat) (codecs : Nat → Option Codec) (os : ImageInfo) (loadEnd : Nat) :
    (0 < chunksz → (Ram.memmoveWd true mem dst src len chunksz = Ram.memmove mem dst src len ↔ Lib.Unspoiled chunksz mem dst src len)) ∧
    (os.comp = IH_COMP_NONE → (bootmLoadOs true codecs mem os loadEnd = bootmLoadOs false codecs mem os loadEnd ↔
        os.load = os.start ∨ Lib.Unspoiled CHUNKSZ mem os.load os.imageStart os.imageLen)) :=
  ⟨fun hc => memmoveWd_true_iff mem dst src len hc, fun hcomp => bootmLoadOs_eq_iff codecs mem os loadEnd hcomp⟩

/-- Two chunks that go one byte upwards: the second one reads what the first one has written. -/
theorem memmoveWd_spoils : ¬∀ (mem : Nat → UInt8) (dst src len chunksz : Nat), 0 < chunksz →
    Ram.memmoveWd true mem dst src len chunksz = Ram.memmove mem dst src len := by
  intro h
  have := congrFun (h (fun a => UInt8.ofNat a) 1 0 2 1 (by decide)) 2
  simp [Ram.memmoveWd, Ram.memmoveWdLoop, Ram.memmove, Lib.moveDown, Function.update] at this

/-- Two chunks of two bytes go one byte downwards as one move, they do not upwards, and an image goes downwards over its own start. -/
theorem memmoveWd_iff_example :
    Ram.memmoveWd true (fun a => UInt8.ofNat a) 0 1 4 2 = Ram.memmove (fun a => UInt8.ofNat a) 0 1 4 ∧
    Ram.memmoveWd true (fun a => UInt8.ofNat a) 1 0 4 2 ≠ Ram.memmove (fun a => UInt8.ofNat a) 1 0 4 ∧
    bootmLoadOs true (fun _ => none) (fun a => UInt8.ofNat a) ⟨0, 16, 8, 8, 4, IH_COMP_NONE, 2, 5⟩ 0 =
      bootmLoadOs false (fun _ => none) (fun a => UInt8.ofNat a) ⟨0, 16, 8, 8, 4, IH_COMP_NONE, 2, 5⟩ 0 := by
  have h := fun dst src => memmoveWd_iff (fun a => UInt8.ofNat a) dst src 4 2 (fun _ => none) ⟨0, 16, 8, 8, 4, IH_COMP_NONE, 2, 5⟩ 0
  refine ⟨((h 0 1).1 (by decide)).2 (by decide), fun hup => ?_, ((h 0 1).2 rfl).2 (Or.inr (by decide))⟩
  exact absurd (((h 1 0).1 (by decide)).1 hup) (by decide)

end

end UBoot
