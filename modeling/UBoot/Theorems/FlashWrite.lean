import UBoot.Flash
import Mathlib.Tactic.SplitIfs

/-!
# A write to flash is complete, and spares what is protected

The check of `flash_write` and its writes go over the banks between the two ends in the array.
-/

namespace UBoot

open Lib List

/-- The end of sector `i`, which may be `2 ^ 32`. -/
def FlashInfo.sectorEnd (info : FlashInfo) (i : Nat) : Nat :=
  if i + 1 = info.sectorCount then info.start 0 + info.size else info.start (i + 1)

/-- The bank is known, and has the address. -/
def FlashInfo.Has (info : FlashInfo) (a : Nat) : Prop :=
  info.flashId ≠ FLASH_UNKNOWN ∧ info.start 0 ≤ a ∧ a < info.start 0 + info.size

def InFlash (banks : List FlashInfo) (a : Nat) : Prop := ∃ info ∈ banks, info.Has a

/-- A protected sector of a known bank intersects `[addr, addr + cnt)`. -/
def HasProtected (banks : List FlashInfo) (addr cnt : Nat) : Prop :=
  ∃ info ∈ banks, info.flashId ≠ FLASH_UNKNOWN ∧
    ∃ i < info.sectorCount, info.protect i ≠ 0 ∧ ∃ a, addr ≤ a ∧ a < addr + cnt ∧ info.start i ≤ a ∧ a < info.sectorEnd i

/-- `write_buff` writes the bytes it is given when it succeeds, and no other byte in any case. -/
def WritesExactly (writeBuff : WriteBuff) : Prop :=
  ∀ info src addr len mem, src.length = len →
    ((writeBuff info src addr len mem).1 = 0 → (writeBuff info src addr len mem).2 = store mem addr src) ∧
    ∀ a, a < addr ∨ addr + len ≤ a → (writeBuff info src addr len mem).2 a = mem a

/-- The result of a write of `src` to `[addr, addr + cnt)` is as it should be. -/
structure WriteSafe (banks : List FlashInfo) (src : List UInt8) (addr cnt : Nat) (mem : FlashMem) (r : Int × FlashMem) : Prop where
  complete : r.1 = ERR_OK → (∀ a, addr ≤ a → a < addr + cnt → InFlash banks a) ∧ Stored r.2 addr src
  frame : ∀ a, a < addr ∨ addr + cnt ≤ a → r.2 a = mem a
  spared : HasProtected banks addr cnt → r.1 = ERR_PROTECTED ∧ r.2 = mem

/-- The sizes are those of the fields, and a bank does not wrap around; it may end at the top of the address space. -/
structure FlashInfo.WF (info : FlashInfo) : Prop where
  start_lt : info.start 0 < 2 ^ 32
  size_lt : info.size < 2 ^ 32
  top : info.start 0 + info.size ≤ 2 ^ 32
  known : info.flashId ≠ FLASH_UNKNOWN → 0 < info.size
  sectors : info.sectorCount ≤ 2 ^ 15

/-- A protected sector, other than one that ends at the top of the address space as the last one of its bank, begins at or before the address
`last` and ends behind `addr`, in one of the banks from the first to the last in the array. -/
def SeenProtected (banks : List FlashInfo) (addr last : Nat) : Prop :=
  ∃ f l, addr2info banks addr = some f ∧ addr2info banks last = some l ∧ ∃ k info, f ≤ k ∧ k ≤ l ∧ banks[k]? = some info ∧
    ∃ i < info.sectorCount, info.start i ≤ last ∧ addr < info.sectorEnd i ∧ info.protect i ≠ 0 ∧
      (i + 1 = info.sectorCount → info.start 0 + info.size < 2 ^ 32)

/-- The condition: nothing is to be written, or the check finds a protected sector; or no protected sector intersects the range, and either the
first or the last address is not in flash, or every address is and the banks of the two stand in the array in this order (or the
bytes are there already). -/
def WriteOk (banks : List FlashInfo) (src : List UInt8) (addr cnt : Nat) (mem : FlashMem) : Prop :=
  cnt = 0 ∨ SeenProtected banks addr (sub32 (add32 addr cnt) 1) ∨ ¬HasProtected banks addr cnt ∧
      (addr2info banks addr = none ∨ addr2info banks (sub32 (add32 addr cnt) 1) = none ∨ (∀ a, addr ≤ a → a < addr + cnt → InFlash banks a) ∧
          (Stored mem addr src ∨ ∃ f l, addr2info banks addr = some f ∧ addr2info banks (sub32 (add32 addr cnt) 1) = some l ∧ f ≤ l))

namespace FlashAux

variable {writeBuff : WriteBuff} {banks : List FlashInfo}
variable {info : FlashInfo} {addr : Nat}

/-! ## Looking up a bank -/

theorem has_iff (hw : info.WF) (a : Nat) : info.has a = true ↔ info.Has a := by
  rw [FlashInfo.has, FlashInfo.Has, Bool.and_eq_true, Bool.and_eq_true, decide_eq_true_eq, decide_eq_true_eq, decide_eq_true_eq, and_assoc]
  refine and_congr_right fun hid => and_congr_right fun _ => ?_
  exact le_last_iff (Nat.add_pos_right _ (hw.known hid)) hw.top

theorem addr2info_some (hw : ∀ info ∈ banks, info.WF) {a k : Nat} (h : addr2info banks a = some k) :
    ∃ info, banks[k]? = some info ∧ info ∈ banks ∧ info.Has a := by
  obtain ⟨hk, hhas, -⟩ := findIdx?_eq_some_iff_getElem.1 h
  have hmem : banks[k] ∈ banks := getElem_mem hk
  exact ⟨banks[k], getElem?_eq_getElem hk, hmem, (has_iff (hw _ hmem) a).1 hhas⟩

/-! ## The check -/

theorem sEnd_eq_iff (hw : info.WF) (i : Nat) : (i : Int) = info.sEnd ↔ i + 1 = info.sectorCount := by
  have := hw.sectors
  unfold FlashInfo.sEnd
  split_ifs <;> omega

theorem hitsProtected_iff (hw : info.WF) (addr last : Nat) : info.hitsProtected addr last = true ↔
      ∃ i < info.sectorCount, info.start i ≤ last ∧ addr < info.sectorEnd i ∧ info.protect i ≠ 0 ∧
        (i + 1 = info.sectorCount → info.start 0 + info.size < 2 ^ 32) := by
  simp only [FlashInfo.hitsProtected, any_eq_true, mem_range, Bool.and_eq_true, decide_eq_true_eq, and_assoc]
  refine exists_congr fun i => and_congr_right fun hi => and_congr_right fun _ => ?_
  simp only [FlashInfo.eAddr, sEnd_eq_iff hw, FlashInfo.sectorEnd]
  by_cases hlast : i + 1 = info.sectorCount
  · simp only [hlast, if_true, true_implies]
    rcases Nat.lt_or_eq_of_le hw.top with hlt | heq
    · rw [add32_of_lt hlt]
      exact ⟨fun h => ⟨h.1, h.2, hlt⟩, fun h => ⟨h.1, h.2.1⟩⟩
    · rw [add32_of_eq heq, heq]
      exact ⟨fun h => absurd h.1 (Nat.not_lt_zero _), fun h => absurd h.2.2 (Nat.lt_irrefl _)⟩
  · simp [hlast]

theorem mem_infos {f l : Nat} : info ∈ (banks.drop f).take (l + 1 - f) ↔ ∃ k, f ≤ k ∧ k ≤ l ∧ banks[k]? = some info := by
  rw [mem_iff_getElem?]
  constructor
  · rintro ⟨i, hi⟩
    rw [getElem?_take] at hi
    split_ifs at hi with hlt
    rw [getElem?_drop] at hi
    exact ⟨f + i, by omega, by omega, hi⟩
  · rintro ⟨k, hfk, hkl, hk⟩
    refine ⟨k - f, ?_⟩
    rw [getElem?_take, if_pos (by omega), getElem?_drop, Nat.add_sub_cancel' hfk]
    exact hk

theorem any_hitsProtected_iff (hw : ∀ info ∈ banks, info.WF) {last f l : Nat} (hf : addr2info banks addr = some f)
    (hl : addr2info banks last = some l) :
    (((banks.drop f).take (l + 1 - f)).any fun info => info.hitsProtected addr last) = true ↔ SeenProtected banks addr last := by
  rw [any_eq_true]
  constructor
  · rintro ⟨info, hmem, hhit⟩
    obtain ⟨k, hfk, hkl, hk⟩ := mem_infos.1 hmem
    exact ⟨f, l, hf, hl, k, info, hfk, hkl, hk, (hitsProtected_iff (hw info (mem_of_getElem? hk)) addr last).1 hhit⟩
  · rintro ⟨f', l', hf', hl', k, info, hfk, hkl, hk, hhit⟩
    obtain rfl : f = f' := Option.some.inj (hf.symm.trans hf')
    obtain rfl : l = l' := Option.some.inj (hl.symm.trans hl')
    exact ⟨info, mem_infos.2 ⟨k, hfk, hkl, hk⟩, (hitsProtected_iff (hw info (mem_of_getElem? hk)) addr last).2 hhit⟩

/-! ## The loop that writes -/

theorem writeLoop_zero (infos : List FlashInfo) (src : List UInt8) (addr : Nat) (mem : FlashMem) :
    writeLoop writeBuff infos src addr 0 mem = (ERR_OK, mem) := by
  cases infos <;> rfl

/-- The last of the banks has the end of the range; when the range begins at 0 and this bank ends at the top, it is not the first one. -/
def Reaches (infos : List FlashInfo) (addr cnt : Nat) : Prop :=
  ∃ last, infos.getLast? = some last ∧ last.WF ∧ addr + cnt ≤ last.start 0 + last.size ∧ (addr = 0 → last.start 0 + last.size = 2 ^ 32 →
      ∀ info, infos.head? = some info → 0 < info.start 0 + info.size ∧ info.start 0 + info.size < 2 ^ 32)

theorem reaches_last {cnt : Nat} (h : Reaches [info] addr cnt) : cnt ≤ sub32 (add32 (info.start 0) info.size) addr := by
  obtain ⟨last, hlast, hw, hend, hzero⟩ := h
  obtain rfl : info = last := by simpa using hlast
  rcases Nat.lt_or_eq_of_le hw.top with hlt | heq
  · rw [add32_of_lt hlt, sub32_of_le (by omega) hlt]
    omega
  · rw [add32_of_eq heq]
    have hpos : 0 < addr := Nat.pos_of_ne_zero fun h0 => by
      have := hzero h0 heq info rfl
      omega
    rcases Nat.lt_or_ge addr (2 ^ 32) with hlt | hge
    · rw [sub32_zero hpos hlt]
      omega
    · omega

theorem reaches_tail {next : FlashInfo} {infos : List FlashInfo} {cnt len : Nat} (hlen : len ≤ cnt)
    (hne : len < cnt → len = sub32 (add32 (info.start 0) info.size) addr) (hpos : 0 < cnt)
    (h : Reaches (info :: next :: infos) addr cnt) : Reaches (next :: infos) (addr + len) (cnt - len) := by
  obtain ⟨last, hlast, hw, hend, hzero⟩ := h
  refine ⟨last, by simpa using hlast, hw, by omega, fun h0 htop => ?_⟩
  obtain ⟨h1, h2⟩ := hzero (by omega) htop info rfl
  obtain rfl : addr = 0 := by omega
  have hl : len = 0 := by omega
  have := hne (by omega)
  rw [add32_of_lt h2, sub32_of_le (Nat.zero_le _) h2] at this
  omega

/-- The loop writes nothing outside the range; and when the banks reach its end, it returns 0 only with the whole range written. -/
theorem writeLoop_spec (hwb : WritesExactly writeBuff) (infos : List FlashInfo) (src : List UInt8) (addr cnt : Nat) (mem : FlashMem)
    (hsrc : src.length = cnt) (htop : addr + cnt ≤ 2 ^ 32) :
    (∀ a, a < addr ∨ addr + cnt ≤ a → (writeLoop writeBuff infos src addr cnt mem).2 a = mem a) ∧
      (Reaches infos addr cnt → (writeLoop writeBuff infos src addr cnt mem).1 = ERR_OK →
        (writeLoop writeBuff infos src addr cnt mem).2 = store mem addr src) := by
  induction infos generalizing src addr cnt mem with
  | nil => exact ⟨fun _ _ => rfl, fun ⟨_, hlast, _⟩ => by cases hlast⟩
  | cons info infos ih =>
    rcases Nat.eq_zero_or_pos cnt with rfl | hpos
    · rw [writeLoop_zero, length_eq_zero_iff.1 hsrc, store_nil]
      exact ⟨fun _ _ => rfl, fun _ _ => rfl⟩
    rw [writeLoop, if_pos hpos]
    simp only
    generalize hlen : min (sub32 (add32 (info.start 0) info.size) addr) cnt = len
    have hle : len ≤ cnt := by omega
    have htake : (src.take len).length = len := by rw [length_take]; omega
    obtain ⟨hwrite, hout⟩ := hwb info (src.take len) addr len mem htake
    by_cases hr : (writeBuff info (src.take len) addr len mem).1 ≠ 0
    · rw [if_pos hr]
      exact ⟨fun a ha => hout a (by omega), fun _ h0 => absurd h0 hr⟩
    rw [if_neg hr, hwrite (not_not.1 hr)]
    -- the rest of the range, where the address wraps around only when nothing is left
    have hrest : writeLoop writeBuff infos (src.drop len) (add32 addr len) (cnt - len) (store mem addr (src.take len)) =
        writeLoop writeBuff infos (src.drop len) (addr + len) (cnt - len) (store mem addr (src.take len)) := by
      rcases Nat.lt_or_eq_of_le (show addr + len ≤ 2 ^ 32 by omega) with hlt | heq
      · rw [add32_of_lt hlt]
      · rw [show cnt - len = 0 by omega, writeLoop_zero, writeLoop_zero]
    obtain ⟨ihout, ihdone⟩ := ih (src.drop len) (addr + len) (cnt - len) (store mem addr (src.take len)) (by rw [length_drop, hsrc]) (by omega)
    rw [hrest]
    refine ⟨fun a ha => ?_, fun hreach h0 => ?_⟩
    · rw [ihout a (by omega), store_of_outside (by omega)]
    · have hboth : store (store mem addr (src.take len)) (addr + len) (src.drop len) = store mem addr src := by
        have := store_store mem addr (src.take len) (src.drop len)
        rwa [htake, take_append_drop] at this
      rw [← hboth]
      cases infos with
      | nil =>
        have hall := reaches_last hreach
        have hdrop : src.drop len = [] := drop_eq_nil_of_le (by omega)
        rw [writeLoop, hdrop, store_nil]
      | cons next infos => exact ihdone (reaches_tail hle (by omega) hpos hreach) h0

/-- A `write_buff` that always succeeds. -/
def writeAll : WriteBuff := fun _ src addr _ mem => (0, store mem addr src)

theorem writeAll_exact : WritesExactly writeAll := by
  intro info src addr len mem hsrc
  refine ⟨fun _ => rfl, fun a ha => store_of_outside (by omega)⟩

theorem writeLoop_writeAll (infos : List FlashInfo) (src : List UInt8) (addr cnt : Nat) (mem : FlashMem) :
    (writeLoop writeAll infos src addr cnt mem).1 = ERR_OK := by
  induction infos generalizing src addr cnt mem with
  | nil => rfl
  | cons info infos ih =>
    rw [writeLoop]
    split_ifs with hpos
    · exact ih _ _ _ _
    · rfl

/-! ## The whole write -/

section Write

variable {src : List UInt8} {addr cnt f l : Nat} {mem : FlashMem}

theorem flashWrite_missing (hcnt : cnt ≠ 0) (h : addr2info banks addr = none ∨ addr2info banks (sub32 (add32 addr cnt) 1) = none) :
    flashWrite writeBuff banks src addr cnt mem = (ERR_INVAL, mem) := by
  rw [flashWrite, if_neg hcnt]
  rcases h with h | h
  · simp only [h]
  · cases addr2info banks addr <;> simp only [h]

theorem flashWrite_seen (hw : ∀ info ∈ banks, info.WF) (hcnt : cnt ≠ 0) (h : SeenProtected banks addr (sub32 (add32 addr cnt) 1)) :
    flashWrite writeBuff banks src addr cnt mem = (ERR_PROTECTED, mem) := by
  obtain ⟨f, l, hf, hl, -⟩ := id h
  rw [flashWrite, if_neg hcnt]
  simp only [hf, hl, (any_hitsProtected_iff hw hf hl).2 h, if_true]

theorem flashWrite_unseen (hw : ∀ info ∈ banks, info.WF) (hcnt : cnt ≠ 0) (hf : addr2info banks addr = some f)
    (hl : addr2info banks (sub32 (add32 addr cnt) 1) = some l) (h : ¬SeenProtected banks addr (sub32 (add32 addr cnt) 1)) :
    flashWrite writeBuff banks src addr cnt mem = writeLoop writeBuff ((banks.drop f).take (l + 1 - f)) src addr cnt mem := by
  have hany := mt (any_hitsProtected_iff hw hf hl).1 h
  rw [flashWrite, if_neg hcnt]
  simp only [hf, hl, if_neg hany]

theorem last_eq (hcnt : cnt ≠ 0) (htop : addr + cnt ≤ 2 ^ 32) : sub32 (add32 addr cnt) 1 = addr + cnt - 1 := by
  have h := fun a => le_last_iff (a := a) (Nat.add_pos_right _ (Nat.pos_of_ne_zero hcnt)) htop
  have h1 := h (addr + cnt - 1)
  have h2 := h (sub32 (add32 addr cnt) 1)
  omega

theorem reaches_infos (hw : ∀ info ∈ banks, info.WF) (hcnt : cnt ≠ 0) (htop : addr + cnt ≤ 2 ^ 32) (hf : addr2info banks addr = some f)
    (hl : addr2info banks (sub32 (add32 addr cnt) 1) = some l) (hle : f ≤ l) :
    Reaches ((banks.drop f).take (l + 1 - f)) addr cnt := by
  obtain ⟨first, hfirst, hfmem, -, hflo, hfhi⟩ := addr2info_some hw hf
  obtain ⟨last, hlast, hlmem, -, hllo, hlhi⟩ := addr2info_some hw hl
  rw [last_eq hcnt htop] at hllo hlhi
  have hlen : l < banks.length := (List.getElem?_eq_some_iff.1 hlast).1
  refine ⟨last, ?_, hw last hlmem, by omega, fun h0 _ info hinfo => ?_⟩
  · rw [getLast?_eq_getElem?, length_take, length_drop, Nat.min_eq_left (by omega), getElem?_take,
      if_pos (by omega), getElem?_drop, show f + (l + 1 - f - 1) = l by omega, hlast]
  · rw [head?_eq_getElem?, getElem?_take, if_pos (by omega), getElem?_drop, Nat.add_zero, hfirst, Option.some.injEq] at hinfo
    have := (hw first hfmem).size_lt
    rw [← hinfo]
    omega

theorem top_of_inFlash (hw : ∀ info ∈ banks, info.WF) (hcnt : cnt ≠ 0) (h : ∀ a, addr ≤ a → a < addr + cnt → InFlash banks a) :
    addr + cnt ≤ 2 ^ 32 := by
  obtain ⟨info, hmem, -, -, hlt⟩ := h (addr + cnt - 1) (by omega) (by omega)
  have := (hw info hmem).top
  omega

end Write

end FlashAux

open FlashAux

/-- For every `write_buff` that writes what it is given, a write is complete when it returns `ERR_OK`, stays in its range and spares protected
sectors, exactly when the condition holds. -/
theorem flash_write_safe_iff (banks : List FlashInfo) (hw : ∀ info ∈ banks, info.WF) (src : List UInt8) (addr cnt : Nat) (mem : FlashMem)
    (hsrc : src.length = cnt) :
    (∀ writeBuff, WritesExactly writeBuff → WriteSafe banks src addr cnt mem (flashWrite writeBuff banks src addr cnt mem)) ↔
      WriteOk banks src addr cnt mem := by
  rcases Nat.eq_zero_or_pos cnt with rfl | hpos
  · -- nothing to write
    refine iff_of_true (fun writeBuff _ => ⟨fun _ => ⟨fun a h1 h2 => by omega, ?_⟩, fun _ _ => rfl, ?_⟩) (Or.inl rfl)
    · rw [length_eq_zero_iff.1 hsrc]
      exact stored_nil _ _
    · rintro ⟨info, -, -, i, -, -, a, h1, h2, -⟩
      omega
  have hcnt : cnt ≠ 0 := by omega
  constructor
  · intro h
    by_cases hseen : SeenProtected banks addr (sub32 (add32 addr cnt) 1)
    · exact Or.inr (Or.inl hseen)
    obtain ⟨hcomplete, -, hspared⟩ := h writeAll writeAll_exact
    refine Or.inr (Or.inr ?_)
    cases hf : addr2info banks addr with
    | none =>
      rw [flashWrite_missing hcnt (Or.inl hf)] at hspared
      exact ⟨fun hp => absurd (hspared hp).1 (show ERR_INVAL ≠ ERR_PROTECTED by decide), Or.inl rfl⟩
    | some f =>
      cases hl : addr2info banks (sub32 (add32 addr cnt) 1) with
      | none =>
        rw [flashWrite_missing hcnt (Or.inr hl)] at hspared
        exact ⟨fun hp => absurd (hspared hp).1 (show ERR_INVAL ≠ ERR_PROTECTED by decide), Or.inr (Or.inl rfl)⟩
      | some l =>
        rw [flashWrite_unseen hw hcnt hf hl hseen] at hcomplete hspared
        have hok := writeLoop_writeAll ((banks.drop f).take (l + 1 - f)) src addr cnt mem
        obtain ⟨hall, hstored⟩ := hcomplete hok
        refine ⟨fun hp => ?_, Or.inr (Or.inr ⟨hall, ?_⟩)⟩
        · have := (hspared hp).1
          rw [hok] at this
          cases this
        · by_cases hle : f ≤ l
          · exact Or.inr ⟨f, l, rfl, rfl, hle⟩
          · rw [show l + 1 - f = 0 by omega] at hstored
            exact Or.inl hstored
  · rintro (h0 | hseen | ⟨hno, hrest⟩) writeBuff hwb
    · exact absurd h0 hcnt
    · rw [flashWrite_seen hw hcnt hseen]
      exact ⟨fun h0 => (by cases h0), fun _ _ => rfl, fun _ => ⟨rfl, rfl⟩⟩
    by_cases hseen : SeenProtected banks addr (sub32 (add32 addr cnt) 1)
    · rw [flashWrite_seen hw hcnt hseen]
      exact ⟨fun h0 => (by cases h0), fun _ _ => rfl, fun _ => ⟨rfl, rfl⟩⟩
    have hmissing (hm : addr2info banks addr = none ∨ addr2info banks (sub32 (add32 addr cnt) 1) = none) :
        WriteSafe banks src addr cnt mem (flashWrite writeBuff banks src addr cnt mem) := by
      rw [flashWrite_missing hcnt hm]
      exact ⟨fun h0 => (by cases h0), fun _ _ => rfl, fun hp => absurd hp hno⟩
    cases hf : addr2info banks addr with
    | none => exact hmissing (Or.inl hf)
    | some f =>
      cases hl : addr2info banks (sub32 (add32 addr cnt) 1) with
      | none => exact hmissing (Or.inr hl)
      | some l =>
        rw [hf, hl] at hrest
        obtain ⟨hall, hbytes⟩ := (hrest.resolve_left (by simp)).resolve_left (by simp)
        have htop := top_of_inFlash hw hcnt hall
        obtain ⟨hout, hdone⟩ := writeLoop_spec hwb ((banks.drop f).take (l + 1 - f)) src addr cnt mem hsrc htop
        rw [flashWrite_unseen hw hcnt hf hl hseen]
        refine ⟨fun h0 => ⟨hall, ?_⟩, hout, fun hp => absurd hp hno⟩
        by_cases hle : f ≤ l
        · rw [hdone (reaches_infos hw hcnt htop hf hl hle) h0]
          exact stored_store mem addr src
        · rw [show l + 1 - f = 0 by omega]
          refine hbytes.resolve_right ?_
          rintro ⟨f', l', hf', hl', hle'⟩
          rw [Option.some.injEq] at hf' hl'
          omega

/-- Two banks of two sectors, the second one at the top of the address space with its last sector protected. -/
def topBanks : List FlashInfo :=
  [⟨0x200000, 2, 1, fun i => 0xffc00000 + i * 0x100000, fun _ => 0⟩, ⟨0x200000, 2, 1, fun i => 0xffe00000 + i * 0x100000, fun i => i⟩]

theorem topBanks_wf : ∀ info ∈ topBanks, info.WF := by
  simp only [topBanks, forall_mem_cons, not_mem_nil, false_implies, implies_true, and_true]
  exact ⟨⟨by decide, by decide, by decide, fun _ => by decide, by decide⟩, ⟨by decide, by decide, by decide, fun _ => by decide, by decide⟩⟩

/-- Two bytes, one in each bank. -/
theorem flash_write_safe_topBanks : (∀ info ∈ topBanks, info.WF) ∧ ∀ writeBuff, WritesExactly writeBuff →
    WriteSafe topBanks [1, 2] 0xffdfffff 2 (fun _ => 0xff) (flashWrite writeBuff topBanks [1, 2] 0xffdfffff 2 fun _ => 0xff) := by
  refine ⟨topBanks_wf, (flash_write_safe_iff topBanks topBanks_wf [1, 2] 0xffdfffff 2 (fun _ => 0xff) rfl).2
    (Or.inr (Or.inr ⟨?_, Or.inr (Or.inr ⟨?_, ?_⟩)⟩))⟩
  · rintro ⟨info, hmem, -, i, hi, hp, a, h1, h2, h3, -⟩
    simp only [topBanks, mem_cons, not_mem_nil, or_false] at hmem
    rcases hmem with rfl | rfl
    · exact hp rfl
    · simp only at hp h3
      omega
  · intro a h1 h2
    rcases Nat.lt_or_eq_of_le h1 with hlt | rfl
    · exact ⟨_, mem_cons_of_mem _ mem_cons_self, by decide, by simp only; omega, by simp only; omega⟩
    · exact ⟨_, mem_cons_self, by decide, by decide, by decide⟩
  · exact Or.inr ⟨0, 1, by decide, by decide, by decide⟩

/-- The protected sector at the top is written. -/
theorem flash_write_safe_false : ¬∀ writeBuff, WritesExactly writeBuff →
    WriteSafe topBanks [1] 0xfff00000 1 (fun _ => 0xff) (flashWrite writeBuff topBanks [1] 0xfff00000 1 fun _ => 0xff) := by
  intro h
  have hprot : HasProtected topBanks 0xfff00000 1 :=
    ⟨_, mem_cons_of_mem _ mem_cons_self, by decide, 1, by decide, by decide, 0xfff00000, by decide, by decide, by decide, by decide⟩
  have hcode := ((h writeAll writeAll_exact).spared hprot).1
  have hok : (flashWrite writeAll topBanks [1] 0xfff00000 1 fun _ => 0xff).1 = ERR_OK := by decide
  rw [hok] at hcode
  cases hcode

end UBoot
