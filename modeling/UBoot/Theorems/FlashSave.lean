import UBoot.EnvDevices

/-!
# A save to NOR flash puts back what it erased

If the write that puts back the rest of the sector fails, `rc` is still the 0 of the write before.
-/

namespace UBoot

open Lib List Option

variable {cfg : EnvFlashConfig}

/-! ## What a save promises -/

/-- The sector holds the environment in its first `CONFIG_ENV_SIZE` bytes, and the bytes behind it are what they were. -/
structure SectorSaved (s : EnvSector cfg) (env : List UInt8) (mem mem' : FlashMem) : Prop where
  size : env.length = cfg.CONFIG_ENV_SIZE
  env : Stored mem' s.addr env
  rest : ∀ a, s.addr + cfg.CONFIG_ENV_SIZE ≤ a → a ≤ s.endAddr → mem' a = mem a

/-- A redundant save that returns 0 has saved the sector, marked the previous copy obsolete and exchanged the copies. -/
def SavesRedund (o : FlashSave) (envHtab : Htab) (s : EnvSectors cfg) (mem : FlashMem) : Prop :=
  ∀ r, saveenvRedund o envHtab s mem = some r → r.1 = 0 → ∃ data, hexportR true true envHtab 0 (cfg.ENV_SIZE 5) [] = some (.ok data) ∧
      SectorSaved s.flashAddrNew (envNew [ACTIVE_FLAG] data) mem r.2.2 ∧ r.2.2 (s.flashAddr.addr + 4) = OBSOLETE_FLAG ∧ r.2.1 = s.swap

/-- A save that returns 0 has saved the sector. -/
def Saves (o : FlashSave) (envHtab : Htab) (s : EnvSector cfg) (mem : FlashMem) : Prop :=
  ∀ r, saveenv o envHtab s mem = some r → r.1 = 0 →
    ∃ data, hexportR true true envHtab 0 (cfg.ENV_SIZE 4) [] = some (.ok data) ∧ SectorSaved s (envNew [] data) mem r.2

/-- The redundant save gets to its last write. -/
structure ReachesRestoreRedund (cfg : EnvFlashConfig) (o : FlashSave) (envHtab : Htab) (data : List UInt8) : Prop where
  protectOff : o.protectOff = 0
  protectOffNew : o.protectOffNew = 0
  exported : hexportR true true envHtab 0 (cfg.ENV_SIZE 5) [] = some (.ok data)
  mallocOk : o.mallocOk = true
  erase : o.erase = .ok
  write : o.write = .ok
  flag : o.flag = .ok

/-- The save gets to its last write. -/
structure ReachesRestore (cfg : EnvFlashConfig) (o : FlashSave) (envHtab : Htab) (data : List UInt8) : Prop where
  protectOff : o.protectOff = 0
  exported : hexportR true true envHtab 0 (cfg.ENV_SIZE 4) [] = some (.ok data)
  mallocOk : o.mallocOk = true
  erase : o.erase = .ok
  write : o.write = .ok

/-- The last write succeeds, or fails and leaves the bytes all the same. -/
def FlashOutcome.Restores (o : FlashOutcome) (s : EnvSector cfg) (mem : FlashMem) : Prop :=
  match o with
  | .ok => True
  | .error _ _ left => ∀ a, s.addr + cfg.CONFIG_ENV_SIZE ≤ a → a ≤ s.endAddr → left a = mem a

namespace FlashSaveAux

/-! ## The operations -/

variable {h : Htab} {data : List UInt8} {s : EnvSector cfg} {mem : FlashMem} {r : Int × EnvSectors cfg × FlashMem}

theorem erase_rc_eq_zero_iff (o : FlashOutcome) (first last : Nat) (mem : FlashMem) : (o.erase first last mem).1 = 0 ↔ o = .ok := by
  cases o with
  | ok => simp [FlashOutcome.erase]
  | error rc h left => simp [FlashOutcome.erase, h]

theorem write_rc_eq_zero_iff (o : FlashOutcome) (src : List UInt8) (addr : Nat) (mem : FlashMem) : (o.write src addr mem).1 = 0 ↔ o = .ok := by
  cases o with
  | ok => simp [FlashOutcome.write]
  | error rc h left => simp [FlashOutcome.write, h]

theorem write_outside (o : FlashOutcome) {src : List UInt8} {addr a : Nat} (mem : FlashMem) (h : a < addr ∨ addr + src.length ≤ a) :
    (o.write src addr mem).2 a = mem a := by
  cases o with
  | ok => exact store_of_outside h
  | error rc hrc left => exact if_neg (by omega)

theorem upData_eq (s : EnvSector cfg) : s.upData = cfg.CONFIG_ENV_SECT_SIZE - cfg.CONFIG_ENV_SIZE := by
  have := s.end_eq
  unfold EnvSector.upData
  omega

theorem upData_ne_zero (s : EnvSector cfg) : s.upData ≠ 0 := by
  have := cfg.larger
  rw [upData_eq]
  omega

theorem length_savedData (s : EnvSector cfg) (mem : FlashMem) : (s.savedData mem).length = s.upData := by
  simp [EnvSector.savedData]

theorem rest_end (s : EnvSector cfg) : s.addr + cfg.CONFIG_ENV_SIZE + s.upData = s.endAddr + 1 := by
  have := s.end_eq
  have := cfg.larger
  rw [upData_eq]
  omega

theorem restore_ok (s : EnvSector cfg) (mem mem' : FlashMem) {a : Nat} (h1 : s.addr + cfg.CONFIG_ENV_SIZE ≤ a) (h2 : a ≤ s.endAddr) :
    (FlashOutcome.ok.write (s.savedData mem) (s.addr + cfg.CONFIG_ENV_SIZE) mem').2 a = mem a := by
  have hend := rest_end s
  obtain ⟨i, rfl⟩ := Nat.exists_eq_add_of_le h1
  refine stored_store mem' _ _ i _ ?_
  rw [EnvSector.savedData, getElem?_map, getElem?_range' (by omega), map_some, Nat.one_mul]

/-- The buffer of an export has the size it was given. -/
theorem length_hexportR {size : Nat} (hsize : size ≠ 0)
    (hx : hexportR true true h 0 size [] = some (.ok data)) : data.length = size := by
  unfold hexportR at hx
  split at hx
  · cases hx
  · rename_i list hlist
    simp only [hsize, ne_eq, not_false_eq_true, if_true, true_and, Bool.not_true, Bool.and_false, Bool.false_eq_true, if_false] at hx
    split at hx
    · cases hx
    · split at hx
      · rename_i hle
        simp only [some.injEq, Except.ok.injEq] at hx
        rw [← hx, length_append, length_replicate]
        omega
      · cases hx

theorem length_envNew (flags : List UInt8) (hf : 4 + flags.length < cfg.CONFIG_ENV_SIZE)
    (hx : hexportR true true h 0 (cfg.ENV_SIZE (4 + flags.length)) [] = some (.ok data)) :
    (envNew flags data).length = cfg.CONFIG_ENV_SIZE := by
  have hlen := length_hexportR (by unfold EnvFlashConfig.ENV_SIZE; omega) hx
  have hle : (le32 (crc32 0 data).toNat).length = 4 := by simp [le32]
  rw [envNew, length_append, length_append, hlen, hle]
  unfold EnvFlashConfig.ENV_SIZE
  omega

/-! ## The redundant save -/

variable {o : FlashSave} {envHtab : Htab}

/-- A save that does not get to its last write reports the failure. -/
theorem saveenvRedund_failed {s : EnvSectors cfg} (hno : ∀ data, ¬ReachesRestoreRedund cfg o envHtab data) (hr : saveenvRedund o envHtab s mem = some r) : r.1 ≠ 0 := by
  unfold saveenvRedund at hr
  split at hr
  · rw [← some.inj hr]
    exact one_ne_zero
  rename_i hp
  split at hr
  · rw [← some.inj hr]
    exact one_ne_zero
  rename_i hpn
  split at hr
  · cases hr
  · rw [← some.inj hr]
    exact one_ne_zero
  rename_i data hx
  split at hr
  · rw [← some.inj hr]
    exact one_ne_zero
  rename_i hm
  simp only at hr
  split at hr
  · rw [← some.inj hr]
    exact one_ne_zero
  rename_i he
  split at hr
  · rename_i hw
    rw [← some.inj hr]
    exact hw
  rename_i hw
  split at hr
  · rename_i hf
    rw [← some.inj hr]
    exact hf
  rename_i hf
  refine absurd ⟨not_not.1 hp, not_not.1 hpn, hx, ?_, ?_, ?_, ?_⟩ (hno data)
  · simpa [upData_ne_zero] using hm
  · exact (erase_rc_eq_zero_iff _ _ _ _).1 (not_not.1 he)
  · exact (write_rc_eq_zero_iff _ _ _ _).1 (not_not.1 hw)
  · exact (write_rc_eq_zero_iff _ _ _ _).1 (not_not.1 hf)

/-- A save that gets to its last write returns 0, and exchanges the copies if that write succeeds. -/
theorem saveenvRedund_reached (hreach : ReachesRestoreRedund cfg o envHtab data) (s : EnvSectors cfg)
    (mem : FlashMem) : ∃ s' mem₁, saveenvRedund o envHtab s mem =
        some (0, s', (o.restore.write (s.flashAddrNew.savedData mem) (s.flashAddrNew.addr + cfg.CONFIG_ENV_SIZE) mem₁).2) ∧
      (o.restore = .ok → s' = s.swap) ∧ (o.restore ≠ .ok → s' = s) ∧
      Stored mem₁ s.flashAddrNew.addr (envNew [ACTIVE_FLAG] data) ∧ mem₁ (s.flashAddr.addr + 4) = OBSOLETE_FLAG := by
  obtain ⟨hp, hpn, hx, hm, he, hw, hf⟩ := hreach
  have hlen := length_envNew [ACTIVE_FLAG] cfg.header_lt hx
  have hsize := cfg.header_lt
  have hlarger := cfg.larger
  have hold := s.flashAddr.end_eq
  have hnew := s.flashAddrNew.end_eq
  have hapart := s.apart
  unfold saveenvRedund
  rw [hx]
  simp only [hp, hpn, hm, he, hw, hf, FlashOutcome.erase, FlashOutcome.write, EnvSector.restoreRest, upData_ne_zero, ne_eq,
    not_true_eq_false, if_false, not_false_eq_true, if_true, Bool.not_true, Bool.false_eq_true, and_false]
  generalize (fun a => if s.flashAddrNew.addr ≤ a ∧ a ≤ s.flashAddrNew.endAddr then (0xff : UInt8) else mem a) = erased
  have hstored : Stored (store (store erased s.flashAddrNew.addr (envNew [ACTIVE_FLAG] data)) (s.flashAddr.addr + 4) [OBSOLETE_FLAG])
      s.flashAddrNew.addr (envNew [ACTIVE_FLAG] data) :=
    (stored_store _ _ _).store_outside (by rw [hlen, length_singleton]; omega)
  have hflag : store (store erased s.flashAddrNew.addr (envNew [ACTIVE_FLAG] data)) (s.flashAddr.addr + 4) [OBSOLETE_FLAG]
      (s.flashAddr.addr + 4) = OBSOLETE_FLAG := (stored_cons.1 (stored_store _ _ _)).1
  generalize store (store erased s.flashAddrNew.addr (envNew [ACTIVE_FLAG] data)) (s.flashAddr.addr + 4) [OBSOLETE_FLAG] = mem₁ at hstored hflag
  cases hrest : o.restore with
  | ok => exact ⟨s.swap, mem₁, by simp, fun _ => rfl, fun h => absurd rfl h, hstored, hflag⟩
  | error rc hrc left => exact ⟨s, mem₁, by simp [hrc], (fun h => nomatch h), fun _ => rfl, hstored, hflag⟩

/-! ## The save without redundancy -/

/-- A save that does not get to its last write reports the failure. -/
theorem saveenv_failed (hno : ∀ data, ¬ReachesRestore cfg o envHtab data)
    {r : Int × FlashMem} (hr : saveenv o envHtab s mem = some r) : r.1 ≠ 0 := by
  unfold saveenv at hr
  split at hr
  · rw [← some.inj hr]
    exact one_ne_zero
  rename_i hm
  simp only at hr
  split at hr
  · rw [← some.inj hr]
    exact one_ne_zero
  rename_i hp
  split at hr
  · cases hr
  · rw [← some.inj hr]
    exact one_ne_zero
  rename_i data hx
  split at hr
  · rw [← some.inj hr]
    exact one_ne_zero
  rename_i he
  split at hr
  · rename_i hw
    rw [← some.inj hr]
    exact hw
  rename_i hw
  refine absurd ⟨not_not.1 hp, hx, ?_, ?_, ?_⟩ (hno data)
  · simpa [upData_ne_zero] using hm
  · exact (erase_rc_eq_zero_iff _ _ _ _).1 (not_not.1 he)
  · exact (write_rc_eq_zero_iff _ _ _ _).1 (not_not.1 hw)

theorem saveenv_reached (hreach : ReachesRestore cfg o envHtab data) (s : EnvSector cfg) (mem : FlashMem) :
    ∃ mem₁, saveenv o envHtab s mem =
        some (0, (o.restore.write (s.savedData mem) (s.addr + cfg.CONFIG_ENV_SIZE) mem₁).2) ∧ Stored mem₁ s.addr (envNew [] data) := by
  obtain ⟨hp, hx, hm, he, hw⟩ := hreach
  unfold saveenv
  rw [hx]
  simp only [hp, hm, he, hw, FlashOutcome.erase, FlashOutcome.write, EnvSector.restoreRest, upData_ne_zero, ne_eq, not_true_eq_false,
    if_false, not_false_eq_true, if_true, Bool.not_true, Bool.false_eq_true, and_false]
  generalize (fun a => if s.addr ≤ a ∧ a ≤ s.endAddr then (0xff : UInt8) else mem a) = erased
  have hstored := stored_store erased s.addr (envNew [] data)
  generalize store erased s.addr (envNew [] data) = mem₁ at hstored
  cases hrest : o.restore with
  | ok => exact ⟨mem₁, by simp, hstored⟩
  | error rc hrc left => exact ⟨mem₁, by simp [hrc], hstored⟩

theorem sectorSaved_iff {env : List UInt8} {mem₁ : FlashMem} (hsize : env.length = cfg.CONFIG_ENV_SIZE)
    (henv : Stored mem₁ s.addr env) :
    SectorSaved s env mem (o.restore.write (s.savedData mem) (s.addr + cfg.CONFIG_ENV_SIZE) mem₁).2 ↔ o.restore.Restores s mem := by
  have hkeep : Stored (o.restore.write (s.savedData mem) (s.addr + cfg.CONFIG_ENV_SIZE) mem₁).2 s.addr env := by
    intro i x hx
    have hi := (List.getElem?_eq_some_iff.1 hx).1
    rw [write_outside _ _ (Or.inl (by omega)), henv i x hx]
  have hend := rest_end s
  cases hrest : o.restore with
  | ok =>
    rw [hrest] at hkeep
    exact iff_of_true ⟨hsize, hkeep, fun a h1 h2 => restore_ok s mem mem₁ h1 h2⟩ trivial
  | error rc hrc left =>
    rw [hrest] at hkeep
    have hleft (a : Nat) (h1 : s.addr + cfg.CONFIG_ENV_SIZE ≤ a) (h2 : a ≤ s.endAddr) :
        ((FlashOutcome.error rc hrc left).write (s.savedData mem) (s.addr + cfg.CONFIG_ENV_SIZE) mem₁).2 a = left a :=
      if_pos ⟨h1, by rw [length_savedData]; omega⟩
    constructor
    · intro hsaved a h1 h2
      rw [← hleft a h1 h2]
      exact hsaved.rest a h1 h2
    · intro hall
      exact ⟨hsize, hkeep, fun a h1 h2 => by rw [hleft a h1 h2]; exact hall a h1 h2⟩

end FlashSaveAux

open FlashSaveAux

/-- A save to NOR flash puts back what it erased exactly when it does not get to its last write, or that write succeeds; without
redundancy also when that write fails and leaves the bytes it was to write. -/
theorem flash_saveenv_iff (o : FlashSave) (envHtab : Htab) (mem : FlashMem) :
    (∀ s : EnvSectors cfg, SavesRedund o envHtab s mem ↔ ∀ data, ReachesRestoreRedund cfg o envHtab data → o.restore = .ok) ∧
      ∀ s : EnvSector cfg, Saves o envHtab s mem ↔ ∀ data, ReachesRestore cfg o envHtab data → o.restore.Restores s mem := by
  refine ⟨fun s => ⟨?_, ?_⟩, fun s => ⟨?_, ?_⟩⟩
  · intro hsaves data hreach
    obtain ⟨s', mem₁, hr, -, hkept, -⟩ := saveenvRedund_reached hreach s mem
    obtain ⟨-, -, -, -, hswap⟩ := hsaves _ hr rfl
    by_contra hfail
    -- the copies are not exchanged, and they are different
    have hsame : s.flashAddr = s.flashAddrNew := congrArg EnvSectors.flashAddr ((hkept hfail).symm.trans hswap)
    have hapart := s.apart
    have hend := s.flashAddrNew.end_eq
    have hlarger := cfg.larger
    rw [hsame] at hapart
    omega
  · intro hok r hr h0
    by_cases hreach : ∃ data, ReachesRestoreRedund cfg o envHtab data
    · obtain ⟨data, hreach⟩ := hreach
      have hrest := hok data hreach
      obtain ⟨s', mem₁, hr', hswap, -, henv, hflag⟩ := saveenvRedund_reached hreach s mem
      obtain rfl : _ = r := some.inj (hr'.symm.trans hr)
      have hlen := length_envNew [ACTIVE_FLAG] cfg.header_lt hreach.exported
      refine ⟨data, hreach.exported, (sectorSaved_iff hlen henv).2 (by rw [hrest]; trivial), ?_, hswap hrest⟩
      have hend := s.flashAddr.end_eq
      have hnew := rest_end s.flashAddrNew
      have hsize := cfg.header_lt
      have hlarger := cfg.larger
      have hapart := s.apart
      rw [write_outside _ _ (by rw [length_savedData]; omega)]
      exact hflag
    · exact absurd h0 (saveenvRedund_failed (fun data h => hreach ⟨data, h⟩) hr)
  · intro hsaves data hreach
    obtain ⟨mem₁, hr, henv⟩ := saveenv_reached hreach s mem
    obtain ⟨data', hx, hsaved⟩ := hsaves _ hr rfl
    obtain rfl : data = data' := by simpa using hreach.exported.symm.trans hx
    exact (sectorSaved_iff hsaved.size henv).1 hsaved
  · intro hok r hr h0
    by_cases hreach : ∃ data, ReachesRestore cfg o envHtab data
    · obtain ⟨data, hreach⟩ := hreach
      obtain ⟨mem₁, hr', henv⟩ := saveenv_reached hreach s mem
      obtain rfl : _ = r := some.inj (hr'.symm.trans hr)
      have hsize := cfg.header_lt
      have hlen := length_envNew [] (by simp; omega) hreach.exported
      exact ⟨data, hreach.exported, (sectorSaved_iff hlen henv).2 (hok data hreach)⟩
    · exact absurd h0 (saveenv_failed (fun data h => hreach ⟨data, h⟩) hr)

/-- An environment of 16 bytes in a sector of 32. -/
def smallFlash : EnvFlashConfig := ⟨16, 32, by decide, by decide⟩

/-- The last write fails and leaves the sector erased. -/
def restoreFails : FlashSave := ⟨0, 0, true, .ok, .ok, .ok, .error 1 (by decide) fun _ => 0xff⟩

/-- The last write of both saves fails over a sector that held zeros: 0 is returned, the zeros are gone, and the copies are not
exchanged. -/
theorem flash_saveenv_false : ∃ (h : Htab) (s : EnvSector smallFlash) (t : EnvSectors smallFlash),
    (∃ mem', saveenv restoreFails h s (fun _ => 0) = some (0, mem') ∧ mem' 16 = 0xff) ∧ ¬Saves restoreFails h s (fun _ => 0) ∧
      (∃ mem', saveenvRedund restoreFails h t (fun _ => 0) = some (0, t, mem')) ∧ ¬SavesRedund restoreFails h t (fun _ => 0) := by
  let h : Htab := ⟨fun _ => Slot.zero, 5, 0⟩
  let s : EnvSector smallFlash := ⟨0, 31, rfl⟩
  let t : EnvSectors smallFlash := ⟨s, ⟨32, 63, rfl⟩, Or.inl (by decide)⟩
  have hreach : ReachesRestore smallFlash restoreFails h (List.replicate 12 0) := ⟨rfl, by decide, rfl, rfl, rfl⟩
  have hreach' : ReachesRestoreRedund smallFlash restoreFails h (List.replicate 11 0) := ⟨rfl, rfl, by decide, rfl, rfl, rfl, rfl⟩
  obtain ⟨mem₁, hr, -⟩ := saveenv_reached hreach s fun _ => 0
  obtain ⟨t', mem₂, hr', -, hkept, -⟩ := saveenvRedund_reached hreach' t fun _ => 0
  rw [hkept (fun h => nomatch h)] at hr'
  refine ⟨h, s, t, ⟨_, hr, by rfl⟩, ?_, ⟨_, hr'⟩, ?_⟩
  · intro hsaves
    obtain ⟨data, -, hsaved⟩ := hsaves _ hr rfl
    have h16 : (0xff : UInt8) = 0 := hsaved.rest 16 (by decide) (by decide)
    exact absurd h16 (by decide)
  · intro hsaves
    obtain ⟨data, -, -, -, hswap⟩ := hsaves _ hr' rfl
    have haddr : 0 = 32 := congrArg (fun t => t.flashAddr.addr) hswap
    exact absurd haddr (by decide)

end UBoot
