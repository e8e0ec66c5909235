import UBoot.Environment
import UBoot.Crc32
import UBoot.Export
import UBoot.Flash
import UBoot.Nvram

/-!
# The redundant environment in NAND

`saveenv` and `env_relocate_spec` of common/env_nand.c with `CONFIG_ENV_OFFSET_REDUND`. Each copy carries an 8-bit serial number in
its flags byte, which `saveenv` takes from the counter `env_flags`, and the newer serial is chosen at boot. The buffers of
`env_relocate_spec` are taken to be allocated and the reads to give what the flash holds.
-/

namespace UBoot

section

open Lib

variable {α : Type}

/-- The state of the driver: the flash, `gd->env_valid` and `env_flags`. -/
structure Nand (α : Type) where
  flash : Side → Env α
  envValid : Side
  envFlags : UInt8

/-- The check of the serials in `env_relocate_spec`, when both CRCs are good. -/
def checkSerial (flags1 flags2 : UInt8) : Side :=
  if flags1 = 255 ∧ flags2 = 0 then .two
  else if flags2 = 255 ∧ flags1 = 0 then .one
  else if flags1 > flags2 then .one
  else if flags2 > flags1 then .two
  else .one

/-- The choice of `env_relocate_spec` between the two copies; `none` when both CRCs are bad. -/
def nandChoose (flash : Side → Env α) : Option Side :=
  match (flash .one).crcOk, (flash .two).crcOk with
  | false, false => none
  | true, false => some .one
  | false, true => some .two
  | true, true => some (checkSerial (flash .one).flags (flash .two).flags)

/-- `env_relocate_spec`: the data imported, `none` for the default environment, and the state. -/
def Nand.envRelocateSpec (s : Nand α) : Option α × Nand α :=
  match nandChoose s.flash with
  | none => (none, s)
  | some i => (some (s.flash i).data, { s with envValid := i, envFlags := (s.flash i).flags })

/-- A boot: `env_init` marks the first copy valid, `env_flags` starts at 0, and `env_relocate_spec` runs. -/
def Nand.boot (s : Nand α) : Option α × Nand α := Nand.envRelocateSpec ⟨s.flash, .one, 0⟩

/-- What happens to one call of `saveenv`. -/
structure NandSave (α : Type) where
  exportOk : Bool
  erase : FlashEnd (EraseLeft α)
  write : FlashEnd (WriteLeft α)

/-- Put `e` in the copy that is not the valid one. -/
def Nand.put (s : Nand α) (e : Env α) : Nand α := { s with flash := Function.update s.flash s.envValid.other e }

/-- `saveenv`: increase the serial, erase the copy that is not valid, write it, and make it the valid one. -/
def Nand.saveenv (s : Nand α) (data : α) (o : NandSave α) : SaveResult (Nand α) :=
  if !o.exportOk then ⟨.failed, false, s⟩
  else
    let s := { s with envFlags := s.envFlags + 1 }
    let envNew : Env α := ⟨data, true, s.envFlags⟩
    match o.erase with
    | .error left => ⟨.failed, false, s.put ((s.flash s.envValid.other).afterErase left)⟩
    | .cut left => ⟨.cut, false, s.put ((s.flash s.envValid.other).afterErase left)⟩
    | .ok =>
      match o.write with
      | .error left => ⟨.failed, left.isComplete, s.put (envNew.afterWrite left)⟩
      | .cut left => ⟨.cut, left.isComplete, s.put (envNew.afterWrite left)⟩
      | .ok => ⟨.ok, true, { s.put envNew with envValid := s.envValid.other }⟩

def nandDriver : SaveDriver (Nand α) (NandSave α) α := ⟨Nand.saveenv, Nand.boot⟩

end

/-!
## The redundant environment in SPI flash

`saveenv` and `env_relocate_spec` of common/env_sf.c with `CONFIG_ENV_OFFSET_REDUND`. The copy in use is marked active in its flags
byte, and the last step of `saveenv` marks the old copy obsolete. The buffers and the flash device of `env_relocate_spec` are
taken to be there and the reads to give what the flash holds.
-/

section

open Lib

variable {α : Type}

def ACTIVE_FLAG : UInt8 := 1
/-- `OBSOLETE_FLAG` -/
def OBSOLETE_FLAG : UInt8 := 0

/-- The state of the driver: the flash and `gd->env_valid`. -/
structure Sf (α : Type) where
  flash : Side → Env α
  envValid : Side

/-- The check of the flags in `env_relocate_spec`, when both CRCs are good. -/
def checkFlags (flags1 flags2 : UInt8) : Side :=
  if flags1 = ACTIVE_FLAG ∧ flags2 = OBSOLETE_FLAG then .one
  else if flags1 = OBSOLETE_FLAG ∧ flags2 = ACTIVE_FLAG then .two
  else if flags1 = flags2 then .two
  else if flags1 = 0xFF then .two
  else .two

/-- The choice of `env_relocate_spec` between the two copies; `none` when both CRCs are bad. -/
def sfChoose (flash : Side → Env α) : Option Side :=
  match (flash .one).crcOk, (flash .two).crcOk with
  | false, false => none
  | true, false => some .one
  | false, true => some .two
  | true, true => some (checkFlags (flash .one).flags (flash .two).flags)

/-- `env_relocate_spec`: the data imported, `none` for the default environment, and the state. -/
def Sf.envRelocateSpec (s : Sf α) : Option α × Sf α :=
  match sfChoose s.flash with
  | none => (none, s)
  | some i => (some (s.flash i).data, { s with envValid := i })

/-- A boot: `env_init` marks the first copy valid and `env_relocate_spec` runs. -/
def Sf.boot (s : Sf α) : Option α × Sf α := Sf.envRelocateSpec ⟨s.flash, .one⟩

/-- What happens to one call of `saveenv`, step by step. The steps before the first that reaches the flash (the probe, the
export and the allocation of a buffer) either all succeed or make the call fail. -/
structure SfSave (α : Type) where
  prepareOk : Bool
  readRest : FlashEnd Unit
  erase : FlashEnd (EraseLeft α)
  write : FlashEnd (WriteLeft α)
  writeRest : FlashEnd Unit
  obsolete : FlashEnd UInt8

/-- Put `e` in the copy that is not the valid one. -/
def Sf.put (s : Sf α) (e : Env α) : Sf α := { s with flash := Function.update s.flash s.envValid.other e }

/-- Write the flags byte of the valid copy. -/
def Sf.setFlags (s : Sf α) (flags : UInt8) : Sf α :=
  { s with flash := Function.update s.flash s.envValid { s.flash s.envValid with flags := flags } }

/-- `saveenv`: read back the rest of the sector, erase the new copy, write it active, write back the rest of the sector, mark the
old copy obsolete, and make the new copy the valid one. `embedded` is `CONFIG_ENV_SECT_SIZE > CONFIG_ENV_SIZE`. -/
def Sf.saveenv (embedded : Bool) (s : Sf α) (data : α) (o : SfSave α) : SaveResult (Sf α) :=
  if !o.prepareOk then ⟨.failed, false, s⟩
  else
    match if embedded then o.readRest else .ok with
    | .error _ => ⟨.failed, false, s⟩
    | .cut _ => ⟨.cut, false, s⟩
    | .ok =>
      let envNew : Env α := ⟨data, true, ACTIVE_FLAG⟩
      match o.erase with
      | .error left => ⟨.failed, false, s.put ((s.flash s.envValid.other).afterErase left)⟩
      | .cut left => ⟨.cut, false, s.put ((s.flash s.envValid.other).afterErase left)⟩
      | .ok =>
        match o.write with
        | .error left => ⟨.failed, left.isComplete, s.put (envNew.afterWrite left)⟩
        | .cut left => ⟨.cut, left.isComplete, s.put (envNew.afterWrite left)⟩
        | .ok =>
          match if embedded then o.writeRest else .ok with
          | .error _ => ⟨.failed, true, s.put envNew⟩
          | .cut _ => ⟨.cut, true, s.put envNew⟩
          | .ok =>
            match o.obsolete with
            | .error flags => ⟨.failed, true, (s.put envNew).setFlags flags⟩
            | .cut flags => ⟨.cut, true, (s.put envNew).setFlags flags⟩
            | .ok => ⟨.ok, true, { (s.put envNew).setFlags OBSOLETE_FLAG with envValid := s.envValid.other }⟩

def sfDriver (embedded : Bool) : SaveDriver (Sf α) (SfSave α) α := ⟨Sf.saveenv embedded, Sf.boot⟩

end

/-!
## The environment in NOR flash

`saveenv` of common/env_flash.c, with and without `CONFIG_ENV_ADDR_REDUND`. How the operations on the flash and the `malloc` end is
part of the input: an erase that succeeds sets every byte of its range, a write that succeeds stores its bytes, and one that
fails leaves some bytes in its range. Whether the flash is protected again at the end is not looked at.
-/

section

open Lib

/-- The sizes of the configuration; a sector is larger than the environment, which is larger than its header. -/
structure EnvFlashConfig where
  CONFIG_ENV_SIZE : Nat
  CONFIG_ENV_SECT_SIZE : Nat
  header_lt : 5 < CONFIG_ENV_SIZE
  larger : CONFIG_ENV_SIZE < CONFIG_ENV_SECT_SIZE

/-- A sector for the environment, from its first address to its last. -/
structure EnvSector (cfg : EnvFlashConfig) where
  addr : Nat
  endAddr : Nat
  end_eq : endAddr + 1 = addr + cfg.CONFIG_ENV_SECT_SIZE

/-- `flash_addr` and `end_addr`, `flash_addr_new` and `end_addr_new`: two sectors that do not meet. -/
structure EnvSectors (cfg : EnvFlashConfig) where
  flashAddr : EnvSector cfg
  flashAddrNew : EnvSector cfg
  apart : flashAddr.endAddr < flashAddrNew.addr ∨ flashAddrNew.endAddr < flashAddr.addr

/-- The sectors exchanged. -/
def EnvSectors.swap {cfg : EnvFlashConfig} (s : EnvSectors cfg) : EnvSectors cfg := ⟨s.flashAddrNew, s.flashAddr, s.apart.symm⟩

/-- How an operation on the flash ends: well, or with an error and some bytes left in its range. -/
inductive FlashOutcome where
  | ok
  | error (rc : Int) (rc_ne : rc ≠ 0) (left : FlashMem)

/-- `flash_sect_erase` of the addresses from `first` to `last`. -/
def FlashOutcome.erase (o : FlashOutcome) (first last : Nat) (mem : FlashMem) : Int × FlashMem :=
  match o with
  | .ok => (0, fun a => if first ≤ a ∧ a ≤ last then 0xff else mem a)
  | .error rc _ left => (rc, fun a => if first ≤ a ∧ a ≤ last then left a else mem a)

/-- `flash_write` of some bytes to `addr`. -/
def FlashOutcome.write (o : FlashOutcome) (src : List UInt8) (addr : Nat) (mem : FlashMem) : Int × FlashMem :=
  match o with
  | .ok => (0, store mem addr src)
  | .error rc _ left => (rc, fun a => if addr ≤ a ∧ a < addr + src.length then left a else mem a)

/-- What happens in a call of `saveenv`: `protectOffNew` and `flag` are for the redundant one. -/
structure FlashSave where
  protectOff : Int
  protectOffNew : Int
  mallocOk : Bool
  erase : FlashOutcome
  write : FlashOutcome
  flag : FlashOutcome
  restore : FlashOutcome

variable {cfg : EnvFlashConfig}

/-- `ENV_SIZE`, with a header of this size. -/
def EnvFlashConfig.ENV_SIZE (cfg : EnvFlashConfig) (header : Nat) : Nat := cfg.CONFIG_ENV_SIZE - header

/-- `env_new`, with the CRC of its data; `flags` is empty without redundancy. -/
def envNew (flags data : List UInt8) : List UInt8 := le32 (crc32 0 data).toNat ++ flags ++ data

/-- `up_data`: the size of the rest of the sector. -/
def EnvSector.upData (s : EnvSector cfg) : Nat := s.endAddr + 1 - (s.addr + cfg.CONFIG_ENV_SIZE)

/-- `saved_data`: a copy of the rest of the sector. -/
def EnvSector.savedData (s : EnvSector cfg) (mem : FlashMem) : List UInt8 :=
  (List.range' (s.addr + cfg.CONFIG_ENV_SIZE) s.upData).map mem

/-- The last write, which puts the rest of the sector back. -/
def EnvSector.restoreRest (s : EnvSector cfg) (o : FlashOutcome) (saved : List UInt8) (mem : FlashMem) : Int × FlashMem :=
  if s.upData ≠ 0 then o.write saved (s.addr + cfg.CONFIG_ENV_SIZE) mem else (0, mem)

/-- `saveenv` with redundancy: what is returned, the sectors, and the flash. The result is `none` when the export leaves its buffer. -/
def saveenvRedund (o : FlashSave) (envHtab : Htab) (s : EnvSectors cfg) (mem : FlashMem) : Option (Int × EnvSectors cfg × FlashMem) :=
  if o.protectOff ≠ 0 then some (1, s, mem)
  else if o.protectOffNew ≠ 0 then some (1, s, mem)
  else
    match hexportR true true envHtab 0 (cfg.ENV_SIZE 5) [] with
    | none => none
    | some (.error _) => some (1, s, mem)
    | some (.ok data) =>
      if s.flashAddrNew.upData ≠ 0 ∧ !o.mallocOk then some (1, s, mem)
      else
        let saved := s.flashAddrNew.savedData mem
        let erased := o.erase.erase s.flashAddrNew.addr s.flashAddrNew.endAddr mem
        if erased.1 ≠ 0 then some (1, s, erased.2)
        else
          let written := o.write.write (envNew [ACTIVE_FLAG] data) s.flashAddrNew.addr erased.2
          if written.1 ≠ 0 then some (written.1, s, written.2)
          else
            let flagged := o.flag.write [OBSOLETE_FLAG] (s.flashAddr.addr + 4) written.2
            if flagged.1 ≠ 0 then some (flagged.1, s, flagged.2)
            else
              let restored := s.flashAddrNew.restoreRest o.restore saved flagged.2
              -- `rc` is still the 0 of the write before
              if restored.1 ≠ 0 then some (flagged.1, s, restored.2)
              else some (0, s.swap, restored.2)

/-- `saveenv` without redundancy. -/
def saveenv (o : FlashSave) (envHtab : Htab) (s : EnvSector cfg) (mem : FlashMem) : Option (Int × FlashMem) :=
  if s.upData ≠ 0 ∧ !o.mallocOk then some (1, mem)
  else
    let saved := s.savedData mem
    if o.protectOff ≠ 0 then some (1, mem)
    else
      match hexportR true true envHtab 0 (cfg.ENV_SIZE 4) [] with
      | none => none
      | some (.error _) => some (1, mem)
      | some (.ok data) =>
        let erased := o.erase.erase s.addr s.endAddr mem
        if erased.1 ≠ 0 then some (1, erased.2)
        else
          let written := o.write.write (envNew [] data) s.addr erased.2
          if written.1 ≠ 0 then some (written.1, written.2)
          else
            let restored := s.restoreRest o.restore saved written.2
            if restored.1 ≠ 0 then some (written.1, restored.2) else some (0, restored.2)

end

end UBoot
