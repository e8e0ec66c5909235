import UBoot.Flash

/-!
# Automatic update

common/update.c: `update_flash` with `update_flash_protect`, and `flash_sect_roundb` of common/cmd_flash.c. Whether there is memory and what
`flash_sect_erase` and `flash_write` return are arguments; the result says what they were called with. Protecting a sector succeeds.
-/

namespace UBoot

/-- The loop of `flash_sect_roundb` over the sectors of one bank: the end of the sector that has the address. -/
def flashSectRoundbBank (addr : Nat) (info : FlashInfo) : Option Nat :=
  (List.range info.sectorCount).findSome? fun i =>
    let sectorEndAddr := if i = info.sectorCount - 1 then sub32 (add32 (info.start 0) info.size) 1 else sub32 (info.start (i + 1)) 1
    if addr ≤ sectorEndAddr ∧ info.start i ≤ addr then some (if addr < sectorEndAddr then sectorEndAddr else addr) else none

/-- `flash_sect_roundb`: `*addr`, or nothing if the address is not in flash. -/
def flashSectRoundb (banks : List FlashInfo) (addr : Nat) : Option Nat := banks.findSome? (flashSectRoundbBank addr)

/-- `saved_prot_info` and a bank, where sector `i` of the bank is at `sp + i`. -/
structure SavedBank where
  saved : Nat → Nat
  info : FlashInfo

/-- One sector of the inner loop of `update_flash_protect`. -/
def updateFlashProtectSector (prot addrFirst addrLast sp : Nat) (s : SavedBank) (i : Nat) : SavedBank :=
  let saved :=
    if prot = 0 ∧ addrFirst ≤ s.info.start i ∧ s.info.start i ≤ addrLast then Function.update s.saved (sp + i) (s.info.protect i)
    else s.saved
  if saved (sp + i) = 1 then ⟨saved, { s.info with protect := Function.update s.info.protect i prot }⟩ else ⟨saved, s.info⟩

/-- The loop of `update_flash_protect` from bank number `bank` on, where `maxSect` is `CONFIG_SYS_MAX_FLASH_SECT`. -/
def updateFlashProtectBanks (maxSect prot : Nat) : List FlashInfo → Nat → Nat → Nat → (Nat → Nat) → List FlashInfo × (Nat → Nat)
  | [], _, _, _, saved => ([], saved)
  | info :: infos, bank, addrFirst, addrLast, saved =>
    if info.sectorCount = 0 then (info :: infos, saved)
    else
      let bankEnd := sub32 (add32 (info.start 0) info.size) 1
      let addrLast := if bankEnd < addrLast then bankEnd else addrLast
      let addrFirst := if addrFirst < info.start 0 then info.start 0 else addrFirst
      let s := (List.range info.sectorCount).foldl (updateFlashProtectSector prot addrFirst addrLast (bank * maxSect)) ⟨saved, info⟩
      let r := updateFlashProtectBanks maxSect prot infos (bank + 1) addrFirst addrLast s.saved
      (s.info :: r.1, r.2)

/-- What `update_flash` returns, `flash_info` at its end, and what `flash_sect_erase` and `flash_write` were called with. For the former, that
is the range, and `flash_info` as it was then. -/
structure Updated where
  ret : Int
  banks : List FlashInfo
  erased : Option (Nat × Nat × List FlashInfo)
  written : Option (Nat × Nat × Nat)

/-- `update_flash` behind the checks of the range. -/
def updateFlashRange (maxSect : Nat) (banks : List FlashInfo) (calloc : Bool) (erase write : Nat) (addrSource addrFirst size addrLast : Nat) :
    Updated :=
  if calloc = false then ⟨1, banks, none, none⟩
  else
    let r := updateFlashProtectBanks maxSect 0 banks 0 addrFirst addrLast fun _ => 0
    if 0 < erase then ⟨1, r.1, some (addrFirst, addrLast, r.1), none⟩
    else if 0 < write then ⟨1, r.1, some (addrFirst, addrLast, r.1), some (addrSource, addrFirst, size)⟩
    else
      ⟨0, (updateFlashProtectBanks maxSect 1 r.1 0 addrFirst addrLast r.2).1, some (addrFirst, addrLast, r.1),
        some (addrSource, addrFirst, size)⟩

/-- `update_flash`, where `calloc` is whether there is memory, and `erase` and `write` are the codes that the two functions return. -/
def updateFlash (maxSect : Nat) (banks : List FlashInfo) (calloc : Bool) (erase write : Nat) (addrSource addrFirst size : Nat) : Updated :=
  match flashSectRoundb banks (sub32 (add32 addrFirst size) 1) with
  | none => ⟨1, banks, none, none⟩
  | some addrLast =>
    if addrLast ≤ addrFirst then ⟨1, banks, none, none⟩
    else updateFlashRange maxSect banks calloc erase write addrSource addrFirst size addrLast

end UBoot
