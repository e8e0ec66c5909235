import UBoot.Word
import UBoot.Lib.Memory

/-!
# Writing to NOR flash

common/flash.c: `addr2info` and `flash_write`. Addresses have 32 bits. `write_buff`, which each board brings along, is a parameter.
-/

namespace UBoot

open Lib

/-- `flash_info_t`, what flash.c reads of it. -/
structure FlashInfo where
  size : Nat
  sectorCount : Nat
  flashId : Nat
  start : Nat → Nat
  protect : Nat → Nat

/-- The address space. -/
abbrev FlashMem := Nat → UInt8

/-- `write_buff`: what is returned, and the address space after it was given `len` bytes from `src` for address `addr`. -/
abbrev WriteBuff := FlashInfo → List UInt8 → Nat → Nat → FlashMem → Int × FlashMem

def FLASH_UNKNOWN : Nat := 0xffff
def ERR_OK : Int := 0
def ERR_PROTECTED : Int := 4
def ERR_INVAL : Int := 8

/-- The test of `addr2info` for one bank. -/
def FlashInfo.has (info : FlashInfo) (addr : Nat) : Bool :=
  info.flashId ≠ FLASH_UNKNOWN && info.start 0 ≤ addr && addr ≤ sub32 (add32 (info.start 0) info.size) 1

/-- `addr2info`, as an index of `flash_info`. -/
def addr2info (banks : List FlashInfo) (addr : Nat) : Option Nat := banks.findIdx? fun info => info.has addr

/-- `s_end`, an `int` put into a `short`. -/
def FlashInfo.sEnd (info : FlashInfo) : Int :=
  if (info.sectorCount : Int) - 1 < 2 ^ 15 then (info.sectorCount : Int) - 1 else (info.sectorCount : Int) - 1 - 2 ^ 16

/-- `e_addr` of sector `i`. -/
def FlashInfo.eAddr (info : FlashInfo) (i : Nat) : Nat :=
  if (i : Int) = info.sEnd then add32 (info.start 0) info.size else info.start (i + 1)

/-- The inner loop that looks for a protected sector. -/
def FlashInfo.hitsProtected (info : FlashInfo) (addr end' : Nat) : Bool :=
  (List.range info.sectorCount).any fun i => info.start i ≤ end' && addr < info.eAddr i && info.protect i ≠ 0

/-- The loop that writes, over the banks to go. -/
def writeLoop (writeBuff : WriteBuff) : List FlashInfo → List UInt8 → Nat → Nat → FlashMem → Int × FlashMem
  | [], _, _, _, mem => (ERR_OK, mem)
  | info :: infos, src, addr, cnt, mem =>
    if 0 < cnt then
      let len := min (sub32 (add32 (info.start 0) info.size) addr) cnt
      let r := writeBuff info (src.take len) addr len mem
      if r.1 ≠ 0 then r else writeLoop writeBuff infos (src.drop len) (add32 addr len) (cnt - len) r.2
    else (ERR_OK, mem)

/-- `flash_write`: what is returned, and the address space. -/
def flashWrite (writeBuff : WriteBuff) (banks : List FlashInfo) (src : List UInt8) (addr cnt : Nat) (mem : FlashMem) : Int × FlashMem :=
  let end' := sub32 (add32 addr cnt) 1
  if cnt = 0 then (ERR_OK, mem)
  else
    match addr2info banks addr, addr2info banks end' with
    | some first, some last =>
      -- the banks from the first to the last, which are none when the last one comes first in the array
      let infos := (banks.drop first).take (last + 1 - first)
      if infos.any fun info => info.hitsProtected addr end' then (ERR_PROTECTED, mem)
      else writeLoop writeBuff infos src addr cnt mem
    | _, _ => (ERR_INVAL, mem)

end UBoot
