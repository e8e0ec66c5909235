import UBoot.Word
import Mathlib.Data.List.Basic

/-!
# PCI regions

The allocator of drivers/pci/pci_auto.c and the translation of addresses in drivers/pci/pci.c. `pci_addr_t`, `pci_size_t`, `phys_addr_t`
and `unsigned long` have 32 bits, so sums and differences are taken modulo `2 ^ 32`. A region or a controller that is passed is not NULL,
and what is printed is left out.
-/

namespace UBoot

structure PciRegion where
  busStart : Nat
  physStart : Nat
  size : Nat
  flags : Nat
  busLower : Nat
  deriving DecidableEq

/-! ## Allocation -/

def pciautoRegionInit (res : PciRegion) : PciRegion := { res with busLower := if res.busStart ≠ 0 then res.busStart else 0x1000 }

/-- `((res->bus_lower - 1) | (size - 1)) + 1` -/
def PciRegion.aligned (res : PciRegion) (size : Nat) : Nat := add32 (sub32 res.busLower 1 ||| sub32 size 1) 1

def pciautoRegionAlign (res : PciRegion) (size : Nat) : PciRegion := { res with busLower := res.aligned size }

/-- `pciauto_region_allocate`: `*bar`, or nothing for -1, where `*bar` is -1 as well, and the region. -/
def pciautoRegionAllocate (res : PciRegion) (size : Nat) : Option Nat × PciRegion :=
  let addr := res.aligned size
  if res.size < add32 (sub32 addr res.busStart) size then (none, res)
  else (some addr, { res with busLower := add32 addr size })

/-! ## Translation -/

def PCI_REGION_MEM : Nat := 0
/-- `PCI_REGION_TYPE` -/
def PCI_REGION_TYPE : Nat := 1
/-- `PCI_REGION_SYS_MEMORY` -/
def PCI_REGION_SYS_MEMORY : Nat := 0x100

/-- A region is passed over: it is of another type, or has a flag of the mask. -/
def PciRegion.passed (res : PciRegion) (flags skipMask : Nat) : Bool :=
  (res.flags ^^^ flags) &&& PCI_REGION_TYPE ≠ 0 ∨ res.flags &&& skipMask ≠ 0

/-- Whether a bus address is in a region. -/
def PciRegion.onBus (res : PciRegion) (busAddr : Nat) : Bool := res.busStart ≤ busAddr ∧ busAddr < add32 res.busStart res.size

/-- `__pci_hose_phys_to_bus`: `*ba`, or nothing for 1. -/
def hosePhysToBus (regions : List PciRegion) (physAddr flags skipMask : Nat) : Option Nat :=
  regions.findSome? fun res =>
    if res.passed flags skipMask then none
    else
      let busAddr := add32 (sub32 physAddr res.physStart) res.busStart
      if res.onBus busAddr then some busAddr else none

/-- `__pci_hose_bus_to_phys`: `*pa`, or nothing for 1. -/
def hoseBusToPhys (regions : List PciRegion) (busAddr flags skipMask : Nat) : Option Nat :=
  regions.findSome? fun res =>
    if res.passed flags skipMask then none
    else if res.onBus busAddr then some (add32 (sub32 busAddr res.busStart) res.physStart)
    else none

/-- The search in two passes, where the first one skips system memory; 0 if nothing is found. -/
def twoPasses (flags : Nat) (search : Nat → Option Nat) : Nat :=
  let first := if flags &&& PCI_REGION_MEM = PCI_REGION_MEM then search PCI_REGION_SYS_MEMORY else none
  match first with
  | some addr => addr
  | none => (search 0).getD 0

def pciHosePhysToBus (regions : List PciRegion) (physAddr flags : Nat) : Nat := twoPasses flags (hosePhysToBus regions physAddr flags)

def pciHoseBusToPhys (regions : List PciRegion) (busAddr flags : Nat) : Nat := twoPasses flags (hoseBusToPhys regions busAddr flags)

end UBoot
