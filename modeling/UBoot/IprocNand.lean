import UBoot.Lib.Chunks
import UBoot.Lib.Memory
import Mathlib.Algebra.Group.Int.Defs
import Mathlib.Data.List.Basic

/-!
# Programming and reading with the iProc NAND driver

`iproc_nand_page_program`, `iproc_nand_page_read` and `iproc_nand_block_erase` of arch/arm/cpu/armv7/iproc/iproc_nand.c with the functions
under them, for a chip that is initialised. Programming a cell can clear bits of it and set none. What `iproc_check_nand_done` and
`iproc_nand_ecc_status_cmd` say is a parameter. The memory is that from `src_addr` or `dst_addr` on.
-/

namespace UBoot

def IPROC_FLASH_CACHE_SIZE : Nat := 512

def NAND_STATUS_OK : Nat := 0
/-- `NAND_UNCOR_ECC_ERROR` -/
def NAND_UNCOR_ECC_ERROR : Nat := 2
/-- `NAND_PAGE_ALIGNMENT` -/
def NAND_PAGE_ALIGNMENT : Nat := 10

/-- The fields of `INAND` that are used. Pages and blocks are powers of two in size, as in `page_sizes` and `block_sizes`. -/
structure Inand where
  pageSize : Nat
  blockSize : Nat
  eccStrength : Nat
  pageSize_pow : ∃ k, 9 ≤ k ∧ pageSize = 2 ^ k
  blockSize_pow : ∃ k, k < 32 ∧ blockSize = 2 ^ k
  pageSize_dvd : pageSize ∣ blockSize

/-- The commands of the controller -/
inductive IprocCmd where
  | PAGE_READ
  | PROGRAM_PAGE
  | BLOCK_ERASE

/-- What `iproc_check_nand_done` says of a command at an address, and the errors that are counted up to an address. -/
structure NandDone where
  status : IprocCmd → Nat → Nat
  eccErrors : Nat → Nat

/-- The cells, and the blocks that were erased or programmed. -/
structure NandFlash where
  cells : Nat → UInt8
  touched : List Nat

/-- The address that the two address registers hold. -/
def cmdAddress (pageAddr : Nat) : Nat := pageAddr / 2 ^ 32 % 2 ^ 16 * 2 ^ 32 + pageAddr % 2 ^ 32

namespace Inand

variable (inand : Inand) (o : NandDone)

def erase (a : Nat) (flash : NandFlash) : NandFlash :=
  ⟨fun x => if x / inand.blockSize = a / inand.blockSize then 0xff else flash.cells x, a / inand.blockSize :: flash.touched⟩

/-- `PROGRAM_PAGE` with the bytes in the cache -/
def program (a : Nat) (cache : Nat → UInt8) (flash : NandFlash) : NandFlash :=
  ⟨fun x => if a ≤ x ∧ x < a + IPROC_FLASH_CACHE_SIZE then flash.cells x &&& cache (x - a) else flash.cells x,
    a / inand.blockSize :: flash.touched⟩

/-- `block_address & ~(block_size - 1)`, where the mask has 32 bits. -/
def maskedAddr (a : Nat) : Nat := a % 2 ^ 32 / inand.blockSize * inand.blockSize

def blockErase (blockAddress : Nat) (flash : NandFlash) : Nat × NandFlash :=
  let a := cmdAddress (inand.maskedAddr blockAddress)
  (o.status .BLOCK_ERASE a, inand.erase a flash)

/-- The loop of `_iproc_nand_page_program`. -/
def programBuffers (mem : Nat → UInt8) : Nat → Nat → Nat → NandFlash → Nat × NandFlash
  | 0, _, _, flash => (NAND_STATUS_OK, flash)
  | n + 1, pageAddr, src, flash =>
    let a := cmdAddress pageAddr
    let flash := inand.program a (fun i => mem (src + i)) flash
    if o.status .PROGRAM_PAGE a ≠ NAND_STATUS_OK then (o.status .PROGRAM_PAGE a, flash)
    else programBuffers mem n ((pageAddr + IPROC_FLASH_CACHE_SIZE) % 2 ^ 64) (src + IPROC_FLASH_CACHE_SIZE) flash

/-- `_iproc_nand_page_program` -/
def onePageProgram (mem : Nat → UInt8) (pageAddr src dataLen : Nat) (flash : NandFlash) : Nat × NandFlash :=
  if dataLen = inand.pageSize ∧ ∀ i < dataLen, mem (src + i) = 0xff then (NAND_STATUS_OK, flash)
  else if pageAddr / IPROC_FLASH_CACHE_SIZE % 2 = 1 then (NAND_PAGE_ALIGNMENT, flash)
  else inand.programBuffers o mem (dataLen / IPROC_FLASH_CACHE_SIZE) pageAddr src flash

/-- The loop of `iproc_nand_page_program` for a page: its address and the flash. -/
def programPage (mem : Nat → UInt8) (len : Nat) : Nat × NandFlash → Except (Nat × NandFlash) (Nat × NandFlash)
  | (pageAddr, flash) =>
    let blockAddr := inand.maskedAddr pageAddr
    let flash := if pageAddr = blockAddr then (inand.blockErase o blockAddr flash).2 else flash
    let (rv, flash) := inand.onePageProgram o mem pageAddr 0 len flash
    if rv ≠ NAND_STATUS_OK then .error (rv, flash) else .ok ((pageAddr + inand.pageSize) % 2 ^ 64, flash)

def pageProgram (mem : Nat → UInt8) (pageAddr dataLen fuel : Nat) (flash : NandFlash) : Option (Nat × NandFlash) :=
  (Lib.chunkLoop 32 inand.pageSize dataLen (inand.programPage o mem) fuel 0 (pageAddr, flash)).map fun
    | .error e => e
    | .ok (_, flash) => (NAND_STATUS_OK, flash)

/-- `num_of_buffers` for a page or a part of one. -/
def numOfBuffers (dataLen : Nat) : Nat :=
  let n := inand.pageSize / IPROC_FLASH_CACHE_SIZE
  if dataLen < inand.pageSize ∧ IPROC_FLASH_CACHE_SIZE < inand.pageSize then
    ((List.range' 1 (n - 1)).find? fun i => dataLen ≤ i * IPROC_FLASH_CACHE_SIZE).getD n
  else n

/-- The loop of `_iproc_nand_one_page_read`. -/
def readBuffers (flash : NandFlash) : Nat → Nat → Nat → (Nat → UInt8) → Nat × (Nat → UInt8)
  | 0, _, _, mem => (NAND_STATUS_OK, mem)
  | n + 1, pageAddr, dst, mem =>
    let a := cmdAddress pageAddr
    if o.status .PAGE_READ a ≠ NAND_STATUS_OK then (o.status .PAGE_READ a, mem)
    else
      let bytes := (List.range' a IPROC_FLASH_CACHE_SIZE).map flash.cells
      readBuffers flash n ((pageAddr + IPROC_FLASH_CACHE_SIZE) % 2 ^ 64) (dst + IPROC_FLASH_CACHE_SIZE) (Lib.store mem dst bytes)

def onePageRead (flash : NandFlash) (pageAddr dst dataLen : Nat) (mem : Nat → UInt8) : Nat × (Nat → UInt8) :=
  if pageAddr / IPROC_FLASH_CACHE_SIZE % 2 = 1 then (NAND_PAGE_ALIGNMENT, mem)
  else
    let (status, mem) := readBuffers o flash (inand.numOfBuffers dataLen) pageAddr dst mem
    if status ≠ NAND_STATUS_OK then (status, mem)
    else if inand.eccStrength < o.eccErrors pageAddr then (NAND_UNCOR_ECC_ERROR, mem)
    else (NAND_STATUS_OK, mem)

/-- The loop of `_iproc_nand_page_read` for a page: its address, `dst_addr` and the memory. -/
def readPage (flash : NandFlash) (len : Nat) : Nat × Nat × (Nat → UInt8) → Except (Nat × (Nat → UInt8)) (Nat × Nat × (Nat → UInt8))
  | (pageAddr, dst, mem) =>
    let (rv, mem) := inand.onePageRead o flash pageAddr dst len mem
    if rv ≠ NAND_STATUS_OK then .error (rv, mem) else .ok ((pageAddr + inand.pageSize) % 2 ^ 64, dst + inand.pageSize, mem)

def pageRead (flash : NandFlash) (pageAddr dataLen fuel : Nat) (mem : Nat → UInt8) : Option (Nat × (Nat → UInt8)) :=
  (Lib.chunkLoop 32 inand.pageSize dataLen (inand.readPage o flash) fuel 0 (pageAddr, 0, mem)).map fun
    | .error e => e
    | .ok (_, _, mem) => (NAND_STATUS_OK, mem)

end Inand

end UBoot
