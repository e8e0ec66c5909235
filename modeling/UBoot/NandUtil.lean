import UBoot.Lib.Memory
import UBoot.Mtdparts

/-!
# Reading, writing and erasing around bad blocks

`check_skip_len`, `drop_ffs`, `nand_write_skip_bad`, `nand_read_skip_bad` and `nand_erase_opts` of drivers/mtd/nand/nand_util.c, with
`CONFIG_CMD_NAND_TRIMFFS` and without the YAFFS mode. Offsets have 64 bits and are numbers; a `size_t` has 32 bits, and where one can wrap
around the remainder is written out. Block and page sizes are powers of two, so a mask that keeps the low bits is a remainder. A
loop takes a number of steps it may make and gives `none` when it has not returned by then.
-/

namespace UBoot

section

open Lib

def EINVAL : Int := 22
/-- `EUCLEAN` -/
def EUCLEAN : Int := 117

/-- A NAND device with the functions that access its cells: `nand_write` gives the result, the length written and the cells, `nand_read`
the result and the bytes read. Both are exact where the blocks are good, and cells are erased before they are written. -/
structure NandChip where
  size : Nat
  erasesize : Nat
  writesize : Nat
  bad : Nat → Bool
  nandWrite : (Nat → UInt8) → Nat → List UInt8 → Int × Nat × (Nat → UInt8)
  nandRead : (Nat → UInt8) → Nat → Nat → Int × List UInt8
  erasesize_pow : ∃ k ≤ 31, erasesize = 2 ^ k
  writesize_pow : ∃ k, writesize = 2 ^ k
  writesize_dvd : writesize ∣ erasesize
  erasesize_dvd : erasesize ∣ size
  write_good : ∀ flash offset bytes, offset + bytes.length ≤ size → (∀ i < bytes.length, bad ((offset + i) / erasesize) = false) →
    (∀ i < bytes.length, flash (offset + i) = 0xff) → nandWrite flash offset bytes = (0, bytes.length, store flash offset bytes)
  read_good : ∀ flash offset length, offset + length ≤ size → (∀ i < length, bad ((offset + i) / erasesize) = false) →
    ((nandRead flash offset length).1 = 0 ∨ (nandRead flash offset length).1 = -EUCLEAN) ∧
      (nandRead flash offset length).2 = (List.range' offset length).map flash

namespace NandChip

variable (chip : NandChip)

/-- `nand_block_isbad` at an offset of the device. -/
def blockIsbad (offset : Nat) : Bool := chip.bad (offset / chip.erasesize)

/-- `offset & ~(nand->erasesize - 1)`, where the mask has 32 bits. -/
def maskedStart (offset : Nat) : Nat := offset % 2 ^ 32 / chip.erasesize * chip.erasesize

/-! ## The test of the length -/

def checkSkipLenLoop (length : Nat) : Nat → Nat → Nat → Int → Option Int
  | 0, _, _, _ => none
  | fuel + 1, offset, lenExclBad, ret =>
    if lenExclBad < length then
      if chip.size ≤ offset then some (-1)
      else
        let blockStart := offset / chip.erasesize * chip.erasesize
        let blockOff := offset % chip.erasesize
        let blockLen := chip.erasesize - blockOff
        if !chip.blockIsbad blockStart then
          checkSkipLenLoop length fuel (offset + blockLen) ((lenExclBad + blockLen) % 2 ^ 32) ret
        else checkSkipLenLoop length fuel (offset + blockLen) lenExclBad 1
    else some ret

def checkSkipLen (fuel offset length : Nat) : Option Int := chip.checkSkipLenLoop length fuel offset 0 0

/-! ## Writing -/

/-- The loop of `drop_ffs` from index `i` down, with the indices of the buffer that are read. The index is a `size_t`, so the test
`i >= 0` always holds. -/
def dropFfsLoop (buffer : Nat → UInt8) (pos : Nat) : Nat → Nat → Option (Nat × List Nat)
  | 0, _ => none
  | fuel + 1, i =>
    if buffer ((pos + i) % 2 ^ 32) ≠ 0xff then some (i, [(pos + i) % 2 ^ 32])
    else (dropFfsLoop buffer pos fuel ((i + 2 ^ 32 - 1) % 2 ^ 32)).map fun (j, reads) => (j, (pos + i) % 2 ^ 32 :: reads)

/-- `drop_ffs`: the length, with the indices that are read. -/
def dropFfs (buffer : Nat → UInt8) (pos len fuel : Nat) : Option (Nat × List Nat) :=
  (dropFfsLoop buffer pos fuel ((len + 2 ^ 32 - 1) % 2 ^ 32)).map fun (i, reads) =>
    let l := (i + 1) % 2 ^ 32
    let l := (l + chip.writesize - 1) % 2 ^ 32 / chip.writesize
    let l := l * chip.writesize % 2 ^ 32
    (min l len, reads)

/-- `n` bytes of the buffer from index `pos` on. -/
def bufferBytes (buffer : Nat → UInt8) (pos n : Nat) : List UInt8 := (List.range' pos n).map fun i => buffer (i % 2 ^ 32)

/-- What `nand_write_skip_bad` gives: its result, `*length`, the cells, and what was asked of `nand_write` and read of the buffer. -/
structure SkipWrite where
  rval : Int
  length : Nat
  flash : Nat → UInt8
  calls : List (Nat × Nat)
  reads : List Nat

/-- The part of a block that is left to write, and the indices that are read to find it. -/
def truncatedSize (drop : Bool) (buffer : Nat → UInt8) (pos len fuel : Nat) : Option (Nat × List Nat) :=
  if drop then chip.dropFfs buffer pos len fuel else some (len, [])

/-- The loop of `nand_write_skip_bad`. -/
def writeLoop (drop : Bool) (buffer : Nat → UInt8) (length : Nat) : Nat → Nat → Nat → Nat → SkipWrite → Option SkipWrite
  | 0, _, _, _, _ => none
  | fuel + 1, offset, leftToWrite, pos, w =>
    if leftToWrite = 0 then some { w with rval := 0, length := length }
    else
      let blockOffset := offset % chip.erasesize
      if chip.blockIsbad (chip.maskedStart offset) then
        writeLoop drop buffer length fuel (offset + (chip.erasesize - blockOffset)) leftToWrite pos w
      else
        let writeSize := if leftToWrite < chip.erasesize - blockOffset then leftToWrite else chip.erasesize - blockOffset
        match chip.truncatedSize drop buffer pos writeSize fuel with
        | none => none
        | some (truncated, reads) =>
          let (rval, _, flash) := chip.nandWrite w.flash offset (bufferBytes buffer pos truncated)
          let w := { w with
            flash := flash
            calls := w.calls ++ [(offset, truncated)]
            reads := w.reads ++ reads ++ (List.range' pos truncated).map (· % 2 ^ 32) }
          if rval ≠ 0 then some { w with rval := rval, length := length - leftToWrite }
          else writeLoop drop buffer length fuel (offset + writeSize) (leftToWrite - writeSize) (pos + writeSize) w

/-- `nand_write_skip_bad` with or without `WITH_DROP_FFS` -/
def nandWriteSkipBad (fuel : Nat) (flash : Nat → UInt8) (offset length : Nat) (buffer : Nat → UInt8) (drop : Bool) : Option SkipWrite :=
  if offset % chip.writesize ≠ 0 then some ⟨-EINVAL, 0, flash, [], []⟩
  else
    match chip.checkSkipLen fuel offset length with
    | none => none
    | some needSkip =>
      if needSkip < 0 then some ⟨-EINVAL, 0, flash, [], []⟩
      else if needSkip = 0 ∧ drop = false then
        let (rval, retlen, flash) := chip.nandWrite flash offset (bufferBytes buffer 0 length)
        let reads := (List.range' 0 length).map (· % 2 ^ 32)
        if rval = 0 then some ⟨0, retlen, flash, [(offset, length)], reads⟩
        else some ⟨rval, 0, flash, [(offset, length)], reads⟩
      else chip.writeLoop drop buffer length fuel offset length 0 ⟨0, length, flash, [], []⟩

/-! ## Reading -/

/-- What `nand_read_skip_bad` gives: its result, `*length`, and the bytes it puts in the buffer. -/
structure SkipRead where
  rval : Int
  length : Nat
  bytes : List UInt8

/-- The loop of `nand_read_skip_bad`. -/
def readLoop (flash : Nat → UInt8) (length : Nat) : Nat → Nat → Nat → List UInt8 → Option SkipRead
  | 0, _, _, _ => none
  | fuel + 1, offset, leftToRead, bytes =>
    if leftToRead = 0 then some ⟨0, length, bytes⟩
    else
      let blockOffset := offset % chip.erasesize
      if chip.blockIsbad (chip.maskedStart offset) then
        readLoop flash length fuel (offset + (chip.erasesize - blockOffset)) leftToRead bytes
      else
        let readLength := if leftToRead < chip.erasesize - blockOffset then leftToRead else chip.erasesize - blockOffset
        let (rval, got) := chip.nandRead flash offset readLength
        if rval ≠ 0 ∧ rval ≠ -EUCLEAN then some ⟨rval, length - leftToRead, bytes ++ got⟩
        else readLoop flash length fuel (offset + got.length) (leftToRead - got.length) (bytes ++ got)

def nandReadSkipBad (fuel : Nat) (flash : Nat → UInt8) (offset length : Nat) : Option SkipRead :=
  if offset % chip.writesize ≠ 0 then some ⟨-EINVAL, 0, []⟩
  else
    match chip.checkSkipLen fuel offset length with
    | none => none
    | some needSkip =>
      if needSkip < 0 then some ⟨-EINVAL, 0, []⟩
      else if needSkip = 0 then
        let (rval, got) := chip.nandRead flash offset length
        if rval = 0 ∨ rval = -EUCLEAN then some ⟨0, got.length, got⟩ else some ⟨rval, 0, got⟩
      else chip.readLoop flash length fuel offset length []

/-! ## Erasing -/

/-- `mtd_block_isbad`: nothing behind the end of the device has a state; the end itself is not refused. -/
def mtdBlockIsbad (offset : Nat) : Option Bool := if chip.size < offset then none else some (chip.blockIsbad offset)

/-- `mtd_erase` of one block: it fails outside the device, at an address that is not block aligned, and where the device fails. -/
def mtdErase (fails : Nat → Bool) (flash : Nat → UInt8) (addr : Nat) : Bool × (Nat → UInt8) :=
  if chip.size < addr ∨ chip.size - addr < chip.erasesize ∨ addr % chip.erasesize ≠ 0 ∨ fails addr = true then (false, flash)
  else (true, fun a => if a / chip.erasesize = addr / chip.erasesize then 0xff else flash a)

/-- The loop of `nand_erase_opts` with `spread` set and `scrub` clear; of the messages nothing is kept. The addresses that were erased are
recorded. -/
def eraseLoop (fails : Nat → Bool) (eraseLength : Nat) : Nat → Nat → Nat → (Nat → UInt8) → List Nat → Option (Int × (Nat → UInt8) × List Nat)
  | 0, _, _, _, _ => none
  | fuel + 1, addr, erasedLength, flash, erased =>
    if erasedLength < eraseLength then
      match chip.mtdBlockIsbad addr with
      | none => some (-1, flash, erased)
      | some true => eraseLoop fails eraseLength fuel (addr + chip.erasesize) erasedLength flash erased
      | some false =>
        let (done, flash) := chip.mtdErase fails flash addr
        eraseLoop fails eraseLength fuel (addr + chip.erasesize) (erasedLength + 1) flash (if done then erased ++ [addr] else erased)
    else some (0, flash, erased)

/-- `nand_erase_opts` with `spread` set, `scrub` and `jffs2` clear: the result, the cells and the addresses erased. -/
def nandEraseOpts (fuel : Nat) (fails : Nat → Bool) (flash : Nat → UInt8) (offset length : Nat) : Option (Int × (Nat → UInt8) × List Nat) :=
  if offset % chip.writesize ≠ 0 then some (-1, flash, [])
  else chip.eraseLoop fails ((length + chip.erasesize - 1) / chip.erasesize % 2 ^ 32) fuel offset 0 flash []

end NandChip

end

/-!
## The nand command

common/cmd_nand.c: `str2off`, `str2long`, `get_part`, `arg_off`, `arg_off_size`, `raw_access`, and erase, read and write of `do_nand`; and what
`nand_read_skip_bad`, `nand_write_skip_bad` and `nand_erase_opts` of drivers/mtd/nand/nand_util.c ask of the driver. What is kept of a device is
the list of its accesses. The driver may answer each of them as it likes: its answer is a function of the accesses so far and of the one it is
asked for. A read or a write that succeeds is one of the whole length, and the driver refuses what is outside the device.

An argument is its bytes before the NUL. An `unsigned long` and a `size_t` have 32 bits, a `loff_t` has 64 bits and a sign. The messages are
left out, and so are `scrub`, `erase.chip` and the suffixes `.oob`, `.trimffs` and `.yaffs`; `.jffs2`, `.e` and `.i` are the plain read and write.
-/

section

/-! ## Accesses -/

/-- What a driver does to the cells of its device. -/
inductive NandOp where
  | read
  | program
  | erase
  deriving DecidableEq, Repr

/-- What a driver is asked to do. -/
structure NandAccess where
  op : NandOp
  offset : Nat
  length : Nat
  deriving DecidableEq, Repr

namespace NandChip

variable (chip : NandChip) (answer : List NandAccess → Int)

/-- `mtd_read` and `mtd_write` after the accesses that were made: the result, and the accesses. -/
def mtdReadWrite (op : NandOp) (offset length : Nat) (made : List NandAccess) : Int × List NandAccess :=
  if chip.size < offset ∨ chip.size - offset < length then (-EINVAL, made)
  else if length = 0 then (0, made)
  else (answer (made ++ [⟨op, offset, length⟩]), made ++ [⟨op, offset, length⟩])

/-- A result is a failure; corrected bits are none for a read. -/
def failed (op : NandOp) (rval : Int) : Bool := rval != 0 && (op != .read || rval != -EUCLEAN)

/-- The loops of `nand_read_skip_bad` and of `nand_write_skip_bad` without flags: the result, and the accesses. -/
def skipBadLoop (op : NandOp) : Nat → Nat → Nat → List NandAccess → Option Int × List NandAccess
  | 0, _, _, made => (none, made)
  | fuel + 1, offset, left, made =>
    if left = 0 then (some 0, made)
    else
      let blockOffset := offset % chip.erasesize
      if chip.blockIsbad (chip.maskedStart offset) then
        skipBadLoop op fuel (offset + (chip.erasesize - blockOffset)) left made
      else
        let n := if left < chip.erasesize - blockOffset then left else chip.erasesize - blockOffset
        let r := chip.mtdReadWrite answer op offset n made
        if failed op r.1 then (some r.1, r.2) else skipBadLoop op fuel (offset + n) (left - n) r.2

/-- `nand_read_skip_bad`, and `nand_write_skip_bad` without flags: the result, and the accesses. -/
def skipBad (op : NandOp) (fuel offset length : Nat) : Option Int × List NandAccess :=
  if offset % chip.writesize ≠ 0 then (some (-EINVAL), [])
  else
    match chip.checkSkipLen fuel offset length with
    | none => (none, [])
    | some needSkip =>
      if needSkip < 0 then (some (-EINVAL), [])
      else if needSkip = 0 then
        let r := chip.mtdReadWrite answer op offset length []
        (some (if failed op r.1 then r.1 else 0), r.2)
      else chip.skipBadLoop answer op fuel offset length []

def mtdEraseBlock (addr : Nat) (made : List NandAccess) : Int × List NandAccess :=
  if chip.size < addr ∨ chip.size - addr < chip.erasesize ∨ addr % chip.erasesize ≠ 0 then (-EINVAL, made)
  else (answer (made ++ [⟨.erase, addr, chip.erasesize⟩]), made ++ [⟨.erase, addr, chip.erasesize⟩])

/-- The erase of a good block in `nand_erase_opts`: where it succeeds and there is to be a clean marker, this is written to the spare bytes of
the first page. -/
def eraseBlock (marker : Bool) (addr : Nat) (made : List NandAccess) : List NandAccess :=
  let r := chip.mtdEraseBlock answer addr made
  if r.1 = 0 ∧ marker = true then r.2 ++ [⟨.program, addr, chip.writesize⟩] else r.2

/-- The loop of `nand_erase_opts` without `scrub`: the result, and the accesses. -/
def eraseOptsLoop (spread marker : Bool) (eraseLength : Nat) : Nat → Nat → Nat → List NandAccess → Option Int × List NandAccess
  | 0, _, _, made => (none, made)
  | fuel + 1, addr, erasedLength, made =>
    if erasedLength < eraseLength then
      match chip.mtdBlockIsbad addr with
      | none => (some (-1), made)
      | some true => eraseOptsLoop spread marker eraseLength fuel (addr + chip.erasesize) (if spread then erasedLength else erasedLength + 1) made
      | some false =>
        eraseOptsLoop spread marker eraseLength fuel (addr + chip.erasesize) (erasedLength + 1) (chip.eraseBlock answer marker addr made)
    else (some 0, made)

/-- The number of blocks for a length, as `nand_erase_opts` takes it: a sum of 64 bits, and a quotient of 32. -/
def eraseLength (length : Nat) : Nat := (length + chip.erasesize - 1) % 2 ^ 64 / chip.erasesize % 2 ^ 32

/-- `nand_erase_opts` without `scrub`: the result, and the accesses. -/
def eraseOpts (spread marker : Bool) (fuel offset length : Nat) : Option Int × List NandAccess :=
  if offset % chip.writesize ≠ 0 then (some (-1), [])
  else chip.eraseOptsLoop answer spread marker (chip.eraseLength length) fuel offset 0 []

/-- `mtd_read_oob` and `mtd_write_oob` of a raw page with its spare bytes. A page that is written begins at its own address. -/
def mtdReadWriteOob (op : NandOp) (offset : Nat) (made : List NandAccess) : Int × List NandAccess :=
  if chip.size < offset + chip.writesize then (-EINVAL, made)
  else if op = .program ∧ offset % chip.writesize ≠ 0 then (-EINVAL, made)
  else (answer (made ++ [⟨op, offset, chip.writesize⟩]), made ++ [⟨op, offset, chip.writesize⟩])

/-- `raw_access`: the result, and the accesses. -/
def rawAccess (op : NandOp) : Nat → Nat → List NandAccess → Int × List NandAccess
  | 0, _, made => (0, made)
  | count + 1, offset, made =>
    let r := chip.mtdReadWriteOob answer op offset made
    if r.1 ≠ 0 then r else rawAccess op count (offset + chip.writesize) r.2

end NandChip

/-! ## Arguments -/

def MTD_DEV_TYPE_NAND : Nat := 2

/-- An entry of `nand_info`: the device, and the room in its spare bytes. -/
structure NandInfo where
  chip : NandChip
  oobavail : Nat

/-- What the partition table has of a NAND device. -/
def NandInfo.mtd (info : NandInfo) : MtdInfo := ⟨info.chip.size, info.chip.erasesize, []⟩

/-- The named devices of `nand_info`, `nand_curr_device`, and the partition table as `mtdparts_init` leaves it, if that succeeds. A partition
of a NAND device was accepted by `part_validate_eraseblock`. A current device that is not valid is a number without a device. -/
structure NandBoard where
  nandInfo : Nat → Option NandInfo
  currDevice : Nat
  mtdparts : Option (List MtdDevice)
  validated : ∀ devices, mtdparts = some devices → ∀ dev ∈ devices, dev.id.type = MTD_DEV_TYPE_NAND → ∀ part ∈ dev.parts,
    ∀ info, nandInfo dev.id.num = some info → eraseblockOk info.mtd part.offset part.size = true

def str2off (p : List UInt8) : Option Nat :=
  if p ≠ [] ∧ (simpleStrtoullEnd p).2 = [] then some (simpleStrtoullEnd p).1 else none

def str2long (p : List UInt8) : Option Nat :=
  if p ≠ [] ∧ (simpleStrtoulHexEnd p).2 = [] then some (simpleStrtoulHexEnd p).1 else none

/-- The value of a `loff_t`. -/
def loff (n : Nat) : Int := if n < 2 ^ 63 then n else n - 2 ^ 64

def cleanText : List UInt8 := [0x63, 0x6c, 0x65, 0x61, 0x6e]
/-- `"-y"` -/
def scrubYesText : List UInt8 := [0x2d, 0x79]

structure NandRange where
  device : Nat
  offset : Nat
  size : Nat
  deriving DecidableEq

namespace NandBoard

variable (b : NandBoard)

def deviceSize (idx : Nat) : Nat := (b.nandInfo idx).elim 0 (·.chip.size)

/-- `get_part`: the current device after it, and the partition. -/
def getPart (partname : List UInt8) : Nat × Option NandRange :=
  match b.mtdparts with
  | none => (b.currDevice, none)
  | some devices =>
    match findDevAndPart devices partname with
    | none => (b.currDevice, none)
    | some (dev, part) =>
      if dev.id.type ≠ MTD_DEV_TYPE_NAND then (b.currDevice, none)
      else if (b.nandInfo dev.id.num).isNone then (b.currDevice, none)
      else (dev.id.num, some ⟨dev.id.num, part.offset, part.size⟩)

/-- `arg_off`: the current device after it; the device, the offset and the maximum size. -/
def argOff (arg : List UInt8) (idx : Nat) : Nat × Option NandRange :=
  match str2off arg with
  | none => b.getPart arg
  | some off => if b.deviceSize idx ≤ off then (b.currDevice, none) else (b.currDevice, some ⟨idx, off, b.deviceSize idx - off⟩)

/-- The size of `arg_off_size`. -/
def argSize (maxsize : Nat) : List (List UInt8) → Option Nat
  | [] => some maxsize
  | arg :: _ =>
    match str2off arg with
    | none => none
    | some size => if (maxsize : Int) < loff size then none else some size

/-- `arg_off_size` of one or more arguments: the current device after it; the device, the offset and the size. -/
def argOffSize (arg : List UInt8) (args : List (List UInt8)) (idx : Nat) : Nat × Option NandRange :=
  match b.argOff arg idx with
  | (curr, none) => (curr, none)
  | (curr, some r) => (curr, (argSize r.size args).map fun size => { r with size := size })

end NandBoard

/-! ## The command -/

/-- The subcommands that may name a partition. -/
inductive NandCmd where
  | erase
  | eraseSpread
  | erasePart
  | read
  | write
  | readRaw
  | writeRaw
  deriving DecidableEq, Repr

/-- What `do_nand` gives: its result, `nand_curr_device` after it, and the accesses with the device they go to. -/
structure NandRun where
  ret : Option Int
  currDevice : Nat
  device : Nat
  accesses : List NandAccess

/-- How many arguments of `erase` are options. -/
def eraseOptions (args : List (List UInt8)) : Nat := if args.head? = some cleanText ∨ args.head? = some scrubYesText then 1 else 0

namespace NandBoard

variable (b : NandBoard) (answer : List NandAccess → Int)

/-- A command that is refused. -/
def refused (ret : Int) (curr : Nat) : NandRun := ⟨some ret, curr, curr, []⟩

/-- The erase of `do_nand`, where `n` arguments are expected. -/
def doErase (spread : Bool) (n fuel : Nat) (args : List (List UInt8)) : NandRun :=
  if args.length ≠ eraseOptions args + n then refused (-1) b.currDevice
  else
    match args.drop (eraseOptions args) with
    | [] => refused (-1) b.currDevice
    | arg :: args' =>
      match b.argOffSize arg args' b.currDevice with
      | (curr, none) => refused 1 curr
      | (curr, some r) =>
        match b.nandInfo r.device with
        | none => refused 1 curr
        | some nand =>
          let marker := args.head? = some cleanText ∧ 8 ≤ nand.oobavail
          let done := nand.chip.eraseOpts answer spread marker fuel r.offset r.size
          ⟨done.1.map fun ret => if ret = 0 then 0 else 1, curr, r.device, done.2⟩

/-- The plain read and write of `do_nand`, on the device that was the current one. -/
def doReadWrite (nand : NandInfo) (op : NandOp) (fuel : Nat) (args : List (List UInt8)) : NandRun :=
  match args with
  | _ :: arg :: args =>
    match b.argOffSize arg args b.currDevice with
    | (curr, none) => refused 1 curr
    | (curr, some r) =>
      let rwsize := r.size % 2 ^ 32
      let done := nand.chip.skipBad answer op fuel r.offset rwsize
      ⟨done.1.map fun ret => if ret = 0 then 0 else 1, curr, b.currDevice, done.2⟩
  | _ => refused (-1) b.currDevice

/-- The page count of `.raw`. -/
def pageCount : List (List UInt8) → Option Nat
  | [] => some 1
  | arg :: _ => str2long arg

/-- The raw read and write of `do_nand`, on the device that was the current one. -/
def doRaw (nand : NandInfo) (op : NandOp) (args : List (List UInt8)) : NandRun :=
  match args with
  | _ :: arg :: args =>
    match b.argOff arg b.currDevice with
    | (curr, none) => refused 1 curr
    | (curr, some r) =>
      match pageCount args with
      | none => refused 1 curr
      | some pagecount =>
        if r.size < pagecount * nand.chip.writesize % 2 ^ 32 then refused (-1) curr
        else
          let done := nand.chip.rawAccess answer op pagecount r.offset []
          ⟨some (if done.1 = 0 then 0 else 1), curr, b.currDevice, done.2⟩
  | _ => refused (-1) b.currDevice

/-- `do_nand` for the arguments behind the subcommand. -/
def doNand (fuel : Nat) (cmd : NandCmd) (args : List (List UInt8)) : NandRun :=
  match b.nandInfo b.currDevice with
  | none => refused 1 b.currDevice
  | some nand =>
    match cmd with
    | .erase => b.doErase answer false 2 fuel args
    | .eraseSpread => b.doErase answer true 2 fuel args
    | .erasePart => b.doErase answer false 1 fuel args
    | .read => b.doReadWrite answer nand .read fuel args
    | .write => b.doReadWrite answer nand .program fuel args
    | .readRaw => b.doRaw answer nand .read args
    | .writeRaw => b.doRaw answer nand .program args

end NandBoard

end

end UBoot
