import UBoot.CString
import UBoot.Lmb
import UBoot.Buffer

/-!
# The MTD partition table

common/cmd_mtdparts.c: the list of devices with their partitions, and the current partition. A partition and a device have the
address they were allocated at, by which the code tells them apart; the current device is such an address. The parent pointer of a
partition, the data of jffs2 and the three environment variables that follow the current partition are left out, nothing
here reads them. The numbers of a partition have 32 bits, `num_parts` has 16 and `current_mtd_partnum` 8.
-/

namespace UBoot

def SIZE_REMAINING : Nat := 0xFFFFFFFF
/-- `OFFSET_NOT_SPECIFIED` -/
def OFFSET_NOT_SPECIFIED : Nat := 0xFFFFFFFF
/-- `MIN_PART_SIZE` -/
def MIN_PART_SIZE : Nat := 4096
/-- `MTD_WRITEABLE_CMD` -/
def MTD_WRITEABLE_CMD : Nat := 1

/-- `struct mtdids` -/
structure MtdId where
  type : Nat
  num : Nat
  size : Nat
  mtdId : CString
  deriving DecidableEq

structure PartInfo where
  addr : Nat
  name : CString
  autoName : Bool
  size : Nat
  offset : Nat
  maskFlags : Nat
  sectorSize : Nat
  deriving DecidableEq

structure MtdDevice where
  addr : Nat
  id : MtdId
  numParts : Nat
  parts : List PartInfo
  deriving DecidableEq

structure MtdState where
  devices : List MtdDevice
  currentMtdDev : Option Nat
  currentMtdPartnum : Nat
  deriving DecidableEq

/-! ## Validation -/

/-- `struct mtd_erase_region_info` -/
structure EraseRegion where
  offset : Nat
  erasesize : Nat
  numblocks : Nat

/-- `struct mtd_info` of a flash driver. -/
structure MtdInfo where
  size : Nat
  erasesize : Nat
  eraseregions : List EraseRegion

/-- Where block `j` of a region starts, as an `unsigned long`. -/
def EraseRegion.start (r : EraseRegion) (j : Nat) : Nat := (r.offset + j * r.erasesize) % 2 ^ 32

/-- A loop over the blocks of all regions that looks for one that starts at `a`. -/
def blockStarts (regions : List EraseRegion) (a : Nat) : Bool :=
  regions.any fun r => (List.range r.numblocks).any fun j => r.start j == a

/-- `start` after the loops: the end of the last region. -/
def lastStart (regions : List EraseRegion) : Option Nat := regions.getLast?.map fun r => r.start r.numblocks

/-- The checks of `part_validate_eraseblock`: a partition begins and ends with a block. -/
def eraseblockOk (mtd : MtdInfo) (offset size : Nat) : Bool :=
  if mtd.eraseregions.isEmpty then
    -- only one region, checking for alignment is easy
    offset % mtd.erasesize == 0 && size % mtd.erasesize == 0
  else
    blockStarts mtd.eraseregions offset &&
      (blockStarts mtd.eraseregions (add32 offset size) || lastStart mtd.eraseregions == some (add32 offset size))

/-- `part_validate_eraseblock`, with the flash drivers by type and number. `none` is a return of 1. -/
def partValidateEraseblock (mtds : Nat → Nat → Option MtdInfo) (id : MtdId) (part : PartInfo) : Option PartInfo := do
  let mtd ← mtds id.type id.num
  if eraseblockOk mtd part.offset part.size then some { part with sectorSize := mtd.erasesize } else none

/-- A partition of the special size takes the rest of the flash. -/
def fillSize (id : MtdId) (part : PartInfo) : PartInfo :=
  if part.size = SIZE_REMAINING then { part with size := sub32 id.size part.offset } else part

def partValidate (mtds : Nat → Nat → Option MtdInfo) (id : MtdId) (part : PartInfo) : Option PartInfo :=
  let part := fillSize id part
  if part.offset > id.size then none
  else if add32 part.offset part.size ≤ part.offset then none
  else if add32 part.offset part.size > id.size then none
  else partValidateEraseblock mtds id part

/-! ## The list of partitions -/

def mtdPartInfo (dev : MtdDevice) (partNum : Nat) : Option PartInfo :=
  if partNum ≥ dev.numParts then none else dev.parts[partNum]?

/-- The loop of `part_sort_add`: the list with the new partition, and the partition it was put before. `none` is a second
partition at offset 0. -/
def sortAddLoop (part : PartInfo) : List PartInfo → Option (List PartInfo × Option PartInfo)
  | [] => some ([part], none)
  | pi :: rest =>
    if part.offset = pi.offset ∧ pi.offset = 0 then none
    else if part.offset ≤ pi.offset then some (part :: pi :: rest, some pi)
    else (sortAddLoop part rest).map fun r => (pi :: r.1, r.2)

/-- The number of the current partition `currPi` after one was put before `pi`. -/
def sortAddNumber : Option PartInfo → Option PartInfo → Nat → Nat
  | some pi, some currPi, partnum => if pi.offset ≤ currPi.offset then (partnum + 1) % 2 ^ 8 else partnum
  | _, _, partnum => partnum

/-- `part_sort_add`: the device, and the number of the current partition. `currPi` is the current partition if the device is the
current one. -/
def partSortAdd (dev : MtdDevice) (part : PartInfo) (currPi : Option PartInfo) (partnum : Nat) : Option (MtdDevice × Nat) :=
  (sortAddLoop part dev.parts).map fun r =>
    ({ dev with parts := r.1, numParts := (dev.numParts + 1) % 2 ^ 16 }, sortAddNumber r.2 currPi partnum)

/-- The number of the current partition `currPi` after one was deleted. -/
def delNumber (part : PartInfo) : Option PartInfo → Nat → Nat
  | none, partnum => partnum
  | some currPi, partnum =>
    if currPi.addr = part.addr then 0
    else if part.offset ≤ currPi.offset then (partnum + 2 ^ 8 - 1) % 2 ^ 8
    else partnum

namespace MtdState

/-- The device at an address. -/
def device (s : MtdState) (a : Nat) : Option MtdDevice := s.devices.find? (·.addr = a)

/-- A device changed in its place. -/
def setDevice (s : MtdState) (dev : MtdDevice) : MtdState :=
  { s with devices := s.devices.map fun d => if d.addr = dev.addr then dev else d }

/-- The current partition, if the device is the current one. -/
def currPi (s : MtdState) (dev : MtdDevice) : Option PartInfo :=
  if s.currentMtdDev = some dev.addr then mtdPartInfo dev s.currentMtdPartnum else none

/-- `part_add` to a device of the list: what is returned, and the new state. -/
def partAdd (mtds : Nat → Nat → Option MtdInfo) (s : MtdState) (dev : MtdDevice) (part : PartInfo) : Int × MtdState :=
  match partValidate mtds dev.id part with
  | none => (1, s)
  | some part =>
    match partSortAdd dev part (s.currPi dev) s.currentMtdPartnum with
    | none => (1, s)
    | some (dev, partnum) => (0, { s.setDevice dev with currentMtdPartnum := partnum })

/-- `device_del` of a device of the list. -/
def deviceDel (s : MtdState) (dev : MtdDevice) : MtdState :=
  let devices := s.devices.filter (·.addr ≠ dev.addr)
  if s.currentMtdDev = some dev.addr then
    match devices with
    | [] => { s with devices := devices, currentMtdDev := none }
    | first :: _ => { devices := devices, currentMtdDev := some first.addr, currentMtdPartnum := 0 }
  else { s with devices := devices }

/-- `part_del` of a partition of a device of the list. -/
def partDel (s : MtdState) (dev : MtdDevice) (part : PartInfo) : MtdState :=
  if dev.numParts = 1 then s.deviceDel dev
  else
    let partnum := delNumber part (s.currPi dev) s.currentMtdPartnum
    let dev := { dev with parts := dev.parts.filter (·.addr ≠ part.addr), numParts := (dev.numParts + 2 ^ 16 - 1) % 2 ^ 16 }
    { s.setDevice dev with currentMtdPartnum := partnum }

def deviceAdd (s : MtdState) (dev : MtdDevice) : MtdState :=
  if s.devices = [] then { devices := [dev], currentMtdDev := some dev.addr, currentMtdPartnum := 0 }
  else { s with devices := s.devices ++ [dev] }

end MtdState

/-!
## Reading and writing the mtdparts variable

common/cmd_mtdparts.c: `parse_mtdids`, `parse_mtdparts`, `generate_mtdparts` and `find_dev_and_part`. A string is its bytes before the NUL.
A return of 1 is `none`; the messages on the console are left out. `malloc` gives the address of the n-th allocation, or NULL.
-/

/-- `'-'` -/
def chMinus : UInt8 := 0x2d
/-- `'@'` -/
def chAt : UInt8 := 0x40
/-- `'('` -/
def chOpen : UInt8 := 0x28
/-- `')'` -/
def chClose : UInt8 := 0x29
/-- `','` -/
def chComma : UInt8 := 0x2c
/-- `';'` -/
def chSemicolon : UInt8 := 0x3b

def roText : List UInt8 := [0x72, 0x6f]
/-- `"mtdparts="` -/
def mtdpartsPrefix : List UInt8 := [0x6d, 0x74, 0x64, 0x70, 0x61, 0x72, 0x74, 0x73, 0x3d]

/-! ## Sizes -/

/-- `<<= 10` of an `unsigned long`. -/
def shl10 (n : Nat) : Nat := n * 2 ^ 10 % 2 ^ 32

def memsizeParse (ptr : List UInt8) : Nat × List UInt8 :=
  let r := simpleStrtoulEnd ptr
  match r.2 with
  | [] => r
  | c :: rest =>
    if c = 0x47 ∨ c = 0x67 then (shl10 (shl10 (shl10 r.1)), rest)
    else if c = 0x4d ∨ c = 0x6d then (shl10 (shl10 r.1), rest)
    else if c = 0x4b ∨ c = 0x6b then (shl10 r.1, rest)
    else r

/-- The digits `%u` writes for a number of at most that many digits. -/
def decDigits : Nat → Nat → List UInt8
  | 0, _ => []
  | width + 1, n =>
    if n < 10 then [UInt8.ofNat (0x30 + n)] else decDigits width (n / 10) ++ [UInt8.ofNat (0x30 + n % 10)]

/-- `"%u"` of a 32-bit number. -/
def decText (n : Nat) : List UInt8 := decDigits 10 n

def memsizeFormat (size : Nat) : List UInt8 :=
  if size % 2 ^ 30 = 0 then decText (size / 2 ^ 30) ++ [0x67]
  else if size % 2 ^ 20 = 0 then decText (size / 2 ^ 20) ++ [0x6d]
  else if size % 2 ^ 10 = 0 then decText (size / 2 ^ 10) ++ [0x6b]
  else decText size

/-! ## Reading -/

def deviceFind (devices : List MtdDevice) (type num : Nat) : Option MtdDevice :=
  devices.find? fun dev => dev.id.type = type ∧ dev.id.num = num

def idFindByMtdId (mtdids : List MtdId) (mtdId : List UInt8) : Option MtdId := mtdids.find? fun id => mtdId = id.mtdId.bytes

/-- The digits of `%08lx`. -/
def lowerHex8 (n : Nat) : List UInt8 :=
  (List.range 8).reverse.map fun i => UInt8.ofNat (if n / 16 ^ i % 16 < 10 then 0x30 + n / 16 ^ i % 16 else 0x57 + n / 16 ^ i % 16)

/-- The generated name `"0x%08lx@0x%08lx"`. -/
def autoNameText (size offset : Nat) : List UInt8 :=
  [chZero, chX] ++ lowerHex8 size ++ [chAt, chZero, chX] ++ lowerHex8 offset

/-- The size of a partition definition: what is given, or all that remains. -/
def parsePartSize (p : List UInt8) : Option (Nat × List UInt8) :=
  if p.head? = some chMinus then some (SIZE_REMAINING, p.tail)
  else if (memsizeParse p).1 < MIN_PART_SIZE then none
  else some (memsizeParse p)

def parsePartOffset (p : List UInt8) : Nat × List UInt8 :=
  if p.head? = some chAt then memsizeParse p.tail else (OFFSET_NOT_SPECIFIED, p)

def parsePartName (p : List UInt8) : Option (Option (List UInt8) × List UInt8) :=
  if p.head? = some chOpen then
    match p.tail.dropWhile (· != chClose) with
    | [] => none
    | _ :: rest => if p.tail.takeWhile (· != chClose) = [] then none else some (some (p.tail.takeWhile (· != chClose)), rest)
  else some (none, p)

/-- The options. -/
def parsePartFlags (p : List UInt8) : Nat × List UInt8 :=
  if roText.isPrefixOf p then (MTD_WRITEABLE_CMD, p.drop 2) else (0, p)

/-- The end of a partition definition of the given size. -/
def parsePartEnd (size : Nat) (p : List UInt8) : Option (List UInt8) :=
  match p with
  | [] => some []
  | c :: rest =>
    if c = chComma then (if size = SIZE_REMAINING then none else some rest)
    else if c = chSemicolon then some (c :: rest)
    else none

/-- `part_parse`, with the number of the next allocation. -/
def partParse (malloc : Nat → Option Nat) (n : Nat) (partdef : List UInt8) : Option (PartInfo × List UInt8) := do
  let (size, p) ← parsePartSize partdef
  let (offset, p) := parsePartOffset p
  let (name, p) ← parsePartName p
  let (maskFlags, p) := parsePartFlags p
  let p ← parsePartEnd size p
  let addr ← malloc n
  some ({ addr := addr, name := CString.ofBytes (name.getD (autoNameText size offset)), autoName := name.isNone
          size := size, offset := offset, maskFlags := maskFlags, sectorSize := 0 }, p)

/-- The loop of `device_parse` over the partition definitions, with the number of the next allocation and the offset where the
next partition begins. -/
def devicePartsLoop (mtds : Nat → Nat → Option MtdInfo) (malloc : Nat → Option Nat) (id : MtdId) :
    Nat → Nat → Nat → List UInt8 → List PartInfo → Option (List PartInfo × List UInt8 × Nat)
  | 0, _, _, _, _ => none
  | fuel + 1, n, offset, p, parts =>
    if p = [] ∨ p.head? = some chSemicolon then
      if parts = [] then none else some (parts, p, n)
    else do
      let (part, p) ← partParse malloc n p
      let part ← partValidate mtds id (if part.offset = OFFSET_NOT_SPECIFIED then { part with offset := offset } else part)
      devicePartsLoop mtds malloc id fuel (n + 1) (add32 part.offset part.size) p (parts ++ [part])

/-- Where the first partition of a device begins if it has no offset: after the last one of a device that exists. -/
def firstOffset (devices : List MtdDevice) (id : MtdId) : Nat :=
  (((deviceFind devices id.type id.num).bind fun dev => dev.parts.getLast?).map fun part => add32 part.offset part.size).getD 0

/-- `device_parse`, with the list of devices and the number of the next allocation. The new device is not the current one. -/
def deviceParse (mtds : Nat → Nat → Option MtdInfo) (malloc : Nat → Option Nat) (mtdids : List MtdId)
    (devices : List MtdDevice) (n : Nat) (mtdDev : List UInt8) : Option (MtdDevice × List UInt8 × Nat) := do
  let p ← (mtdDev.dropWhile (· != chColon)).tail?
  let id ← idFindByMtdId mtdids (mtdDev.takeWhile (· != chColon))
  let (parts, p, n) ← devicePartsLoop mtds malloc id (p.length + 1) n (firstOffset devices id) p []
  -- num_parts has 16 bits
  if parts.length % 2 ^ 16 = 0 then none
  else do
    let addr ← malloc n
    let dev ← parts.foldlM (fun dev part => (partSortAdd dev part none 0).map Prod.fst) ⟨addr, id, 0, []⟩
    some (dev, if p.head? = some chSemicolon then p.tail else p, n + 1)

def parseMtdpartsLoop (mtds : Nat → Nat → Option MtdInfo) (malloc : Nat → Option Nat) (mtdids : List MtdId) :
    Nat → Nat → List UInt8 → List MtdDevice → Option (List MtdDevice)
  | 0, _, _, _ => none
  | fuel + 1, n, p, devices =>
    if p = [] then
      if devices = [] then none else some devices
    else do
      let (dev, p, n) ← deviceParse mtds malloc mtdids devices n p
      if (deviceFind devices dev.id.type dev.id.num).isSome then none
      else parseMtdpartsLoop mtds malloc mtdids fuel n p (devices ++ [dev])

/-- `parse_mtdparts` on the value of the variable: the new list of devices. -/
def parseMtdparts (mtds : Nat → Nat → Option MtdInfo) (malloc : Nat → Option Nat) (mtdids : List MtdId) (p : List UInt8) :
    Option (List MtdDevice) :=
  if mtdpartsPrefix.isPrefixOf p then parseMtdpartsLoop mtds malloc mtdids (p.length + 1) 0 (p.drop 9) [] else none

/-! ## The mtdids variable -/

/-- The types of devices `mtd_id_parse` knows: `nand`, `nor` and `onenand`. -/
def mtdDevTypes : List (List UInt8 × Nat) :=
  [([0x6e, 0x61, 0x6e, 0x64], 2), ([0x6e, 0x6f, 0x72], 1), ([0x6f, 0x6e, 0x65, 0x6e, 0x61, 0x6e, 0x64], 4)]

/-- `mtd_id_parse`: the type, the number, and what follows them. -/
def mtdIdParse (id : List UInt8) : Option (Nat × Nat × List UInt8) := do
  let (name, type) ← mtdDevTypes.find? fun t => t.1.isPrefixOf id
  let p := id.drop name.length
  let c ← p.head?
  if 0x30 ≤ c ∧ c ≤ 0x39 then some (type, (simpleStrtoulEnd p).1 % 2 ^ 8, (simpleStrtoulEnd p).2) else none

/-- `find_dev_and_part`: a partition by its name, or by the type and number of its device and its own number. -/
def findDevAndPart (devices : List MtdDevice) (id : List UInt8) : Option (MtdDevice × PartInfo) :=
  match devices.findSome? fun dev => (dev.parts.find? fun part => part.name.bytes = id).map fun part => (dev, part) with
  | some r => some r
  | none => do
    let (type, dnum, p) ← mtdIdParse id
    if p.head? ≠ some chComma ∨ p.tail = [] then none
    else if (simpleStrtoulEnd p.tail).2 ≠ [] then none
    else do
      let dev ← deviceFind devices type dnum
      let part ← mtdPartInfo dev ((simpleStrtoulEnd p.tail).1 % 2 ^ 8)
      some (dev, part)

def parseMtdidsLoop (mtds : Nat → Nat → Option MtdInfo) (malloc : Nat → Option Nat) : Nat → List UInt8 → List MtdId → Option (List MtdId)
  | 0, _, _ => none
  | fuel + 1, p, mtdids =>
    if p = [] then
      if mtdids = [] then none else some mtdids
    else do
      let (type, num, p) ← mtdIdParse p
      if p.head? ≠ some chEquals then none
      else do
        let mtd ← mtds type num
        if mtdids.any fun id => id.type = type ∧ id.num = num then none
        else do
          let _ ← malloc mtdids.length
          let mtdId := p.tail.takeWhile (· != chComma)
          parseMtdidsLoop mtds malloc fuel (p.tail.drop (mtdId.length + 1)) (mtdids ++ [⟨type, num, mtd.size % 2 ^ 32, CString.ofBytes mtdId⟩])

def parseMtdids (mtds : Nat → Nat → Option MtdInfo) (malloc : Nat → Option Nat) (ids : List UInt8) : Option (List MtdId) :=
  parseMtdidsLoop mtds malloc (ids.length + 1) ids []

/-! ## Writing -/

/-- Put text into the buffer if it fits: what is written, and the room left. -/
def putText (text : List UInt8) (b : List UInt8 × Nat) : Option (List UInt8 × Nat) :=
  if text.length > b.2 then none else some (b.1 ++ text, b.2 - text.length)

/-- Put text if a condition holds. -/
def putTextIf (c : Bool) (text : List UInt8) (b : List UInt8 × Nat) : Option (List UInt8 × Nat) :=
  if c then putText text b else some b

/-- The offset is written where there is a gap or an overlap. -/
def needsOffset (prevPart : Option PartInfo) (part : PartInfo) : Bool :=
  match prevPart with
  | none => part.offset != 0
  | some prev => add32 prev.offset prev.size != part.offset

/-- The partitions of a device, from number `partCnt` on. -/
def generateParts (numParts : Nat) : Nat → Option PartInfo → List PartInfo → List UInt8 × Nat → Option (List UInt8 × Nat)
  | _, _, [], b => some b
  | partCnt, prevPart, part :: parts, b => do
    let b ← putText (memsizeFormat part.size) b
    let b ← putTextIf (needsOffset prevPart part) (chAt :: memsizeFormat part.offset) b
    let b ← putTextIf (!part.autoName) (chOpen :: (part.name.bytes ++ [chClose])) b
    let b ← putTextIf (part.maskFlags != 0) roText b
    let b ← putTextIf (decide (numParts > partCnt + 1)) [chComma] b
    generateParts numParts (partCnt + 1) (some part) parts b

def generateDevices : List MtdDevice → List UInt8 × Nat → Option (List UInt8 × Nat)
  | [], b => some b
  | dev :: devices, b => do
    let b ← putText (dev.id.mtdId.bytes ++ [chColon]) b
    let b ← generateParts dev.numParts 0 none dev.parts b
    let b ← putTextIf (devices != []) [chSemicolon] b
    generateDevices devices b

/-- `generate_mtdparts` into a buffer of `buflen` bytes. -/
def generateMtdparts (buflen : Nat) (devices : List MtdDevice) : Option (List UInt8) :=
  if devices = [] then some []
  else (generateDevices devices (mtdpartsPrefix, sub32 buflen 1)).map Prod.fst

/-!
## The buffers of the mtdparts text

`generate_mtdparts` of common/cmd_mtdparts.c once more, and the text that `mtdparts add` puts together, with every byte stored in a buffer of
the size the code gives it. `last_parts`, which a failure clears, is left out.
-/

/-- Why the generator stops early: a store outside the buffer, or the jump to `cleanup` with what is in the buffer. -/
inductive MtdStop where
  | outside
  | cleanup (buf : List UInt8)
  deriving DecidableEq

/-- The buffer, the pointer `p` as an index of it, and `maxlen`. -/
structure MtdOut where
  buf : List UInt8
  p : Nat
  maxlen : Nat

/-- A piece of the text: the test of its length, its bytes, and what is left of `maxlen`. -/
def putPiece (b : MtdOut) (text : List UInt8) : Except MtdStop MtdOut :=
  if text.length > b.maxlen then .error (.cleanup b.buf)
  else
    match putBytes b.buf b.p text with
    | none => .error .outside
    | some buf => .ok ⟨buf, b.p + text.length, b.maxlen - text.length⟩

/-- A piece that is put under a condition. -/
def putPieceIf (c : Bool) (text : List UInt8) (b : MtdOut) : Except MtdStop MtdOut :=
  if c then putPiece b text else .ok b

/-- The partitions of a device, from number `partCnt` on. -/
def generatePartsIn (numParts : Nat) : Nat → Option PartInfo → List PartInfo → MtdOut → Except MtdStop MtdOut
  | _, _, [], b => .ok b
  | partCnt, prevPart, part :: parts, b => do
    let b ← putPiece b (memsizeFormat part.size)
    let b ← putPieceIf (needsOffset prevPart part) (chAt :: memsizeFormat part.offset) b
    let b ← putPieceIf (!part.autoName) (chOpen :: (part.name.bytes ++ [chClose])) b
    let b ← putPieceIf (part.maskFlags != 0) roText b
    let b ← putPieceIf (decide (numParts > partCnt + 1)) [chComma] b
    generatePartsIn numParts (partCnt + 1) (some part) parts b

def generateDevicesIn : List MtdDevice → MtdOut → Except MtdStop MtdOut
  | [], b => .ok b
  | dev :: devices, b => do
    let b ← putPiece b (dev.id.mtdId.bytes ++ [chColon])
    let b ← generatePartsIn dev.numParts 0 none dev.parts b
    let b ← putPieceIf (devices != []) [chSemicolon] b
    generateDevicesIn devices b

/-- `generate_mtdparts`: what is returned, and the buffer; `none` is a store outside it. -/
def generateMtdpartsIn (buf : List UInt8) (buflen : Nat) (devices : List MtdDevice) : Option (Int × List UInt8) :=
  if devices = [] then (putByte buf 0 0).map fun buf => (0, buf)
  else
    -- sprintf writes the NUL as well
    match putBytes buf 0 (mtdpartsPrefix ++ [0]) with
    | none => none
    | some buf =>
      match generateDevicesIn devices ⟨buf, mtdpartsPrefix.length, sub32 buflen 1⟩ with
      | .error .outside => none
      | .error (.cleanup buf) => some (1, buf)
      | .ok b => (putByte b.buf b.p 0).map fun buf => (0, buf)

/-! ## mtdparts add -/

def PART_ADD_DESC_MAXLEN : Nat := 64

/-- The length that `mtdparts add` computes, in 8 bits. -/
def addDescLen (mtdId sizeOffset name : CString) (ro : Option CString) : Nat :=
  let len := (mtdId.bytes.length + 1) % 2 ^ 8
  let len := (len + sizeOffset.bytes.length) % 2 ^ 8
  let len := (len + (name.bytes.length + 2)) % 2 ^ 8
  match ro with
  | none => len
  | some ro => if ro.bytes.length = 2 then (len + 2) % 2 ^ 8 else len

/-- `"%s:%s(%s)%s"` -/
def addDescText (mtdId sizeOffset name : CString) (ro : Option CString) : List UInt8 :=
  mtdId.bytes ++ chColon :: (sizeOffset.bytes ++ chOpen :: (name.bytes ++ chClose :: (ro.map CString.bytes).getD []))

/-- The definition that `mtdparts add` puts together in `tmpbuf`, from the id of the device and `argv[3]` to `argv[5]`. The inner `none`
is the message that it is too long. -/
def addDesc (tmpbuf : List UInt8) (mtdId sizeOffset name : CString) (ro : Option CString) : Option (Option (List UInt8)) :=
  if addDescLen mtdId sizeOffset name ro ≥ PART_ADD_DESC_MAXLEN then some none
  else (putBytes tmpbuf 0 (addDescText mtdId sizeOffset name ro ++ [0])).map some

end UBoot
