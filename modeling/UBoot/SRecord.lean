import UBoot.Nfs
import UBoot.Buffer

/-!
# S-records

`srec_decode` of common/s_record.c, and `save_serial` and `load_serial` of common/cmd_load.c without flash. A string is the list of its
characters before the NUL. What `save_serial` writes is a list of characters; `load_serial` reads from one, and where it ends waits
for ever: the result is `none`. So it is for a copy of a negative length. Nothing is typed on the console meanwhile. The last section
has the line with its NUL and the buffer for the data in memory.
-/

namespace UBoot

/-- `'\r'` -/
def chReturn : UInt8 := 0x0d
/-- `'S'` -/
def chS : UInt8 := 0x53

/-! ## One record -/

/-- The record types of include/s_record.h. -/
inductive SrecType where
  | start | data2 | data3 | data4 | count | end4 | end3 | end2 | empty
  deriving DecidableEq, Repr

/-- `SREC_E_...` -/
inductive SrecError where
  | badType | noSrec | badChks
  deriving DecidableEq, Repr

/-- What `srec_decode` returns and stores. -/
structure SrecRecord where
  type : SrecType
  count : Int
  addr : UInt32
  data : List UInt8
  deriving DecidableEq

def hex1Bin (c : UInt8) : Option Nat := xdigit c

def hex2Bin : List UInt8 → Option UInt8
  | a :: b :: _ =>
    match hex1Bin a, hex1Bin b with
    | some i, some j => some (UInt8.ofNat (i * 16 + j))
    | _, _ => none
  | _ => none

/-- Bytes read one after the other, and the input behind them. -/
def hexBytes : Nat → List UInt8 → Option (List UInt8 × List UInt8)
  | 0, input => some ([], input)
  | n + 1, input =>
    match hex2Bin input with
    | none => none
    | some v => (hexBytes n (input.drop 2)).map fun r => (v :: r.1, r.2)

/-- The type, the number of data bytes and the number of address bytes that follow from the type character and the length. -/
def srecKind (v : UInt8) (count : Int) : Option (SrecType × Int × Nat) :=
  if v = 0x30 then some (.start, count - 3, 2)
  else if v = 0x31 then some (.data2, count - 3, 2)
  else if v = 0x32 then some (.data3, count - 4, 3)
  else if v = 0x33 then some (.data4, count - 5, 4)
  else if v = 0x35 then some (.count, 0, 2)
  else if v = 0x37 then some (.end4, count - 5, 4)
  else if v = 0x38 then some (.end3, count - 4, 3)
  else if v = 0x39 then some (.end2, count - 3, 2)
  else none

/-- The sum of bytes in an `unsigned char`. -/
def chksum (bs : List UInt8) : UInt8 := bs.foldl (· + ·) 0

/-- The address field. -/
def srecAddr (bs : List UInt8) : UInt32 := bs.foldl (fun addr v => addr <<< 8 + v.toUInt32) 0

def srecDecode (input : List UInt8) : Except SrecError SrecRecord :=
  match (input.dropWhile (· ≠ chS)).drop 1 with
  | [] => .ok ⟨.empty, 0, 0, []⟩
  | v :: input =>
    match hex2Bin input with
    | none => .error .noSrec
    | some length =>
      match srecKind v length.toNat with
      | none => .error .badType
      | some (type, count, width) =>
        match hexBytes width (input.drop 2) with
        | none => .error .noSrec
        | some (addr, input) =>
          match hexBytes count.toNat input with
          | none => .error .noSrec
          | some (data, input) =>
            match hex2Bin input with
            | none => .error .noSrec
            | some v =>
              if v ≠ ~~~(chksum (length :: (addr ++ data))) then .error .badChks
              else .ok ⟨type, count, srecAddr addr, data⟩

/-! ## Upload -/

/-- `SREC3_START` without its newline: `"S0030000FC"`. -/
def SREC3_START : List UInt8 := [0x53, 0x30, 0x30, 0x33, 0x30, 0x30, 0x30, 0x30, 0x46, 0x43]
/-- `SREC3_END` without its newline: `"S70500000000FA"`. -/
def SREC3_END : List UInt8 := [0x53, 0x37, 0x30, 0x35, 0x30, 0x30, 0x30, 0x30, 0x30, 0x30, 0x30, 0x30, 0x46, 0x41]
/-- `SREC_BYTES_PER_RECORD` -/
def SREC_BYTES_PER_RECORD : Nat := 16

/-- The bytes of a word, the highest first. -/
def addressBytes (address : UInt32) : List UInt8 :=
  [(address >>> 24).toUInt8, (address >>> 16).toUInt8, (address >>> 8).toUInt8, address.toUInt8]

/-- `"S3%02X%08lX%s%02X"` -/
def srec3Format (length : UInt8) (address : UInt32) (data : List UInt8) (checksum : UInt8) : List UInt8 :=
  [chS, 0x33] ++ hexByte length ++ (addressBytes address).flatMap hexByte ++ data ++ hexByte checksum

/-- The data record that `save_serial` writes, for the hexadecimal data collected and the sum of its bytes. -/
def dumpRecord (address : UInt32) (reclen checksum : Nat) (data : List UInt8) : List UInt8 :=
  let length := 4 + reclen + 1
  let checksum := checksum + length % 256 + length / 256 % 256
  let checksum := checksum + address.toNat % 256 + address.toNat / 256 % 256 + address.toNat / 65536 % 256 + address.toNat / 16777216 % 256
  srec3Format (UInt8.ofNat length) address data (UInt8.ofNat (255 - checksum % 256))

/-- The loop of `save_serial`, with `count` bytes to go: the records it writes. -/
def saveLoop (mem : UInt32 → UInt8) : Nat → UInt32 → Nat → Nat → List UInt8 → List (List UInt8)
  | 0, _, _, _, _ => []
  | count + 1, address, reclen, checksum, data =>
    let c := mem (address + UInt32.ofNat reclen)
    let checksum := checksum + c.toNat
    let data := data ++ hexByte c
    let reclen := reclen + 1
    if reclen = SREC_BYTES_PER_RECORD ∨ count = 0 then
      dumpRecord address reclen checksum data :: saveLoop mem count (address + UInt32.ofNat reclen) 0 0 []
    else saveLoop mem count address reclen checksum data

/-- The records that `save_serial` writes. -/
def saveSerial (mem : UInt32 → UInt8) (address count : UInt32) : List (List UInt8) :=
  SREC3_START :: saveLoop mem count.toNat address 0 0 [] ++ [SREC3_END]

/-- The characters sent for records: each with its newline, which the driver of the line may send with a carriage return. -/
def writeRecords (crlf : Bool) (records : List (List UInt8)) : List UInt8 :=
  records.flatMap fun record => record ++ if crlf then [chReturn, chNewline] else [chNewline]

/-! ## Download -/

def SREC_MAXRECLEN : Nat := 516

/-- `read_record` with room for `len` characters: the record, or `none` within for the -1 of an abort, and the characters left. -/
def readRecord : Nat → List UInt8 → Option (Option (List UInt8) × List UInt8)
  | 0, s => some (some [], s)
  | _ + 1, [] => none
  | len + 1, c :: s =>
    if c = chReturn ∨ c = chNewline then some (some [], s)
    else if c = 0 ∨ c = 3 then some (none, s)
    else (readRecord len s).map fun r => (r.1.map (c :: ·), r.2)

/-- `"%lX"` of a number of 32 bits. -/
def ulongHex (n : UInt32) : List UInt8 :=
  let digits := (addressBytes n).flatMap hexByte
  digits.take 7 |>.dropWhile (· = 0x30) |> (· ++ digits.drop 7)

/-- How `load_serial` ends: what it returns, the memory, and the value of `filesize` if it was set. -/
structure LoadResult where
  ret : UInt32
  mem : UInt32 → UInt8
  filesize : Option (List UInt8)

/-- The loop of `load_serial`. Every round reads at least one character. -/
def loadLoop (offset : UInt32) : Nat → List UInt8 → (UInt32 → UInt8) → UInt32 → UInt32 → Option LoadResult
  | 0, _, _, _, _ => none
  | fuel + 1, s, mem, startAddr, endAddr =>
    match readRecord SREC_MAXRECLEN s with
    | none => none
    | some (none, _) => some ⟨~~~0, mem, none⟩
    | some (some record, s) =>
      match srecDecode record with
      | .error _ => some ⟨~~~0, mem, none⟩
      | .ok r =>
        match r.type with
        | .data2 | .data3 | .data4 =>
          let storeAddr := r.addr + offset
          if r.count < 0 then none
          else
            let last := storeAddr + UInt32.ofInt r.count - 1
            loadLoop offset fuel s (memcpy mem storeAddr r.data) (if storeAddr < startAddr then storeAddr else startAddr)
              (if endAddr < last then last else endAddr)
        | .end2 | .end3 | .end4 => some ⟨r.addr, mem, some (ulongHex (endAddr - startAddr + 1))⟩
        | .start | .count | .empty => loadLoop offset fuel s mem startAddr endAddr

def loadSerial (offset : UInt32) (s : List UInt8) (mem : UInt32 → UInt8) : Option LoadResult :=
  loadLoop offset (s.length + 1) s mem (~~~0) 0

/-! ## The line and the buffer in memory

`srec_decode` with its reads of the line, which is the list of its characters with the NUL, and with its stores to `data`. The
result is `none` for a read behind the line and for a store outside `data`.
-/

def SREC_MAXBINLEN : Nat := 255

/-- `hex2_bin`, which does not read the second character when the first is no digit. -/
def hex2BinIn : List UInt8 → Option (Option UInt8)
  | [] => none
  | a :: input =>
    match hex1Bin a with
    | none => some none
    | some i =>
      match input with
      | [] => none
      | b :: _ => some ((hex1Bin b).map fun j => UInt8.ofNat (i * 16 + j))

/-- Skips anything before `S`, and the `S` itself. -/
def skipToS : List UInt8 → Option (List UInt8)
  | [] => none
  | c :: input => if c = 0 then some (c :: input) else if c = chS then some input else skipToS input

/-- The address field: `*addr` and `chksum` behind it, and the input. -/
def srecAddrIn : Nat → UInt32 → UInt8 → List UInt8 → Option (Option (UInt32 × UInt8 × List UInt8))
  | 0, addr, chksum, input => some (some (addr, chksum, input))
  | n + 1, addr, chksum, input =>
    match hex2BinIn input with
    | none => none
    | some none => some none
    | some (some v) => srecAddrIn n (addr <<< 8 + v.toUInt32) (chksum + v) (input.drop 2)

/-- The data loop from `data[i]` on: `chksum` and the input behind it, and `data`. -/
def srecDataIn : Nat → Nat → List UInt8 → UInt8 → List UInt8 → Option (Option (UInt8 × List UInt8) × List UInt8)
  | 0, _, data, chksum, input => some (some (chksum, input), data)
  | n + 1, i, data, chksum, input =>
    match hex2BinIn input with
    | none => none
    | some none => some (none, data)
    | some (some v) =>
      match putByte data i v with
      | none => none
      | some data => srecDataIn n (i + 1) data (chksum + v) (input.drop 2)

/-- `srec_decode`: what it returns, with `*count` and `*addr`, and `data`. -/
def srecDecodeIn (input data : List UInt8) : Option (Except SrecError (SrecType × Int × UInt32) × List UInt8) :=
  match skipToS input with
  | none => none
  | some [] => none
  | some (v :: input) =>
    if v = 0 then some (.ok (.empty, 0, 0), data)
    else
      match hex2BinIn input with
      | none => none
      | some none => some (.error .noSrec, data)
      | some (some length) =>
        match srecKind v length.toNat with
        | none => some (.error .badType, data)
        | some (type, count, width) =>
          match srecAddrIn width 0 length (input.drop 2) with
          | none => none
          | some none => some (.error .noSrec, data)
          | some (some (addr, chksum, input)) =>
            match srecDataIn count.toNat 0 data chksum input with
            | none => none
            | some (none, data) => some (.error .noSrec, data)
            | some (some (chksum, input), data) =>
              match hex2BinIn input with
              | none => none
              | some none => some (.error .noSrec, data)
              | some (some v) => if v ≠ ~~~chksum then some (.error .badChks, data) else some (.ok (type, count, addr), data)

end UBoot
