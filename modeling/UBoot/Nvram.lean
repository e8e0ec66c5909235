import UBoot.CString
import UBoot.Buffer
import UBoot.Word
import Mathlib.Logic.Function.Basic

/-!
# The Broadcom NVRAM store

common/bcmnvram.c: a chained hash table of variables in memory, and its image of `CONFIG_NVRAM_SIZE` bytes in flash. An image is
its header of five words and the bytes after it. The tuples of a chain are a list, the one the bucket points to first.
Whether an allocation succeeds is a parameter: a call of `malloc` by its number within the operation. `writenvram` and `readnvram`
are not part of the tree, so a commit returns the image it hands to the flash; `nvram_header`, which it then looks for, is not
read by the operations here. The table of `hndcrc8` is a parameter.
-/

namespace UBoot

open CString

/-- `CONFIG_NVRAM_SIZE` of include/configs/bcm95301x_svk.h. -/
def CONFIG_NVRAM_SIZE : Nat := 0x10000
/-- `sizeof(struct nvram_header)` -/
def NVRAM_HEADER_SIZE : Nat := 20
/-- `NVRAM_MAGIC` -/
def NVRAM_MAGIC : Nat := 0x48534C46
/-- `NVRAM_VERSION` -/
def NVRAM_VERSION : Nat := 1
/-- `SDRAM_INIT` of include/sbsdram.h. -/
def SDRAM_INIT : Nat := 0x419
/-- `SDRAM_CONFIG` -/
def SDRAM_CONFIG : Nat := 0x0000
/-- `SDRAM_REFRESH` -/
def SDRAM_REFRESH : Nat := 0x8040

structure NvramTuple where
  name : CString
  value : CString
  deriving DecidableEq

structure Nvram where
  hash : Nat → List NvramTuple
  dead : List NvramTuple

structure NvramHeader where
  magic : Nat
  len : Nat
  crcVerInit : Nat
  configRefresh : Nat
  configNcdl : Nat

/-- A header and the bytes after it. -/
structure NvramImage where
  header : NvramHeader
  data : List UInt8

/-- The table before anything was set, and after `nvram_free`. -/
def Nvram.empty : Nvram := ⟨fun _ => [], []⟩

/-! ## The table -/

/-- `ARRAYSIZE(nvram_hash)` -/
def nvramBuckets : Nat := 257

/-- `hash`, in 32 bits. -/
def nvramHashval (s : CString) : Nat := s.bytes.foldl (fun hashval c => (31 * hashval + c.toNat) % 2 ^ 32) 0

def nvramBucket (name : CString) : Nat := nvramHashval name % nvramBuckets

/-- The test for the tuple of a name. -/
def NvramTuple.isOf (name : CString) (t : NvramTuple) : Bool := decide (t.name = name)

def nvramGet (s : Nvram) (name : CString) : Option CString :=
  ((s.hash (nvramBucket name)).find? (·.isOf name)).map (·.value)

/-- `nvram_set`: move an old tuple to the dead table, and add the new one to the hash table. -/
def nvramSet (mallocOk : Bool) (name value : CString) (s : Nvram) : Int × Nvram :=
  let i := nvramBucket name
  if mallocOk then
    (0, { hash := Function.update s.hash i (⟨name, value⟩ :: (s.hash i).eraseP (·.isOf name))
          dead := ((s.hash i).find? (·.isOf name)).toList ++ s.dead })
  else (-12, s)

def nvramUnset (name : CString) (s : Nvram) : Nvram :=
  let i := nvramBucket name
  { hash := Function.update s.hash i ((s.hash i).eraseP (·.isOf name))
    dead := ((s.hash i).find? (·.isOf name)).toList ++ s.dead }

/-! ## Numbers as text -/

/-- A digit as `%X` writes it. -/
def hexDigit (d : Nat) : UInt8 := if d < 10 then UInt8.ofNat (0x30 + d) else UInt8.ofNat (0x41 + (d - 10))

/-- `"0x%04X"` and `"0x%08X"` for a number of at most that many digits. -/
def hexText (width n : Nat) : CString :=
  ofBytes (chZero :: chX :: (List.range width).reverse.map fun i => hexDigit (n / 16 ^ i % 16))

def bcmIsspace (c : UInt8) : Bool := (9 ≤ c && c ≤ 13) || c == 32 || c == 160

/-- The loop of `bcm_strtoul`; `none` for a detected overflow. -/
def bcmStrtoulLoop (base : Nat) (minus : Bool) : List UInt8 → Nat → Nat → Option Nat
  | [], result, _ => some result
  | c :: cp, result, last =>
    match xdigit c with
    | none => some result
    | some value =>
      if value < base then
        if (result * base + value) % 2 ^ 32 < last ∧ !minus then none
        else bcmStrtoulLoop base minus cp ((result * base + value) % 2 ^ 32) ((result * base + value) % 2 ^ 32)
      else some result

/-- `bcm_strtoul` with a base of 0. -/
def bcmStrtoul (s : CString) : Nat :=
  let cp := s.bytes.dropWhile bcmIsspace
  let minus := cp.head? == some 0x2d
  let cp := if cp.head? = some 0x2b ∨ cp.head? = some 0x2d then cp.drop 1 else cp
  let result :=
    if cp.head? = some chZero then
      if cp[1]? = some chX ∨ cp[1]? = some 0x58 then bcmStrtoulLoop 16 minus (cp.drop 2) 0 0
      else bcmStrtoulLoop 8 minus (cp.drop 1) 0 0
    else bcmStrtoulLoop 10 minus cp 0 0
  match result with
  | none => 2 ^ 32 - 1
  | some n => if minus then (2 ^ 32 - n) % 2 ^ 32 else n

/-! ## Rebuilding the table -/

def sdramInitName : CString := ofBytes [0x73, 0x64, 0x72, 0x61, 0x6d, 0x5f, 0x69, 0x6e, 0x69, 0x74]
/-- `"sdram_config"` -/
def sdramConfigName : CString := ofBytes [0x73, 0x64, 0x72, 0x61, 0x6d, 0x5f, 0x63, 0x6f, 0x6e, 0x66, 0x69, 0x67]
/-- `"sdram_refresh"` -/
def sdramRefreshName : CString :=
  ofBytes [0x73, 0x64, 0x72, 0x61, 0x6d, 0x5f, 0x72, 0x65, 0x66, 0x72, 0x65, 0x73, 0x68]
/-- `"sdram_ncdl"` -/
def sdramNcdlName : CString := ofBytes [0x73, 0x64, 0x72, 0x61, 0x6d, 0x5f, 0x6e, 0x63, 0x64, 0x6c]

/-- The loop of `nvram_rehash` from the name at the head of `rest` on, with the number of the next allocation. -/
def rehashLoop (malloc : Nat → Bool) : Nat → Nat → List UInt8 → Nvram → Nat × Nvram
  | 0, n, _, s => (n, s)
  | fuel + 1, n, rest, s =>
    let str := rest.takeWhile (· != 0)
    if str = [] ∨ chEquals ∉ str then (n, s)
    else
      let name := str.takeWhile (· != chEquals)
      let value := str.drop (name.length + 1)
      rehashLoop malloc fuel (n + 1) (rest.drop (str.length + 1)) (nvramSet (malloc n) (ofBytes name) (ofBytes value) s).2

/-- The special SDRAM parameters, as the header has them. -/
def sdramParams (header : NvramHeader) : List NvramTuple :=
  [⟨sdramInitName, hexText 4 ((header.crcVerInit >>> 16) % 2 ^ 16)⟩, ⟨sdramConfigName, hexText 4 (header.configRefresh % 2 ^ 16)⟩,
    ⟨sdramRefreshName, hexText 4 ((header.configRefresh >>> 16) % 2 ^ 16)⟩,
    ⟨sdramNcdlName, hexText 8 header.configNcdl⟩]

/-- Set the parameters that are not set. -/
def setParams (malloc : Nat → Bool) : List NvramTuple → Nat → Nvram → Nvram
  | [], _, s => s
  | t :: ts, n, s =>
    if (nvramGet s t.name).isSome then setParams malloc ts n s
    else setParams malloc ts (n + 1) (nvramSet (malloc n) t.name t.value s).2

/-- The two NULs `nvram_rehash` puts at the end of the image. -/
def endNuls (data : List UInt8) : List UInt8 := data.take (data.length - 2) ++ [0, 0]

/-- `nvram_rehash`: the table parsed from an image, and the image. It returns 0. -/
def nvramRehash (malloc : Nat → Bool) (image : NvramImage) : NvramImage × Nvram :=
  let image := { image with data := endNuls image.data }
  let r := rehashLoop malloc image.data.length 0 image.data Nvram.empty
  (image, setParams malloc (sdramParams image.header) r.1 r.2)

/-! ## Committing -/

/-- `"%s=%s"` of a tuple, with its NUL. -/
def NvramTuple.text (t : NvramTuple) : List UInt8 := t.name.bytes ++ chEquals :: (t.value.bytes ++ [0])

/-- The inner loop that writes out a chain after `data`: it breaks at a tuple that does not fit. -/
def commitChain : List NvramTuple → List UInt8 → List UInt8
  | [], data => data
  | t :: ts, data =>
    if CONFIG_NVRAM_SIZE - 2 < NVRAM_HEADER_SIZE + data.length + (t.name.bytes.length + 1 + t.value.bytes.length + 1) then data
    else commitChain ts (data ++ t.text)

/-- The loop over the chains. -/
def commitTuples (s : Nvram) : List UInt8 :=
  (List.range nvramBuckets).foldl (fun data i => commitChain (s.hash i) data) []

/-- The words of the header before the length and the CRC are set: from the variables if all four are set. -/
def commitHeader (get : CString → Option CString) : NvramHeader :=
  match get sdramInitName, get sdramConfigName, get sdramRefreshName, get sdramNcdlName with
  | some init, some config, some refresh, some ncdl =>
    { magic := NVRAM_MAGIC, len := 0
      crcVerInit := (NVRAM_VERSION <<< 8) ||| ((bcmStrtoul init % 2 ^ 16) <<< 16)
      configRefresh := (bcmStrtoul config % 2 ^ 16) ||| ((bcmStrtoul refresh % 2 ^ 16) <<< 16)
      configNcdl := bcmStrtoul ncdl }
  | _, _, _, _ =>
    { magic := NVRAM_MAGIC, len := 0
      crcVerInit := (NVRAM_VERSION <<< 8) ||| (SDRAM_INIT <<< 16)
      configRefresh := SDRAM_CONFIG ||| (SDRAM_REFRESH <<< 16)
      configNcdl := 0 }

/-- The bytes of a word, the lowest first. -/
def le32 (n : Nat) : List UInt8 := (List.range 4).map fun i => UInt8.ofNat (n / 256 ^ i)

/-- `nvram_calc_crc`: over the last 11 bytes of the header and the data the length covers. -/
def nvramCalcCrc (hndcrc8 : List UInt8 → UInt8 → UInt8) (image : NvramImage) : UInt8 :=
  let words := le32 (image.header.crcVerInit / 2 ^ 8 * 2 ^ 8) ++ le32 image.header.configRefresh ++ le32 image.header.configNcdl
  hndcrc8 (image.data.take (image.header.len - NVRAM_HEADER_SIZE)) (hndcrc8 (words.drop 1) 0xff)

/-- The image `_nvram_commit` generates. -/
def commitImage (hndcrc8 : List UInt8 → UInt8 → UInt8) (s : Nvram) : NvramImage :=
  let data := commitTuples s
  let header := { commitHeader (nvramGet s) with len := (NVRAM_HEADER_SIZE + data.length + 2 + 3) / 4 * 4 }
  let image : NvramImage :=
    ⟨header, data ++ List.replicate (CONFIG_NVRAM_SIZE - NVRAM_HEADER_SIZE - data.length) 0⟩
  { image with header := { header with crcVerInit := header.crcVerInit ||| (nvramCalcCrc hndcrc8 image).toNat } }

/-- `_nvram_commit`: the image, and the table rebuilt from it. It returns 0. -/
def nvramRegenerate (hndcrc8 : List UInt8 → UInt8 → UInt8) (malloc : Nat → Bool) (s : Nvram) : NvramImage × Nvram :=
  nvramRehash malloc (commitImage hndcrc8 s)

/-- `nvram_commit`: what is returned, the image handed to the flash, and the table. -/
def nvramCommit (hndcrc8 : List UInt8 → UInt8 → UInt8) (headerOk : Bool) (malloc : Nat → Bool) (s : Nvram) : Int × Option NvramImage × Nvram :=
  if headerOk then (0, some (nvramRegenerate hndcrc8 malloc s).1, (nvramRegenerate hndcrc8 malloc s).2) else (1, none, s)

/-!
## Finding the NVRAM

`nvram_calc_crc`, `find_nvram`, `_nvram_read`, `_nvram_init` and the parser of common/bcmnvram.c once more, with every read and write
checked: `none` is an access outside the image or its copy. What is mapped in the flash, and what `readnvram` reads, are parameters.
-/

/-- `nvram_calc_crc`: the number of bytes after the header is a difference of 32-bit numbers. -/
def nvramCalcCrcIn (hndcrc8 : List UInt8 → UInt8 → UInt8) (nvh : NvramImage) : Option UInt8 :=
  let tmp := le32 (nvh.header.crcVerInit / 2 ^ 8 * 2 ^ 8) ++ le32 nvh.header.configRefresh ++ le32 nvh.header.configNcdl
  let crc := hndcrc8 (tmp.drop 1) 0xff
  let nbytes := sub32 nvh.header.len NVRAM_HEADER_SIZE
  if nbytes ≤ nvh.data.length then some (hndcrc8 (nvh.data.take nbytes) crc) else none

/-- The CRC test of `find_nvram`. -/
def nvramCrcTest (hndcrc8 : List UInt8 → UInt8 → UInt8) (nvh : NvramImage) : Option Bool :=
  (nvramCalcCrcIn hndcrc8 nvh).map fun crc => crc.toNat = nvh.header.crcVerInit % 2 ^ 8

/-- A place of the partition: the magic number mapped there, and what `readnvram` reads, if it can. -/
structure NvramPlace where
  magic : Nat
  image : Option NvramImage

/-- The loop of `find_nvram` over the places of the partition. -/
def findNvramLoop (hndcrc8 : List UInt8 → UInt8 → UInt8) : List NvramPlace → Option (Option NvramImage)
  | [] => some none
  | place :: places =>
    if place.magic ≠ NVRAM_MAGIC then findNvramLoop hndcrc8 places
    else
      match place.image with
      | none => findNvramLoop hndcrc8 places
      | some nvh => (nvramCrcTest hndcrc8 nvh).bind fun ok => if ok then some (some nvh) else findNvramLoop hndcrc8 places

/-- `find_nvram`: the image, if one is found, and `*isemb`. -/
def findNvram (hndcrc8 : List UInt8 → UInt8 → UInt8) (places : List NvramPlace) (embedded : NvramImage) : Option (Option NvramImage × Bool) :=
  match findNvramLoop hndcrc8 places with
  | none => none
  | some (some nvh) => some (some nvh, false)
  | some none =>
    if embedded.header.magic ≠ NVRAM_MAGIC then some (none, false)
    else (nvramCrcTest hndcrc8 embedded).map fun ok => if ok then (some embedded, true) else (none, false)

/-! ## Reading the image -/

def NvramImage.bytes (image : NvramImage) : List UInt8 :=
  le32 image.header.magic ++ le32 image.header.len ++ le32 image.header.crcVerInit ++ le32 image.header.configRefresh ++
    le32 image.header.configNcdl ++ image.data

def NvramImage.ofBytes (bs : List UInt8) : NvramImage where
  header :=
    { magic := leNat (bs.take 4)
      len := leNat ((bs.drop 4).take 4)
      crcVerInit := leNat ((bs.drop 8).take 4)
      configRefresh := leNat ((bs.drop 12).take 4)
      configNcdl := leNat ((bs.drop 16).take 4) }
  data := bs.drop NVRAM_HEADER_SIZE

/-- Words copied from the index `i` on, as long as `i` is below a bound that many words away. -/
def copyWords (src : List UInt8) : Nat → Nat → List UInt8 → Option (List UInt8)
  | 0, _, dst => some dst
  | words + 1, i, dst =>
    if i + 4 ≤ src.length then (putBytes dst i ((src.drop i).take 4)).bind fun dst => copyWords src words (i + 4) dst else none

/-- `_nvram_read`: what is returned, and the buffer. The second loop ends at the length of the header and at the size of the image. -/
def nvramRead (header : Option NvramImage) (buf : List UInt8) : Option (Int × List UInt8) :=
  match header with
  | none => some (-1, buf)
  | some nvh =>
    (copyWords nvh.bytes (NVRAM_HEADER_SIZE / 4) 0 buf).bind fun buf =>
      (copyWords nvh.bytes ((min nvh.header.len CONFIG_NVRAM_SIZE - NVRAM_HEADER_SIZE + 3) / 4) NVRAM_HEADER_SIZE buf).map fun buf =>
        (0, buf)

/-! ## The parser -/

/-- The loop of `nvram_rehash` from the name at the head of `rest` on. `strchr` reads up to the equals sign or the NUL, `strlen` up to
the NUL, and the list ends where the image does. -/
def rehashLoopIn (malloc : Nat → Bool) : Nat → Nat → List UInt8 → Nvram → Option (Nat × Nvram)
  | 0, n, _, s => some (n, s)
  | fuel + 1, n, rest, s =>
    match rest.head? with
    | none => none
    | some c =>
      if c = 0 then some (n, s)
      else
        match rest.findIdx? (fun b => b == chEquals || b == 0) with
        | none => none
        | some eq =>
          if rest[eq]? ≠ some chEquals then some (n, s)
          else
            let value := rest.drop (eq + 1)
            match value.findIdx? (· == 0) with
            | none => none
            | some len =>
              rehashLoopIn malloc fuel (n + 1) (value.drop (len + 1))
                (nvramSet (malloc n) (ofBytes (rest.take eq)) (ofBytes (value.take len)) s).2

def nvramRehashIn (malloc : Nat → Bool) (header : NvramImage) : Option (NvramImage × Nvram) :=
  match putBytes header.data (CONFIG_NVRAM_SIZE - NVRAM_HEADER_SIZE - 2) [0, 0] with
  | none => none
  | some data =>
    (rehashLoopIn malloc data.length 0 data Nvram.empty).map fun r =>
      ({ header with data }, setParams malloc (sdramParams header.header) r.1 r.2)

/-- `_nvram_init`: what is returned, and the table. The first argument is what is in the memory that is allocated, if it can be. -/
def nvramInitIn (heap : Option (List UInt8)) (malloc : Nat → Bool) (nvramHeader : Option NvramImage) (s : Nvram) : Option (Int × Nvram) :=
  match heap with
  | none => some (-12, s)
  | some header =>
    (nvramRead nvramHeader header).bind fun (ret, header) =>
      if ret = 0 ∧ (NvramImage.ofBytes header).header.magic = NVRAM_MAGIC then
        (nvramRehashIn malloc (NvramImage.ofBytes header)).map fun r => (ret, r.2)
      else some (ret, s)

end UBoot
