import UBoot.Fdt
import UBoot.Crc32

/-!
# The hashes of a FIT image

`fit_set_hashes` and `fit_all_image_check_hashes` of common/image.c with what they call. The loops go over the subnodes of a node with
`fdt_next_node` and a depth of their own; they differ in what they do with a subnode of the first level, and `subnodeWalk` takes that
as its parameter. An image's data lie in front of its subnodes, so the pointer `data` stays good while the subnodes get their values. The
bytes behind a property begin with a zero, be it padding or the next tag, so a string ends with its property.
-/

namespace UBoot

/-- `sha1_csum_wd` and `md5_wd`: what they put in the value. -/
structure HashFns where
  sha1 : List UInt8 → Vector UInt8 20
  md5 : List UInt8 → Vector UInt8 16

def algoCrc32 : List UInt8 := [0x63, 0x72, 0x63, 0x33, 0x32]
/-- `"sha1"` -/
def algoSha1 : List UInt8 := [0x73, 0x68, 0x61, 0x31]
/-- `"md5"` -/
def algoMd5 : List UInt8 := [0x6d, 0x64, 0x35]

def FIT_HASH_NODENAME : List UInt8 := [0x68, 0x61, 0x73, 0x68]
/-- The name in `FIT_IMAGES_PATH` -/
def FIT_IMAGES_NAME : List UInt8 := [0x69, 0x6d, 0x61, 0x67, 0x65, 0x73]
/-- `FIT_DATA_PROP` -/
def FIT_DATA_PROP : CString := CString.ofBytes [0x64, 0x61, 0x74, 0x61]
/-- `FIT_ALGO_PROP` -/
def FIT_ALGO_PROP : CString := CString.ofBytes [0x61, 0x6c, 0x67, 0x6f]
/-- `FIT_VALUE_PROP` -/
def FIT_VALUE_PROP : CString := CString.ofBytes [0x76, 0x61, 0x6c, 0x75, 0x65]

/-- The bytes of a number, the most significant first. -/
def uint32Be (x : UInt32) : List UInt8 := [(x >>> 24).toUInt8, (x >>> 16).toUInt8, (x >>> 8).toUInt8, x.toUInt8]

def calculateHash (h : HashFns) (data : List UInt8) (algo : CString) : Option (List UInt8) :=
  if algo.bytes = algoCrc32 then some (uint32Be (crc32 0 data))
  else if algo.bytes = algoSha1 then some (h.sha1 data).toList
  else if algo.bytes = algoMd5 then some (h.md5 data).toList
  else none

/-- The loop over the subnodes of a node: `body` is run at each subnode of the first level and its result returned if it is not 0. -/
def subnodeWalk (body : Fdt → Nat → Option (Int × Fdt)) : Nat → Fdt → Option Nat × Int → Option (Int × Fdt)
  | 0, _, _ => none
  | _ + 1, fit, (none, _) => some (0, fit)
  | fuel + 1, fit, (some noffset, ndepth) =>
    if 0 < ndepth then
      if ndepth = 1 then
        match body fit noffset with
        | none => none
        | some (ret, fit) => if ret ≠ 0 then some (ret, fit) else subnodeWalk body fuel fit (fdtNextNode fit noffset ndepth)
      else subnodeWalk body fuel fit (fdtNextNode fit noffset ndepth)
    else some (0, fit)

/-- The loop from the node at an offset. -/
def forSubnodes (body : Fdt → Nat → Option (Int × Fdt)) (fuel : Nat) (fit : Fdt) (noffset : Nat) : Option (Int × Fdt) :=
  subnodeWalk body fuel fit (fdtNextNode fit noffset 0)

/-- Whether a subnode is a hash node, by its name. -/
def isHashNode (name : Option CString) : Bool := name.any fun name => FIT_HASH_NODENAME.isPrefixOf name.bytes

def fitImageGetData (fit : Fdt) (noffset : Nat) : Option (List UInt8) := fdtGetprop fit noffset FIT_DATA_PROP

def fitImageHashGetAlgo (fit : Fdt) (noffset : Nat) : Option CString := (fdtGetprop fit noffset FIT_ALGO_PROP).map CString.ofBytes

def fitImageHashGetValue (fit : Fdt) (noffset : Nat) : Option (List UInt8) := fdtGetprop fit noffset FIT_VALUE_PROP

/-! ## mkimage -/

/-- What `fit_image_set_hashes` does at a subnode. -/
def setHashNode (h : HashFns) (room : FdtRoom) (data : List UInt8) (fit : Fdt) (noffset : Nat) : Int × Fdt :=
  if !isHashNode (fdtGetName fit noffset) then (0, fit)
  else
    match fitImageHashGetAlgo fit noffset with
    | none => (-1, fit)
    | some algo =>
      match calculateHash h data algo with
      | none => (-1, fit)
      | some value =>
        match fdtSetprop room fit noffset FIT_VALUE_PROP value with
        | none => (-1, fit)
        | some fit => (0, fit)

def fitImageSetHashes (h : HashFns) (room : FdtRoom) (fuel : Nat) (fit : Fdt) (imageNoffset : Nat) : Option (Int × Fdt) :=
  match fitImageGetData fit imageNoffset with
  | none => some (-1, fit)
  | some data => forSubnodes (fun fit noffset => some (setHashNode h room data fit noffset)) fuel fit imageNoffset

/-- `fit_set_hashes`; a missing `/images` is an error code of libfdt, here `-FDT_ERR_NOTFOUND`. -/
def fitSetHashes (h : HashFns) (room : FdtRoom) (fuel : Nat) (fit : Fdt) : Option (Int × Fdt) :=
  match fdtPathOffset fuel fit FIT_IMAGES_NAME with
  | none => none
  | some none => some (-1, fit)
  | some (some imagesNoffset) => forSubnodes (fitImageSetHashes h room fuel) fuel fit imagesNoffset

/-! ## bootm -/

/-- What `fit_image_check_hashes` does at a subnode: 1 is the jump to its error exit. -/
def checkHashNode (h : HashFns) (data : List UInt8) (fit : Fdt) (noffset : Nat) : Int :=
  if !isHashNode (fdtGetName fit noffset) then 0
  else
    match fitImageHashGetAlgo fit noffset with
    | none => 1
    | some algo =>
      match fitImageHashGetValue fit noffset with
      | none => 1
      | some fitValue =>
        match calculateHash h data algo with
        | none => 1
        | some value => if value.length ≠ fitValue.length then 1 else if value ≠ fitValue then 1 else 0

def fitImageCheckHashes (h : HashFns) (fuel : Nat) (fit : Fdt) (imageNoffset : Nat) : Option Int :=
  match fitImageGetData fit imageNoffset with
  | none => some 0
  | some data =>
    match forSubnodes (fun fit noffset => some (checkHashNode h data fit noffset, fit)) fuel fit imageNoffset with
    | none => none
    | some (ret, _) => some (if ret = 0 then 1 else 0)

def fitAllImageCheckHashes (h : HashFns) (fuel : Nat) (fit : Fdt) : Option Int :=
  match fdtPathOffset fuel fit FIT_IMAGES_NAME with
  | none => none
  | some none => some 0
  | some (some imagesNoffset) =>
    let body := fun fit noffset => (fitImageCheckHashes h fuel fit noffset).map fun ok => (if ok = 0 then 1 else 0, fit)
    match forSubnodes body fuel fit imagesNoffset with
    | none => none
    | some (ret, _) => some (if ret = 0 then 1 else 0)

end UBoot
