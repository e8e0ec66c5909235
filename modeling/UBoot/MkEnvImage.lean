import UBoot.Crc32
import UBoot.Nvram

/-!
# mkenvimage

The reading of standard input in tools/mkenvimage.c, and the conversion from the bytes of the text to the image, with the options that
`main` reads. The allocated memory is the list of its bytes; an access outside it, or outside the file, makes the result `none`. The
positions `fp` and `ep` are taken not to overflow an `int`.
-/

namespace UBoot

def CRC_SIZE : Nat := 4

/-- The options of the command line. -/
structure MkEnvOptions where
  datasize : UInt32
  redundant : Bool
  bigendian : Bool
  padbyte : UInt8

/-- The bytes before the environment: the CRC and possibly the `redundant` byte. -/
def MkEnvOptions.header (o : MkEnvOptions) : Nat := CRC_SIZE + o.redundant.toNat

def MkEnvOptions.envsize (o : MkEnvOptions) : UInt32 := o.datasize - UInt32.ofNat o.header

/-! ## The input -/

/-- `readlen`: the size that the memory for standard input always gets, and what each `read` is asked for. -/
def READLEN : Nat := 4096

/-- The loop of `main` over standard input: `filebuf` and `filesize`. The chunks are what the calls of `read` deliver, which then give 0. -/
def stdinLoop : List (List UInt8) → List UInt8 → Nat → Option (List UInt8 × Nat)
  | [], filebuf, filesize => some (filebuf, filesize)
  | chunk :: chunks, filebuf, filesize =>
    (putBytes filebuf filesize chunk).bind fun filebuf =>
      if chunk.length = READLEN then stdinLoop chunks filebuf (filesize + chunk.length)
      else some (filebuf, filesize + chunk.length)

/-- What `main` has read from standard input, in memory that held `memory`. -/
def readStdin (memory : List UInt8) (chunks : List (List UInt8)) : Option (List UInt8) :=
  (stdinLoop chunks memory 0).map fun (filebuf, filesize) => filebuf.take filesize

/-! ## The image -/

/-- How `main` ends. -/
inductive MkEnvExit where
  | success (image : List UInt8)
  | failure (message : String)
  deriving DecidableEq

/-- The loop that replaces newlines, for the characters from `fp` on: `ep`, and the image. -/
def convertLoop (o : MkEnvOptions) (filebuf : List UInt8) : List UInt8 → Nat → Nat → List UInt8 → Option (Nat × List UInt8)
  | [], _, ep, data => some (ep, data)
  | c :: text, fp, ep, data =>
    if c = chNewline then
      -- newlines at the beginning of the file
      if ep = 0 then convertLoop o filebuf text (fp + 1) ep data
      else
        match filebuf[fp - 1]? with
        | none => none
        | some before =>
          -- an embedded newline takes the place of the backslash
          if before = chBackslash then
            (putByte data (o.header + (ep - 1)) chNewline).bind fun data => convertLoop o filebuf text (fp + 1) (ep - 1 + 1) data
          else
            (putByte data (o.header + ep) 0).bind fun data => convertLoop o filebuf text (fp + 1) (ep + 1) data
    else (putByte data (o.header + ep) c).bind fun data => convertLoop o filebuf text (fp + 1) (ep + 1) data

/-- The final NULs: the image, or `none` within if there is no room for the second. -/
def endOfEnvironment (o : MkEnvOptions) (ep : Nat) (data : List UInt8) : Option (Option (List UInt8)) :=
  match data[o.header + ep - 1]? with
  | none => none
  | some last =>
    if last ≠ 0 then
      (putByte data (o.header + ep) 0).bind fun data =>
        if o.envsize.toNat ≤ ep + 1 then some none else (putByte data (o.header + (ep + 1)) 0).map some
    else (putByte data (o.header + ep) 0).map some

/-- The CRC in the order of the target. -/
def targetendianCrc (o : MkEnvOptions) (crc : UInt32) : List UInt8 :=
  if o.bigendian then (le32 crc.toNat).reverse else le32 crc.toNat

/-- The header is put before the environment. -/
def putHeader (o : MkEnvOptions) (data : List UInt8) : Option (List UInt8) :=
  (putBytes data 0 (targetendianCrc o (crc32 0 (data.drop o.header)))).bind fun data =>
    if o.redundant then putByte data CRC_SIZE 1 else some data

/-- `main` from the allocated memory and the bytes of the file on. -/
def mkenvimage (o : MkEnvOptions) (dataptr filebuf : List UInt8) : Option MkEnvExit :=
  if o.datasize = 0 then some (.failure "Please specify the size of the environment partition.")
  -- `memset`
  else if dataptr.length < o.header + o.envsize.toNat then none
  else
    let data := dataptr.take o.header ++ List.replicate o.envsize.toNat o.padbyte
    let filesize := UInt32.ofNat filebuf.length
    if o.envsize < filesize + 1 then some (.failure "The input file is larger than the environment partition size")
    else
      match convertLoop o filebuf (filebuf.take filesize.toNat) 0 0 data with
      | none => none
      | some (ep, data) =>
        match endOfEnvironment o ep data with
        | none => none
        | some none => some (.failure "The environment file is too large for the target environment storage")
        | some (some data) => (putHeader o data).map .success

end UBoot
