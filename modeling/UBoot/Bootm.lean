import UBoot.CString
import UBoot.Lmb
import UBoot.Lib.Move

/-!
# Booting step by step

common/cmd_bootm.c: `bootm_start` and `do_bootm_subcommand` on the global `images`. What the functions they call find or return
is an input: the image that the arguments name for `bootm_start`, the return values for a subcommand. The logical memory
blocks and the header copy of `images` are left out, no test of these commands reads them. A subcommand records the calls
it makes, with what they are given of `images`.
-/

namespace UBoot

open CString

/-- The configuration the commands depend on: `CONFIG_FIT`, `CONFIG_OF_LIBFDT`, `CONFIG_SYS_BOOT_RAMDISK_HIGH`. -/
structure BootmConfig where
  fit : Bool
  ofLibfdt : Bool
  ramdiskHigh : Bool

/-- `image_info_t` -/
structure ImageInfo where
  start : Nat
  stop : Nat
  imageStart : Nat
  imageLen : Nat
  load : Nat
  comp : Nat
  type : Nat
  os : Nat
  deriving DecidableEq

/-- `bootm_headers_t`. A name is only tested for NULL. -/
structure BootmHeaders where
  legacyHdrValid : Bool
  fitUnameOs : Bool
  os : ImageInfo
  ep : Nat
  rdStart : Nat
  rdEnd : Nat
  ftAddr : Nat
  ftLen : Nat
  initrdStart : Nat
  initrdEnd : Nat
  verify : Bool
  state : Nat
  deriving DecidableEq

/-- `images` at power-up, and after the `memset` of `bootm_start`. -/
def BootmHeaders.zero : BootmHeaders where
  legacyHdrValid := false
  fitUnameOs := false
  os := ⟨0, 0, 0, 0, 0, 0, 0, 0⟩
  ep := 0
  rdStart := 0
  rdEnd := 0
  ftAddr := 0
  ftLen := 0
  initrdStart := 0
  initrdEnd := 0
  verify := false
  state := 0

def IH_OS_LINUX : Nat := 5
/-- `IH_TYPE_KERNEL` -/
def IH_TYPE_KERNEL : Nat := 2
/-- `IH_TYPE_MULTI` -/
def IH_TYPE_MULTI : Nat := 4
/-- `IH_TYPE_KERNEL_NOLOAD` -/
def IH_TYPE_KERNEL_NOLOAD : Nat := 14

/-- A subcommand of `bootm`. -/
inductive BootmSub where
  | start
  | loados
  | ramdisk
  | fdt
  | cmdline
  | bdt
  | prep
  | go
  deriving DecidableEq

/-- The `BOOTM_STATE_*` bit of a subcommand. -/
def BootmSub.state : BootmSub → Nat
  | .start => 0x01
  | .loados => 0x02
  | .ramdisk => 0x04
  | .fdt => 0x08
  | .cmdline => 0x10
  | .bdt => 0x20
  | .prep => 0x40
  | .go => 0x80

/-! ## bootm start -/

/-- What `genimg_get_format` finds. -/
inductive ImageFormat where
  | legacy
  | fit
  | invalid
  deriving DecidableEq

/-- A `fit_image_get_*` call: what it returns, and what it leaves in the field it is given. -/
structure FitGet where
  ret : Int
  value : Nat

/-- What the functions that `bootm_start` calls find. -/
structure BootmSource where
  verify : Bool
  -- boot_get_kernel
  osHdr : Nat
  imageStart : Nat
  imageLen : Nat
  legacyHdrValid : Bool
  fitUnameOs : Bool
  format : ImageFormat
  -- the legacy header
  legacyType : Nat
  legacyComp : Nat
  legacyOs : Nat
  legacyEnd : Nat
  legacyLoad : Nat
  legacyEp : Nat
  -- the FIT image
  fitType : FitGet
  fitComp : FitGet
  fitOs : FitGet
  fitEnd : Nat
  fitLoad : FitGet
  fitEntry : FitGet
  -- boot_get_ramdisk and boot_get_fdt
  ramdisk : Int
  rdStart : Nat
  rdEnd : Nat
  fdt : Int
  ftAddr : Nat
  ftLen : Nat

/-- The parameters of a FIT image, up to the first that cannot be read. -/
def fitParams (src : BootmSource) (images : BootmHeaders) : Bool × BootmHeaders :=
  let images := { images with os.type := src.fitType.value }
  if src.fitType.ret ≠ 0 then (false, images)
  else
    let images := { images with os.comp := src.fitComp.value }
    if src.fitComp.ret ≠ 0 then (false, images)
    else
      let images := { images with os.os := src.fitOs.value }
      if src.fitOs.ret ≠ 0 then (false, images)
      else
        let images := { images with os.stop := src.fitEnd, os.load := src.fitLoad.value }
        (src.fitLoad.ret == 0, images)

/-- Get the image parameters. -/
def imageParams (cfg : BootmConfig) (src : BootmSource) (images : BootmHeaders) : Bool × BootmHeaders :=
  match src.format with
  | .legacy =>
    (true, { images with os := { images.os with type := src.legacyType, comp := src.legacyComp, os := src.legacyOs,
                                                stop := src.legacyEnd, load := src.legacyLoad } })
  | .fit => if cfg.fit then fitParams src images else (false, images)
  | .invalid => (false, images)

/-- Find the kernel entry point. -/
def entryPoint (cfg : BootmConfig) (src : BootmSource) (images : BootmHeaders) : Bool × BootmHeaders :=
  if images.legacyHdrValid then (true, { images with ep := src.legacyEp })
  else if cfg.fit && images.fitUnameOs then (src.fitEntry.ret == 0, { images with ep := src.fitEntry.value })
  else (false, images)

/-- Find the ramdisk and the device tree of a Linux image. -/
def linuxParts (cfg : BootmConfig) (src : BootmSource) (images : BootmHeaders) : Bool × BootmHeaders :=
  if images.os.type ∈ [IH_TYPE_KERNEL, IH_TYPE_KERNEL_NOLOAD, IH_TYPE_MULTI] ∧ images.os.os = IH_OS_LINUX then
    let images := { images with rdStart := src.rdStart, rdEnd := src.rdEnd }
    if src.ramdisk ≠ 0 then (false, images)
    else if cfg.ofLibfdt then (src.fdt == 0, { images with ftAddr := src.ftAddr, ftLen := src.ftLen })
    else (true, images)
  else (true, images)

/-- `bootm_start`: what is returned, and `images` over which nothing of the old one is left. -/
def bootmStart (cfg : BootmConfig) (src : BootmSource) : Int × BootmHeaders :=
  let images := { BootmHeaders.zero with
    verify := src.verify, legacyHdrValid := src.legacyHdrValid, fitUnameOs := src.fitUnameOs
    os.imageStart := src.imageStart, os.imageLen := src.imageLen }
  if src.imageLen = 0 then (1, images)
  else
    match imageParams cfg src images with
    | (false, images) => (1, images)
    | (true, images) =>
      match entryPoint cfg src images with
      | (false, images) => (1, images)
      | (true, images) =>
        let images :=
          if images.os.type = IH_TYPE_KERNEL_NOLOAD then
            { images with os.load := images.os.imageStart, ep := add32 images.ep images.os.imageStart }
          else images
        match linuxParts cfg src images with
        | (false, images) => (1, images)
        | (true, images) => (0, { images with os.start := src.osHdr, state := BootmSub.start.state })

/-! ## The subcommands -/

def cmdBootmSub (cfg : BootmConfig) : List (CString × BootmSub) :=
  [(ofBytes [0x73, 0x74, 0x61, 0x72, 0x74], .start), (ofBytes [0x6c, 0x6f, 0x61, 0x64, 0x6f, 0x73], .loados)] ++
  (if cfg.ramdiskHigh then [(ofBytes [0x72, 0x61, 0x6d, 0x64, 0x69, 0x73, 0x6b], .ramdisk)] else []) ++
  (if cfg.ofLibfdt then [(ofBytes [0x66, 0x64, 0x74], .fdt)] else []) ++
  [(ofBytes [0x63, 0x6d, 0x64, 0x6c, 0x69, 0x6e, 0x65], .cmdline), (ofBytes [0x62, 0x64, 0x74], .bdt),
    (ofBytes [0x70, 0x72, 0x65, 0x70], .prep), (ofBytes [0x67, 0x6f], .go)]

/-- The loop of `find_cmd_tbl` over a table, with the number of abbreviations found and the last of them. -/
def findCmdLoop {α : Type} (cmd : List UInt8) : List (CString × α) → Nat → Option α → Option α
  | [], nFound, cmdtpTemp => if nFound = 1 then cmdtpTemp else none
  | (name, c) :: table, nFound, cmdtpTemp =>
    if cmd.isPrefixOf name.bytes then
      if cmd.length = name.bytes.length then some c else findCmdLoop cmd table (nFound + 1) (some c)
    else findCmdLoop cmd table nFound cmdtpTemp

/-- `find_cmd_tbl` of common/command.c: the name is compared until its first dot. -/
def findCmdTbl {α : Type} (cmd : CString) (table : List (CString × α)) : Option α :=
  findCmdLoop (cmd.bytes.takeWhile (· != 0x2e)) table 0 none

/-- What the functions that a subcommand calls return. The state is not among what a boot function may change. -/
structure BootmReturns where
  loadOs : Int
  loadEnd : Nat
  ramdiskHigh : Int
  initrdStart : Nat
  initrdEnd : Nat
  relocateFdt : Int
  ftAddr : Nat
  ftLen : Nat
  bootFn : Int
  bootFnImages : BootmHeaders → BootmHeaders

/-- A call that a subcommand makes, with what it hands over of `images`. -/
inductive BootmCall where
  | loadOs (os : ImageInfo)
  | lmbReserve (base size : Nat)
  | ramdiskHigh (rdStart rdLen : Nat)
  | setenvInitrd (initrdStart initrdEnd : Nat)
  | fdtAddMemRsvRegions (ftAddr : Nat)
  | relocateFdt (ftAddr ftLen : Nat)
  | archPrebootOs
  | bootFn (os : Nat) (flag : Nat) (images : BootmHeaders)

/-- What `do_bootm_subcommand` returns, and what it did. -/
structure BootmResult where
  ret : Int
  images : BootmHeaders
  calls : List BootmCall

/-- A boot function is called with the bit of the subcommand. -/
def callBootFn (sub : BootmSub) (rets : BootmReturns) (images : BootmHeaders) : BootmHeaders × List BootmCall :=
  ({ rets.bootFnImages images with state := images.state }, [.bootFn images.os.os sub.state images])

/-- The switch of `do_bootm_subcommand`. -/
def runSub (rets : BootmReturns) (images : BootmHeaders) : BootmSub → BootmResult
  | .start => ⟨0, images, []⟩
  | .loados =>
    ⟨rets.loadOs, images, .loadOs images.os ::
      if rets.loadOs ≠ 0 then [] else [.lmbReserve images.os.load (sub32 rets.loadEnd images.os.load)]⟩
  | .ramdisk =>
    ⟨rets.ramdiskHigh, { images with initrdStart := rets.initrdStart, initrdEnd := rets.initrdEnd },
      .ramdiskHigh images.rdStart (sub32 images.rdEnd images.rdStart) ::
        if rets.ramdiskHigh ≠ 0 then [] else [.setenvInitrd rets.initrdStart rets.initrdEnd]⟩
  | .fdt =>
    ⟨rets.relocateFdt, { images with ftAddr := rets.ftAddr, ftLen := rets.ftLen },
      [.fdtAddMemRsvRegions images.ftAddr, .relocateFdt images.ftAddr images.ftLen]⟩
  | .go =>
    let r := callBootFn .go rets images
    ⟨0, r.1, .archPrebootOs :: r.2⟩
  | sub =>
    let r := callBootFn sub rets images
    ⟨rets.bootFn, r.1, r.2⟩

/-- `do_bootm_subcommand`. It is `none` where it returns `CMD_RET_USAGE` itself, having done nothing. -/
def doBootmSubcommand (cfg : BootmConfig) (argv1 : CString) (src : BootmSource) (rets : BootmReturns) (images : BootmHeaders) :
    Option BootmResult :=
  match findCmdTbl argv1 (cmdBootmSub cfg) with
  | none => none
  | some .start =>
    -- start resets the state machine
    let r := bootmStart cfg src
    some ⟨r.1, r.2, []⟩
  | some sub =>
    if images.state ≥ sub.state then none
    else some (runSub rets { images with state := images.state ||| sub.state } sub)

/-!
## Multi-file images

tools/mkimage.c writes the data of an image of type multi: a table of the sizes of its files, ended by a zero, and then the
files, each but the last filled up to a multiple of 4 bytes. common/image.c finds the files in an image in memory. On the host
a write succeeds, and a file is its bytes under its name. On the target an `unsigned long` has 32 bits.
-/

/-- `sizeof(image_header_t)`, also the `header_size` of the default image type. -/
def IMAGE_HEADER_SIZE : Nat := 64

/-- The bytes of a 32-bit number in the byte order of an image. -/
def cpuToUimage (n : Nat) : List UInt8 :=
  [UInt8.ofNat (n / 2 ^ 24), UInt8.ofNat (n / 2 ^ 16), UInt8.ofNat (n / 2 ^ 8), UInt8.ofNat n]

/-! ## mkimage -/

/-- The name at `file` up to a separator, and what follows the separator if there is one. -/
def splitFile (file : List UInt8) : List UInt8 × Option (List UInt8) :=
  (file.takeWhile (· != chColon), (file.dropWhile (· != chColon)).tail?)

/-- The loop of `main` that writes the table of sizes. `none` is an exit because of a file that is not there. -/
def writeSizes (fs : List UInt8 → Option (List UInt8)) : Nat → Option (List UInt8) → Option (List UInt8)
  | _, none => some (cpuToUimage 0)
  | 0, some _ => none
  | fuel + 1, some file => do
    let bytes ← fs (splitFile file).1
    let rest ← writeSizes fs fuel (splitFile file).2
    some (cpuToUimage bytes.length ++ rest)

/-- `copy_file`. The size is an `int`; a negative one makes the write fail. With `-x` the file has to begin with the space
for the header. -/
def copyFile (xflag : Bool) (fs : List UInt8 → Option (List UInt8)) (datafile : List UInt8) (pad : Bool) :
    Option (List UInt8) := do
  let bytes ← fs datafile
  if xflag ∧ (bytes.length < IMAGE_HEADER_SIZE ∨ (bytes.take IMAGE_HEADER_SIZE).any (· != 0xff)) then none
  else
    let offset := if xflag then IMAGE_HEADER_SIZE else 0
    let size := (bytes.length - offset) % 2 ^ 32
    if 2 ^ 31 ≤ size then none
    else
      let tail := size % 4
      some ((bytes.drop offset).take size ++ if pad ∧ tail ≠ 0 then List.replicate (4 - tail) 0 else [])

/-- The loop of `main` that copies the files. -/
def copyFiles (xflag : Bool) (fs : List UInt8 → Option (List UInt8)) : Nat → List UInt8 → Option (List UInt8)
  | 0, _ => none
  | fuel + 1, file =>
    match (splitFile file).2 with
    | some next => do
      let bytes ← copyFile xflag fs (splitFile file).1 true
      let rest ← copyFiles xflag fs fuel next
      some (bytes ++ rest)
    | none => copyFile xflag fs (splitFile file).1 false

/-- What `main` writes after the header for an image of type multi. -/
def writeMulti (xflag : Bool) (fs : List UInt8 → Option (List UInt8)) (datafile : List UInt8) : Option (List UInt8) := do
  let sizes ← writeSizes fs (datafile.length + 1) (some datafile)
  let files ← copyFiles xflag fs (datafile.length + 1) datafile
  some (sizes ++ files)

/-! ## The image in memory -/

def imageGetData (hdr : Nat) : Nat := add32 hdr IMAGE_HEADER_SIZE

/-- `uimage_to_cpu` of the word at an address. -/
def uimageToCpu (mem : Nat → UInt8) (a : Nat) : Nat :=
  (((mem a).toNat * 256 + (mem (a + 1)).toNat) * 256 + (mem (a + 2)).toNat) * 256 + (mem (a + 3)).toNat

/-- `uimage_to_cpu(size[i])`. It is zero exactly if the word is. -/
def multiSize (mem : Nat → UInt8) (hdr i : Nat) : Nat := uimageToCpu mem (add32 (imageGetData hdr) (4 * i))

/-- The loop of `image_multi_count` from slot `i` on. -/
def multiCountLoop (mem : Nat → UInt8) (hdr : Nat) : Nat → Nat → Option Nat
  | 0, _ => none
  | fuel + 1, i => if multiSize mem hdr i = 0 then some i else multiCountLoop mem hdr fuel (i + 1)

/-- `image_multi_count`, reading at most `fuel` slots. -/
def imageMultiCount (mem : Nat → UInt8) (fuel hdr : Nat) : Option Nat := multiCountLoop mem hdr fuel 0

/-- Rounding up to 4 bytes. -/
def roundUp4 (n : Nat) : Nat := add32 n 3 / 4 * 4

/-- `image_multi_getimg`: the address and the length of a file. -/
def imageMultiGetimg (mem : Nat → UInt8) (fuel hdr idx : Nat) : Option (Nat × Nat) := do
  let count ← imageMultiCount mem fuel hdr
  let imgData := add32 (imageGetData hdr) ((count + 1) * 4)
  if idx < count then
    let offset := (List.range idx).foldl (fun offset i => add32 offset (roundUp4 (multiSize mem hdr i))) 0
    some (add32 imgData offset, multiSize mem hdr idx)
  else some (0, 0)

/-!
## Loading an operating system

`memmove` of lib/string.c, `memmove_wd` of common/image.c and `bootm_load_os` of common/cmd_bootm.c on the memory of the board. The
configuration chooses the variant of `memmove_wd` (a watchdog or none) and the decompressors that are built in. What is printed,
the boot stages and the caches are left out.
-/

namespace Ram

/-- `memmove`: towards lower addresses it starts with the first byte, else with the last one. -/
def memmove (mem : Nat → UInt8) (dest src count : Nat) : Nat → UInt8 :=
  if src = dest then mem
  else if dest ≤ src then Lib.moveUp mem dest src count
  else Lib.moveDown mem dest src count

/-- The loop of `memmove_wd` with a watchdog, for as many rounds as its first argument says. -/
def memmoveWdLoop (chunksz : Nat) : Nat → (Nat → UInt8) → Nat → Nat → Nat → Nat → UInt8
  | 0, mem, _, _, _ => mem
  | rounds + 1, mem, dst, src, len =>
    if len = 0 then mem
    else
      let tail := if len > chunksz then chunksz else len
      memmoveWdLoop chunksz rounds (memmove mem dst src tail) (dst + tail) (src + tail) (len - tail)

/-- `memmove_wd`. Each round of the loop takes a byte at least. -/
def memmoveWd (watchdog : Bool) (mem : Nat → UInt8) (dst src len chunksz : Nat) : Nat → UInt8 :=
  if dst = src then mem
  else if watchdog then memmoveWdLoop chunksz len mem dst src len
  else memmove mem dst src len

/-- `memmove` moves its bytes as if at once. -/
theorem memmove_eq (mem : Nat → UInt8) (dest src count : Nat) : memmove mem dest src count = Lib.move mem dest src count := by
  unfold memmove
  split
  next h =>
    subst h
    exact (Lib.move_self mem src count).symm
  next =>
    split
    next h => exact Lib.moveUp_eq h mem count
    next h => exact Lib.moveDown_eq (Nat.le_of_not_le h) mem count

theorem memmoveWdLoop_eq (chunksz rounds : Nat) (mem : Nat → UInt8) (dst src len : Nat) :
    memmoveWdLoop chunksz rounds mem dst src len = Lib.moveChunks chunksz rounds mem dst src len := by
  induction rounds generalizing mem dst src len with
  | zero => rfl
  | succ rounds ih => simp only [memmoveWdLoop, Lib.moveChunks, gt_iff_lt, memmove_eq, ih]

end Ram

/-! ## bootm_load_os -/

def IH_COMP_NONE : Nat := 0
/-- `CHUNKSZ` -/
def CHUNKSZ : Nat := 64 * 1024
/-- `BOOTM_ERR_RESET` -/
def BOOTM_ERR_RESET : Int := -1
/-- `BOOTM_ERR_OVERLAP` -/
def BOOTM_ERR_OVERLAP : Int := -2
/-- `BOOTM_ERR_UNIMPLEMENTED` -/
def BOOTM_ERR_UNIMPLEMENTED : Int := -3

/-- A decompressor: the memory after it ran from `image_start` to `load`, and the bytes it has written, or `none` when it failed. -/
def Codec : Type := (mem : Nat → UInt8) → (load imageStart imageLen : Nat) → (Nat → UInt8) × Option Nat

/-- What `bootm_load_os` returns, and what it leaves in the memory and in `*load_end`. -/
structure OsLoaded where
  ret : Int
  mem : Nat → UInt8
  loadEnd : Nat

/-- `bootm_load_os`. A compression without a decompressor is the default case of the switch. -/
def bootmLoadOs (watchdog : Bool) (codecs : Nat → Option Codec) (mem : Nat → UInt8) (os : ImageInfo) (loadEnd : Nat) : OsLoaded :=
  -- the test that the switch is followed by
  let finish (noOverlap : Bool) (mem : Nat → UInt8) (loadEnd : Nat) : OsLoaded :=
    if ¬noOverlap ∧ os.load < os.stop ∧ loadEnd > os.start then ⟨BOOTM_ERR_OVERLAP, mem, loadEnd⟩ else ⟨0, mem, loadEnd⟩
  if os.comp = IH_COMP_NONE then
    if os.load = os.start ∨ os.load = os.imageStart then finish true mem (add32 os.load os.imageLen)
    else finish false (Ram.memmoveWd watchdog mem os.load os.imageStart os.imageLen CHUNKSZ) (add32 os.load os.imageLen)
  else
    match codecs os.comp with
    | none => ⟨BOOTM_ERR_UNIMPLEMENTED, mem, loadEnd⟩
    | some codec =>
      match codec mem os.load os.imageStart os.imageLen with
      | (mem, none) => ⟨BOOTM_ERR_RESET, mem, loadEnd⟩
      | (mem, some len) => finish false mem (add32 os.load len)

end UBoot
