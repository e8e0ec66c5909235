import UBoot.Lib.Memory
import UBoot.Word

/-!
# Reading a FAT file

`get_contents` of fs/fat/fat.c with what it calls. The partition is a function from byte addresses to bytes, and every read of sectors
succeeds. Memory is a function as well and a buffer an address in it; the FAT buffer and `get_contents_vfatname_block` are apart from
it. A `long` has 32 bits, so the cast of a size to `int` and back is no change.
-/

namespace UBoot

inductive FatSize where
  | fat12 | fat16 | fat32
  deriving DecidableEq

/-- `fsdata` without the FAT buffer -/
structure FsData where
  fatsize : FatSize
  /-- Sectors of a FAT. -/
  fatlength : Nat
  /-- The first sector of the FAT. -/
  fatSect : Nat
  rootdirSect : Nat
  sectSize : Nat
  /-- Sectors of a cluster. -/
  clustSize : Nat
  /-- The sector of a cluster 0, which may be negative. -/
  dataBegin : Int

/-- The FAT buffer: `fatbufnum`, where -1 is `2 ^ 32 - 1`, and `fatbuf`. -/
structure FatBuf where
  num : Nat
  buf : Nat → UInt8

/-- The fields of a `dir_entry` that the reader uses. -/
structure DirEntry where
  starthi : UInt16
  start : UInt16
  size : UInt32

def FATBUFBLOCKS : Nat := 6
/-- `MAX_CLUSTSIZE` -/
def MAX_CLUSTSIZE : Nat := 65536
/-- `ARCH_DMA_MINALIGN` -/
def ARCH_DMA_MINALIGN : Nat := 64

/-- `disk_read`: the bytes of sectors. -/
def diskRead (disk : Nat → UInt8) (fs : FsData) (block nrBlocks : Nat) : List UInt8 :=
  (List.range (nrBlocks * fs.sectSize)).map fun i => disk (block * fs.sectSize + i)

/-- `FAT2CPU16` of an array of 16-bit numbers -/
def fat2cpu16 (buf : Nat → UInt8) (i : Nat) : Nat := (buf (2 * i)).toNat + 256 * (buf (2 * i + 1)).toNat

/-- `FAT2CPU32` of an array of 32-bit numbers -/
def fat2cpu32 (buf : Nat → UInt8) (i : Nat) : Nat :=
  (buf (4 * i)).toNat + 256 * (buf (4 * i + 1)).toNat + 65536 * (buf (4 * i + 2)).toNat + 16777216 * (buf (4 * i + 3)).toNat

def checkClust (x : Nat) (fatsize : FatSize) : Bool := x ≤ 1 ∨ (if fatsize ≠ .fat32 then 0xfff0 else 0xffffff0) ≤ x

namespace FsData

variable (fs : FsData)

def fatBufSize : Nat := fs.sectSize * FATBUFBLOCKS

/-- `FAT12BUFSIZE`, `FAT16BUFSIZE` and `FAT32BUFSIZE` -/
def bufEntries : Nat :=
  match fs.fatsize with
  | .fat12 => fs.fatBufSize * 2 / 3
  | .fat16 => fs.fatBufSize / 2
  | .fat32 => fs.fatBufSize / 4

def bytesPerClust : Nat := fs.clustSize * fs.sectSize

def start (dent : DirEntry) : Nat := dent.start.toNat + if fs.fatsize ≠ .fat32 then 0 else dent.starthi.toNat * 65536

/-- The entry at an index of the FAT buffer. -/
def bufEntry (buf : Nat → UInt8) (offset : Nat) : Nat :=
  match fs.fatsize with
  | .fat32 => fat2cpu32 buf offset
  | .fat16 => fat2cpu16 buf offset
  | .fat12 =>
    let off16 := offset * 3 / 4
    match offset % 4 with
    | 0 => fat2cpu16 buf off16 &&& 0xfff
    | 1 => (fat2cpu16 buf (off16 + 1) &&& 0x00ff) <<< 4 ||| (fat2cpu16 buf off16 &&& 0xf000) >>> 12
    | 2 => (fat2cpu16 buf (off16 + 1) &&& 0x000f) <<< 8 ||| (fat2cpu16 buf off16 &&& 0xff00) >>> 8
    | _ => (fat2cpu16 buf off16 &&& 0xfff0) >>> 4

/-- The first sector of a cluster, or of the root directory. -/
def startsect (clustnum : Nat) : Nat := if 0 < clustnum then ((fs.dataBegin + clustnum * fs.clustSize) % 2 ^ 32).toNat else fs.rootdirSect

end FsData

/-- The load of the FAT buffer in `get_fatent`. -/
def loadFatBuf (disk : Nat → UInt8) (fs : FsData) (fb : FatBuf) (bufnum : Nat) : FatBuf :=
  let startblock := bufnum * FATBUFBLOCKS
  let getsize := if fs.fatlength < startblock + FATBUFBLOCKS then sub32 fs.fatlength startblock else FATBUFBLOCKS
  ⟨bufnum, Lib.store fb.buf 0 (diskRead disk fs (startblock + fs.fatSect) getsize)⟩

def getFatent (disk : Nat → UInt8) (fs : FsData) (fb : FatBuf) (entry : Nat) : Nat × FatBuf :=
  let bufnum := entry / fs.bufEntries
  let offset := entry - bufnum * fs.bufEntries
  let fb := if bufnum ≠ fb.num then loadFatBuf disk fs fb bufnum else fb
  (fs.bufEntry fb.buf offset, fb)

/-! ## Clusters -/

/-- Where `get_cluster` is: the next sector, the place in memory, the size that is left and the memory. -/
structure ClusterRead where
  startsect : Nat
  buffer : Nat
  size : Nat
  mem : Nat → UInt8

/-- The loop of `get_cluster` for a misaligned buffer, sector by sector. -/
def getClusterLoop (disk : Nat → UInt8) (fs : FsData) : Nat → ClusterRead → ClusterRead
  | 0, st => st
  | fuel + 1, st =>
    if fs.sectSize ≤ st.size then
      getClusterLoop disk fs fuel
        ⟨st.startsect + 1, st.buffer + fs.sectSize, st.size - fs.sectSize, Lib.store st.mem st.buffer (diskRead disk fs st.startsect 1)⟩
    else st

/-- `get_cluster`: the memory after it. -/
def getCluster (disk : Nat → UInt8) (fs : FsData) (clustnum buffer size : Nat) (mem : Nat → UInt8) : Nat → UInt8 :=
  let startsect := fs.startsect clustnum
  let st :=
    if buffer % ARCH_DMA_MINALIGN ≠ 0 then getClusterLoop disk fs size ⟨startsect, buffer, size, mem⟩
    else
      let idx := size / fs.sectSize
      ⟨startsect + idx, buffer + idx * fs.sectSize, size - idx * fs.sectSize, Lib.store mem buffer (diskRead disk fs startsect idx)⟩
  if st.size ≠ 0 then Lib.store st.mem st.buffer ((diskRead disk fs st.startsect 1).take st.size) else st.mem

/-! ## get_contents -/

/-- What is left of `get_contents` at some point: the value it returns, the memory and the FAT buffer. -/
abbrev Contents := Int × (Nat → UInt8) × FatBuf

/-- The loop that goes to the cluster at `pos`: the cluster and `actsize`, or nothing at an invalid FAT entry. -/
def seekLoop (disk : Nat → UInt8) (fs : FsData) (pos : Nat) : Nat → FatBuf → Nat → Nat → Option (Option (Nat × Nat) × FatBuf)
  | 0, _, _, _ => none
  | fuel + 1, fb, curclust, actsize =>
    if actsize ≤ pos then
      let (curclust, fb) := getFatent disk fs fb curclust
      if checkClust curclust fs.fatsize then some (none, fb)
      else seekLoop disk fs pos fuel fb curclust ((actsize + fs.bytesPerClust) % 2 ^ 32)
    else some (some (curclust, actsize), fb)

/-- How the search for consecutive clusters ends: all of the file, a run with its last cluster and its size, or an invalid entry. -/
inductive RunEnd where
  | remaining
  | getit (endclust actsize : Nat)
  | invalid

/-- The search for consecutive clusters. -/
def runLoop (disk : Nat → UInt8) (fs : FsData) (filesize : Nat) : Nat → FatBuf → Nat → Nat → Option (RunEnd × FatBuf)
  | 0, _, _, _ => none
  | fuel + 1, fb, endclust, actsize =>
    if actsize < filesize then
      let (newclust, fb) := getFatent disk fs fb endclust
      if sub32 newclust 1 ≠ endclust then some (.getit endclust actsize, fb)
      else if checkClust newclust fs.fatsize then some (.invalid, fb)
      else runLoop disk fs filesize fuel fb newclust ((actsize + fs.bytesPerClust) % 2 ^ 32)
    else some (.remaining, fb)

/-- The loop over the runs. -/
def contentsLoop (disk : Nat → UInt8) (fs : FsData) : Nat → FatBuf → (Nat → UInt8) → (curclust buffer filesize gotsize : Nat) → Option Contents
  | 0, _, _, _, _, _, _ => none
  | fuel + 1, fb, mem, curclust, buffer, filesize, gotsize =>
    match runLoop disk fs filesize (fuel + 1) fb curclust fs.bytesPerClust with
    | none => none
    | some (.invalid, fb) => some (toLong gotsize, mem, fb)
    | some (.remaining, fb) =>
      some (toLong ((gotsize + filesize) % 2 ^ 32), getCluster disk fs curclust buffer filesize mem, fb)
    | some (.getit endclust actsize, fb) =>
      let mem := getCluster disk fs curclust buffer actsize mem
      let gotsize := (gotsize + actsize) % 2 ^ 32
      let (curclust, fb) := getFatent disk fs fb endclust
      if checkClust curclust fs.fatsize then some (toLong gotsize, mem, fb)
      else contentsLoop disk fs fuel fb mem curclust (buffer + actsize) (sub32 filesize actsize) gotsize

/-- `get_contents`. A first cluster that does not fit in `get_contents_vfatname_block`, whose bytes are `block`, gives nothing. -/
def getContents (disk : Nat → UInt8) (fs : FsData) (fuel : Nat) (fb : FatBuf) (block mem : Nat → UInt8) (dent : DirEntry)
    (pos buffer maxsize : Nat) : Option Contents :=
  let filesize := dent.size.toNat
  if filesize ≤ pos then some (0, mem, fb)
  else
    let limit := (pos + maxsize) % 2 ^ 32
    let filesize := if 0 < maxsize ∧ limit < filesize then limit else filesize
    match seekLoop disk fs pos fuel fb (fs.start dent) fs.bytesPerClust with
    | none => none
    | some (none, fb) => some (0, mem, fb)
    | some (some (curclust, actsize), fb) =>
      let actsize := sub32 actsize fs.bytesPerClust
      let filesize := sub32 filesize actsize
      let pos := sub32 pos actsize
      if pos ≠ 0 then
        let actsize := min filesize fs.bytesPerClust
        if MAX_CLUSTSIZE < actsize then none
        else
          let block := getCluster disk fs curclust 0 actsize block
          let filesize := sub32 filesize actsize
          let actsize := sub32 actsize pos
          let mem := Lib.store mem buffer ((List.range actsize).map fun i => block (pos + i))
          if filesize = 0 then some (toLong actsize, mem, fb)
          else
            let (curclust, fb) := getFatent disk fs fb curclust
            if checkClust curclust fs.fatsize then some (toLong actsize, mem, fb)
            else contentsLoop disk fs fuel fb mem curclust (buffer + actsize) filesize actsize
      else contentsLoop disk fs fuel fb mem curclust buffer filesize 0

/-! ## Volumes -/

namespace FsData

variable (fs : FsData)

/-- An entry of the FAT, read where it lies. -/
def fatEntry (disk : Nat → UInt8) (entry : Nat) : Nat :=
  let fat := fun i => disk (fs.fatSect * fs.sectSize + i)
  match fs.fatsize with
  | .fat32 => fat2cpu32 fat entry
  | .fat16 => fat2cpu16 fat entry
  | .fat12 =>
    let pair := (fat (entry * 3 / 2)).toNat + 256 * (fat (entry * 3 / 2 + 1)).toNat
    if entry % 2 = 0 then pair % 4096 else pair / 16

def InFat (entry : Nat) : Prop :=
  match fs.fatsize with
  | .fat32 => 4 * entry + 4 ≤ fs.fatlength * fs.sectSize
  | .fat16 => 2 * entry + 2 ≤ fs.fatlength * fs.sectSize
  | .fat12 => entry * 3 / 2 + 2 ≤ fs.fatlength * fs.sectSize

/-- The clusters of a chain, by following the FAT. -/
def chain (disk : Nat → UInt8) (start : Nat) : Nat → Nat
  | 0 => start
  | i + 1 => fs.fatEntry disk (chain disk start i)

/-- A byte of the clusters of a chain, one after the other. -/
def fileByte (disk : Nat → UInt8) (start i : Nat) : UInt8 :=
  disk (fs.startsect (fs.chain disk start (i / fs.bytesPerClust)) * fs.sectSize + i % fs.bytesPerClust)

end FsData

/-- A volume: sectors and clusters have sizes that are powers of two, the FAT has an entry for each cluster, and the clusters lie in
front of sector `2 ^ 32`. -/
structure FatVolume extends FsData where
  /-- How many clusters there are; their numbers begin with 2. -/
  clusters : Nat
  sectSize_pow : ∃ a, 1 ≤ a ∧ a ≤ 15 ∧ sectSize = 2 ^ a
  clustSize_pow : ∃ b, b ≤ 7 ∧ clustSize = 2 ^ b
  fatlength_lt : fatlength < 2 ^ 32
  inFat : ∀ c < clusters + 2, toFsData.InFat c
  data_nonneg : 0 ≤ dataBegin + 2 * clustSize
  data_end : dataBegin + (clusters + 2) * clustSize ≤ 2 ^ 32

/-- The chain from a cluster has clusters for a size, and its next clusters are no end marks. -/
def FatVolume.ChainFor (v : FatVolume) (disk : Nat → UInt8) (start size : Nat) : Prop :=
  ∀ i, i * v.bytesPerClust < size → 2 ≤ v.chain disk start i ∧ v.chain disk start i < v.clusters + 2 ∧
    (i ≠ 0 → checkClust (v.chain disk start i) v.fatsize = false)

end UBoot
