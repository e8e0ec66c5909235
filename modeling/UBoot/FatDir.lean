import UBoot.Fat
import UBoot.CString
import UBoot.Lib.Loop
import UBoot.Lib.Machine

/-!
# Long file names

`mkcksum`, `slot2str` and `get_vfatname` of fs/fat/fat.c, `str2slot` and `fill_dir_slot` of fs/fat/fat_write.c. A directory is a buffer
of entries of 32 bytes, and a pointer to one is its number. `l_name` is the list of its characters. Where a slot in front of the buffer
is read, or a character behind `l_name` is written, there is no result.
-/

namespace UBoot

def VFAT_MAXLEN_BYTES : Nat := 256
/-- `VFAT_MAXSEQ` -/
def VFAT_MAXSEQ : Nat := 9
/-- `PREFETCH_BLOCKS` -/
def PREFETCH_BLOCKS : Nat := 2
/-- `sizeof(dir_entry)` -/
def DIRENT_SIZE : Nat := 32
/-- `LAST_LONG_ENTRY_MASK` -/
def LAST_LONG_ENTRY_MASK : UInt8 := 0x40
/-- `ATTR_VFAT` -/
def ATTR_VFAT : UInt8 := 0x0f
/-- `DELETED_FLAG` -/
def DELETED_FLAG : UInt8 := 0xe5
/-- `aRING` -/
def aRING : UInt8 := 0x05

/-- `cluster`, which is `get_dentfromdir_block` or `do_fat_read_at_block`, `get_contents_vfatname_block` and the FAT buffer. -/
structure DirBufs where
  block : Nat → UInt8
  contents : Nat → UInt8
  fb : FatBuf

/-! ## The fields of a slot -/

/-- Where `name0_4` begins in an entry. -/
def NAME0_4 : Nat := 1
/-- Where `attr` is. -/
def ATTR : Nat := 11
/-- Where `alias_checksum` is. -/
def ALIAS_CHECKSUM : Nat := 13
/-- Where `name5_10` begins. -/
def NAME5_10 : Nat := 14
/-- Where `name11_12` begins. -/
def NAME11_12 : Nat := 28

def entryBytes (mem : Nat → UInt8) (i : Nat) : List UInt8 := (List.range DIRENT_SIZE).map fun j => mem (DIRENT_SIZE * i + j)

/-- `id` of a slot without the mark of the last one -/
def slotNumber (mem : Nat → UInt8) (i : Nat) : Nat := (mem (DIRENT_SIZE * i) &&& ~~~LAST_LONG_ENTRY_MASK).toNat

def mkcksum (str : List UInt8) : UInt8 := (str.take 11).foldl (fun ret c => (((ret &&& 1) <<< 7) ||| ((ret &&& 0xfe) >>> 1)) + c) 0

def tolower (c : UInt8) : UInt8 := if 0x41 ≤ c ∧ c ≤ 0x5a then c + 0x20 else c

/-! ## Writing slots -/

/-- A loop of `str2slot` over the positions of a field that are left, the next at an address. It returns what is left of the name,
`end_idx`, and whether the name has ended in the field. -/
def putField : Nat → Nat → (Nat → UInt8) → List UInt8 → Nat → (Nat → UInt8) × List UInt8 × Nat × Bool
  | 0, _, mem, name, endIdx => (mem, name, endIdx, false)
  | _ + 1, a, mem, [], endIdx => (Lib.store mem a [0, 0], [], endIdx + 1, true)
  | n + 1, a, mem, c :: name, endIdx => putField n (a + 2) (Function.update mem a c) name (endIdx + 1)

/-- A loop of `str2slot` that fills the positions of a field from `end_idx` on. -/
def padField (mem : Nat → UInt8) (field endIdx count : Nat) : Nat → UInt8 :=
  (List.range' endIdx (count - endIdx)).foldl (fun mem i => Lib.store mem (field + 2 * i) [0xff, 0xff]) mem

/-- `str2slot` from the label `name11_12` on -/
def padName11 (mem : Nat → UInt8) (slot endIdx : Nat) : Nat → UInt8 := padField mem (slot + NAME11_12) (endIdx - 11) 2

/-- `str2slot` from the label `name5_10` on -/
def padName5 (mem : Nat → UInt8) (slot endIdx : Nat) : Nat → UInt8 := padName11 (padField mem (slot + NAME5_10) (endIdx - 5) 6) slot 11

/-- `str2slot` from the label `name0_4` on -/
def padName0 (mem : Nat → UInt8) (slot endIdx : Nat) : Nat → UInt8 := padName5 (padField mem (slot + NAME0_4) endIdx 5) slot 5

/-- `str2slot` for the slot at an address: the memory, what is left of the name, and what it returns. -/
def str2slot (mem : Nat → UInt8) (slot : Nat) (name : List UInt8) : (Nat → UInt8) × List UInt8 × Bool :=
  match putField 5 (slot + NAME0_4) mem name 0 with
  | (mem, name, endIdx, true) => (padName0 mem slot endIdx, name, true)
  | (mem, name, endIdx, false) =>
    match putField 6 (slot + NAME5_10) mem name endIdx with
    | (mem, name, endIdx, true) => (padName5 mem slot endIdx, name, true)
    | (mem, name, endIdx, false) =>
      match putField 2 (slot + NAME11_12) mem name endIdx with
      | (mem, name, endIdx, true) => (padName11 mem slot endIdx, name, true)
      | (mem, name, _, false) => (mem, name, name.isEmpty)

/-- The `do` loop of `fill_dir_slot`: the memory, the last slot and `counter`. -/
def fillSlots (checksum : UInt8) : Nat → (Nat → UInt8) → Nat → UInt8 → List UInt8 → (Nat → UInt8) × Nat × UInt8
  | 0, mem, slot, counter, _ => (mem, slot, counter)
  | fuel + 1, mem, slot, counter, name =>
    let a := DIRENT_SIZE * slot
    let (mem, name, ret) := str2slot (Lib.store mem a (List.replicate DIRENT_SIZE 0)) a name
    let counter := counter + 1
    let mem := Function.update mem a counter
    let mem := Function.update mem (a + ATTR) ATTR_VFAT
    let mem := Function.update mem (a + ALIAS_CHECKSUM) checksum
    if ret then (mem, slot, counter) else fillSlots checksum fuel mem (slot + 1) counter name

def isNextClust (fs : FsData) (dent : Nat) : Bool := fs.clustSize * fs.sectSize ≤ DIRENT_SIZE * dent

/-- The `while` loop of `fill_dir_slot`. Where it takes a new cluster, there is no result. -/
def copySlots (fs : FsData) (contents : Nat → UInt8) : Nat → Nat → (Nat → UInt8) → Nat → Option ((Nat → UInt8) × Nat)
  | 0, _, block, dent => some (block, dent)
  | counter + 1, slot, block, dent =>
    if isNextClust fs dent then none
    else copySlots fs contents counter (slot - 1) (Lib.store block (DIRENT_SIZE * dent) (entryBytes contents slot)) (dent + 1)

/-- `strncpy` of an array of characters into one of 16. -/
def strncpy16 (src : List UInt8) : List UInt8 :=
  let s := (src.take 16).takeWhile (· != 0)
  s ++ List.replicate (16 - s.length) 0

/-- `fill_dir_slot`: the buffers, and `*dentptr`. -/
def fillDirSlot (fs : FsData) (dent : Nat) (st : DirBufs) (name : List UInt8) : Option (DirBufs × Nat) :=
  let checksum := mkcksum (strncpy16 (entryBytes st.block dent))
  let (contents, slot, counter) := fillSlots checksum (name.length + 1) st.contents 0 0 name
  let a := DIRENT_SIZE * slot
  let contents := Function.update contents a (contents a ||| LAST_LONG_ENTRY_MASK)
  match copySlots fs contents counter.toNat slot st.block dent with
  | none => none
  | some (block, dent) => if isNextClust fs dent then none else some (⟨block, contents, st.fb⟩, dent)

/-! ## Reading slots -/

/-- A loop of `slot2str` over the positions of a field that are left, the next at an address. It returns whether there was a NUL. -/
def takeField (mem : Nat → UInt8) : Nat → Nat → List UInt8 → Option (List UInt8 × Bool)
  | 0, _, name => some (name, false)
  | n + 1, a, name =>
    if VFAT_MAXLEN_BYTES ≤ name.length then none
    else if mem a = 0 then some (name, true)
    else takeField mem n (a + 2) (name ++ [mem a])

/-- `slot2str` for the slot at an address -/
def slot2str (mem : Nat → UInt8) (slot : Nat) (name : List UInt8) : Option (List UInt8 × Bool) :=
  match takeField mem 5 (slot + NAME0_4) name with
  | some (name, false) =>
    match takeField mem 6 (slot + NAME5_10) name with
    | some (name, false) => takeField mem 2 (slot + NAME11_12) name
    | r => r
  | r => r

/-- A loop of `get_vfatname` over the numbers of the slots, from `counter` down: how many are left and the slot behind, or nothing where
a number is another one. -/
def countSlots (mem : Nat → UInt8) (inside : Nat → Bool) : Nat → Nat → Option (Nat × Nat)
  | 0, slot => some (0, slot)
  | counter + 1, slot =>
    if inside slot then if slotNumber mem slot = counter + 1 then countSlots mem inside counter (slot + 1) else none
    else some (counter + 1, slot)

/-- The loop over the slots in front of one in the next cluster. -/
def slotsBack (mem : Nat → UInt8) : Nat → List UInt8 → Option (List UInt8)
  | 0, name => some name
  | slot + 1, name =>
    match slot2str mem (DIRENT_SIZE * slot) name with
    | none => none
    | some (name, _) => slotsBack mem slot name

/-- The `do` loop of `get_vfatname`. -/
def nameBack (mem : Nat → UInt8) : Nat → List UInt8 → Option (List UInt8)
  | 0, _ => none
  | slot + 1, name =>
    match slot2str mem (DIRENT_SIZE * slot) name with
    | none => none
    | some (name, ended) =>
      if ended ∨ mem (DIRENT_SIZE * slot) &&& LAST_LONG_ENTRY_MASK ≠ 0 then some name else nameBack mem slot name

/-- A name whose first character may stand for another one, in lower case. -/
def readName : List UInt8 → List UInt8
  | [] => []
  | c :: name => if c = DELETED_FLAG then [] else ((if c = aRING then DELETED_FLAG else c) :: name).map tolower

/-- The sectors that `get_fatent` loads. -/
def FsData.getsize (fs : FsData) (bufnum : Nat) : Nat :=
  if fs.fatlength < bufnum * FATBUFBLOCKS + FATBUFBLOCKS then sub32 fs.fatlength (bufnum * FATBUFBLOCKS) else FATBUFBLOCKS

/-- Where the bytes end that are read for the entry at an index of the FAT buffer. -/
def FsData.bufEntryEnd (fs : FsData) (offset : Nat) : Nat :=
  match fs.fatsize with
  | .fat32 => 4 * offset + 4
  | .fat16 => 2 * offset + 2
  | .fat12 => 2 * (offset * 3 / 4 + if offset % 4 = 1 ∨ offset % 4 = 2 then 1 else 0) + 2

/-- `get_fatent`, where there is no result if it loads more than the FAT buffer holds, or reads behind it. -/
def getFatentIn (disk : Nat → UInt8) (fs : FsData) (fb : FatBuf) (entry : Nat) : Option (Nat × FatBuf) :=
  let bufnum := entry / fs.bufEntries
  if bufnum ≠ fb.num ∧ FATBUFBLOCKS < fs.getsize bufnum then none
  else if fs.fatBufSize < fs.bufEntryEnd (entry - bufnum * fs.bufEntries) then none
  else some (getFatent disk fs fb entry)

/-- The end of `get_vfatname`, from the `do` loop on: `realdent` is the bytes of the entry. -/
def endVfatname (st : DirBufs) (retdent slot : Nat) (realdent name : List UInt8) : Option (Option (List UInt8) × DirBufs) :=
  match nameBack st.block slot name with
  | none => none
  | some name =>
    if VFAT_MAXLEN_BYTES ≤ name.length then none
    else some (some (readName name), { st with block := Lib.store st.block (DIRENT_SIZE * retdent) realdent })

/-- `get_vfatname`: `l_name`, or nothing for -1. -/
def getVfatname (disk : Nat → UInt8) (fs : FsData) (curclust retdent : Nat) (st : DirBufs) : Option (Option (List UInt8) × DirBufs) :=
  let limit := fs.sectSize * if curclust = 0 then PREFETCH_BLOCKS else fs.clustSize
  let counter := slotNumber st.block retdent
  if VFAT_MAXSEQ < counter then some (none, st)
  else
    match countSlots st.block (fun slot => DIRENT_SIZE * slot < limit) counter retdent with
    | none => some (none, st)
    | some (counter, slot) =>
      if limit ≤ DIRENT_SIZE * slot then
        if curclust = 0 then some (none, st)
        else
          match getFatentIn disk fs st.fb curclust with
          | none => none
          | some (curclust, fb) =>
            if checkClust curclust fs.fatsize then some (none, { st with fb := fb })
            else if MAX_CLUSTSIZE < fs.bytesPerClust then none
            else
              let contents := getCluster disk fs curclust 0 fs.bytesPerClust st.contents
              match countSlots contents (fun _ => true) counter 0 with
              | none => some (none, ⟨st.block, contents, fb⟩)
              | some (_, slot2) =>
                match slotsBack contents slot2 [] with
                | none => none
                | some name => endVfatname ⟨st.block, contents, fb⟩ retdent slot (entryBytes contents slot2) name
      else endVfatname st retdent slot (entryBytes st.block slot) []

/-!
## Looking up a file

`do_fat_read_at` of fs/fat/fat.c with `get_dentfromdir`, and `get_contents` once more with the clusters that it goes through and without
the memory that it reads to. What is printed is left out. A round of the machine `FatRead.round` is a turn of the loop over the root
directory, of the loop of `get_dentfromdir`, or of a loop of `get_contents`; it goes wrong where it leaves a block, the FAT buffer or a
name. Every sector can be read, so a look-up ends with an entry, an end mark or a FAT entry that is no cluster.
-/

section

def ATTR_VOLUME : UInt8 := 8
/-- `ATTR_DIR` -/
def ATTR_DIR : UInt8 := 16
/-- The size of `fnamecopy`. -/
def FNAMECOPY_SIZE : Nat := 2048

def isDirDelim (c : UInt8) : Bool := c = 0x2f ∨ c = 0x5c

/-- Not the end of a part of a short name. -/
def inShortName (c : UInt8) : Bool := c ≠ 0 ∧ c ≠ 0x20

/-- The size of `s_name`. -/
def SNAME_SIZE : Nat := 14

/-- The last index of `s_name` that `get_name` writes to. -/
def snameLast (entry : List UInt8) : Nat :=
  if inShortName (entry.getD 8 0) then max 8 (((entry.take 8).takeWhile inShortName).length + 4) else 8

def getName (entry : List UInt8) : List UInt8 :=
  let ext := (entry.drop 8).take 3
  readName ((entry.take 8).takeWhile inShortName ++ if inShortName (ext.headD 0) then 0x2e :: ext.takeWhile inShortName else [])

/-- Number of a field of an entry. -/
def entryNat (entry : List UInt8) (i n : Nat) : Nat := leNat ((entry.drop i).take n)

/-- The fields of a `dir_entry` from its bytes. -/
def dirEntry (entry : List UInt8) : DirEntry :=
  ⟨UInt16.ofNat (entryNat entry 20 2), UInt16.ofNat (entryNat entry 26 2), UInt32.ofNat (entryNat entry 28 4)⟩

/-- The entry has `ATTR_DIR`. -/
def isDirEntry (entry : List UInt8) : Bool := entry.getD ATTR 0 &&& ATTR_DIR ≠ 0

/-! ## The entries of a block -/

/-- What the loops over entries tell apart. -/
inductive EntryKind where
  | deleted | slot | volume | plain
  deriving DecidableEq

/-- The kind of an entry, from its first byte and its attributes. -/
def entryKind (name0 attr : UInt8) : EntryKind :=
  if name0 = DELETED_FLAG then .deleted
  else if attr &&& ATTR_VOLUME = 0 then .plain
  else if attr &&& ATTR_VFAT = ATTR_VFAT ∧ name0 &&& LAST_LONG_ENTRY_MASK ≠ 0 then .slot
  else .volume

/-- How a loop over entries ends: at an end mark, at the entry looked for, or behind the last entry. -/
inductive ScanEnd where
  | mark
  | found (dent : Nat)
  | more (dent : Nat)

/-- Where a loop over entries is: how many are left, `dentptr` and the buffers. -/
structure ScanState where
  left : Nat
  dent : Nat
  bufs : DirBufs

/-- What both loops over entries are given: the name, whether they list the directory, and whether they look for an end mark
behind slots as well, as `get_dentfromdir` does. -/
structure Search where
  name : List UInt8
  ls : Bool
  markBehindSlots : Bool

/-- The rest of a turn for an entry with its long name. -/
def Search.compare (s : Search) (st : ScanState) (lname : List UInt8) : (ScanEnd × DirBufs) ⊕ ScanState :=
  if s.ls ∨ s.name ≠ getName (entryBytes st.bufs.block st.dent) ∧ s.name ≠ lname then .inr ⟨st.left - 1, st.dent + 1, st.bufs⟩
  else .inl (.found st.dent, st.bufs)

/-- A turn of a loop over entries. -/
def scanRound (disk : Nat → UInt8) (fs : FsData) (curclust : Nat) (s : Search) (st : ScanState) : Option ((ScanEnd × DirBufs) ⊕ ScanState) :=
  if st.left = 0 then some (.inl (.more st.dent, st.bufs))
  else if MAX_CLUSTSIZE < DIRENT_SIZE * (st.dent + 1) then none
  else
    let name0 (bufs : DirBufs) := bufs.block (DIRENT_SIZE * st.dent)
    match entryKind (name0 st.bufs) (st.bufs.block (DIRENT_SIZE * st.dent + ATTR)) with
    | .deleted => some (.inr ⟨st.left - 1, st.dent + 1, st.bufs⟩)
    | .volume => some (.inr ⟨st.left - 1, st.dent + 1, st.bufs⟩)
    | .plain => if name0 st.bufs = 0 then some (.inl (.mark, st.bufs)) else some (s.compare st [])
    | .slot =>
      match getVfatname disk fs curclust st.dent st.bufs with
      | none => none
      | some (lname, bufs) =>
        if s.markBehindSlots ∧ s.ls = false ∧ name0 bufs = 0 then some (.inl (.mark, bufs))
        else some (s.compare { st with bufs := bufs } (lname.getD []))

/-- A turn that goes on takes one entry, which is in the block. -/
theorem scanRound_goes {disk : Nat → UInt8} {fs : FsData} {curclust : Nat} {s : Search} {st st' : ScanState}
    (h : scanRound disk fs curclust s st = some (.inr st')) :
    st.left ≠ 0 ∧ st'.left = st.left - 1 ∧ st'.dent = st.dent + 1 ∧ DIRENT_SIZE * (st.dent + 1) ≤ MAX_CLUSTSIZE := by
  have hcompare (st0 : ScanState) (lname : List UInt8) (hc : s.compare st0 lname = .inr st') :
      st'.left = st0.left - 1 ∧ st'.dent = st0.dent + 1 := by
    unfold Search.compare at hc
    split at hc
    · cases hc
      exact ⟨rfl, rfl⟩
    · cases hc
  unfold scanRound at h
  split at h
  · cases h
  next hleft =>
    split at h
    · cases h
    next hdent =>
      have hone : st'.left = st.left - 1 ∧ st'.dent = st.dent + 1 := by
        simp only at h
        split at h
        · cases h
          exact ⟨rfl, rfl⟩
        · cases h
          exact ⟨rfl, rfl⟩
        · split at h
          · cases h
          · exact hcompare st [] (Option.some.inj h)
        · split at h
          · cases h
          next lname bufs _ =>
            split at h
            · cases h
            · exact hcompare ⟨st.left, st.dent, bufs⟩ _ (Option.some.inj h)
      exact ⟨hleft, hone.1, hone.2, Nat.le_of_not_lt hdent⟩

/-- A loop over entries. -/
def scanLoop (disk : Nat → UInt8) (fs : FsData) (curclust : Nat) (s : Search) : Lib.Loop ScanState (ScanEnd × DirBufs) where
  round := scanRound disk fs curclust s
  left := ScanState.left
  progress := fun h => by
    obtain ⟨hleft, hless, -⟩ := scanRound_goes h
    exact hless ▸ Nat.sub_one_lt hleft

/-! ## The boot sector -/

/-- A field of the boot sector. -/
def bootNat (disk : Nat → UInt8) (i n : Nat) : Nat := leNat ((List.range n).map fun j => disk (i + j))

/-- The text `FAT12   ` and its like: the first five characters, and three blanks. -/
def isFatSign (disk : Nat → UInt8) (i : Nat) (sign : List UInt8) : Bool :=
  (List.range 8).map (fun j => disk (i + j)) = sign ++ [0x20, 0x20, 0x20]

/-- `read_bootsectandvi`: `fatsize`, or nothing for -1. -/
def readBootsectandvi (disk : Nat → UInt8) : Option FatSize :=
  if bootNat disk 22 2 = 0 then
    if isFatSign disk 82 [0x46, 0x41, 0x54, 0x33, 0x32] then some .fat32 else none
  else if isFatSign disk 54 [0x46, 0x41, 0x54, 0x31, 0x32] then some .fat12
  else if isFatSign disk 54 [0x46, 0x41, 0x54, 0x31, 0x36] then some .fat16
  else none

/-- What `do_fat_read_at` keeps of a volume: `mydata`, the first `root_cluster` and `rootdir_size`. -/
structure FatMount where
  fs : FsData
  rootCluster : Nat
  rootdirSize : Nat

/-- The start of `do_fat_read_at` for a device with blocks of a size, or nothing where it returns -1. -/
def fatMount (disk : Nat → UInt8) (blksz : Nat) : Option FatMount :=
  match readBootsectandvi disk with
  | none => none
  | some fatsize =>
    let fatlength := if fatsize = .fat32 then bootNat disk 36 4 else bootNat disk 22 2
    let fatSect := bootNat disk 14 2
    let rootdirSect := (fatSect + fatlength * (disk 16).toNat) % 2 ^ 32
    let sectSize := bootNat disk 11 2
    let clustSize := (disk 13).toNat
    if sectSize ≠ blksz then none
    else
      let rootdirSize := if fatsize = .fat32 then 0 else bootNat disk 17 2 * DIRENT_SIZE / sectSize
      some
        { fs := ⟨fatsize, fatlength, fatSect, rootdirSect, sectSize, clustSize, rootdirSect + rootdirSize - clustSize * 2⟩
          rootCluster := if fatsize = .fat32 then bootNat disk 44 4 else 0
          rootdirSize }

/-! ## The path -/

/-- A turn of the `while (isdir)` loop: the name that is looked for, `isdir`, `firsttime` and `subname` for the next turn. -/
structure PathStep where
  name : List UInt8
  isdir : Bool
  firsttime : Bool
  subname : List UInt8

/-- The turn for a `subname`. -/
def pathStep (ls firsttime : Bool) (subname : List UInt8) : PathStep :=
  match subname.findIdx? isDirDelim with
  | some idx =>
    let nextname := (subname.drop (idx + 1)).dropWhile isDirDelim
    ⟨subname.take idx, true, if ls ∧ nextname = [] then false else firsttime, nextname⟩
  | none => if ls ∧ firsttime then ⟨subname, true, false, subname⟩ else ⟨subname, false, firsttime, subname⟩

/-! ## The machine -/

/-- A call of `do_fat_read_at`: the disk, the volume, what `get_dentfromdir_block` holds before, the first name of the path, `subname` and
`isdir` behind it, whether it lists a directory, `LS_ROOT`, and the range to read. -/
structure FatRead where
  disk : Nat → UInt8
  mount : FatMount
  dirBlock : Nat → UInt8
  name : List UInt8
  subname : List UInt8
  isdir : Bool
  ls : Bool
  lsRoot : Bool
  pos : Nat
  maxsize : Nat

/-- Where `do_fat_read_at` is: in the loop over the root directory, in that of `get_dentfromdir`, at the way to the cluster at `pos`, or in
the search for consecutive clusters. -/
inductive FatState where
  | root (cursect rootCluster j dent : Nat) (bufs : DirBufs)
  | dir (step : PathStep) (curclust : Nat) (bufs : DirBufs)
  | seek (curclust actsize filesize pos : Nat) (bufs : DirBufs)
  | run (endclust actsize filesize gotsize : Nat) (bufs : DirBufs)

namespace FatRead

variable (r : FatRead)

/-- `mydata` -/
abbrev fs : FsData := r.mount.fs

/-- `get_contents` up to its first loop. -/
def enterContents (dent : DirEntry) (bufs : DirBufs) : Int ⊕ FatState :=
  let filesize := dent.size.toNat
  if filesize ≤ r.pos then .inl 0
  else
    let limit := (r.pos + r.maxsize) % 2 ^ 32
    let filesize := if 0 < r.maxsize ∧ limit < filesize then limit else filesize
    .inr (.seek (r.fs.start dent) r.fs.bytesPerClust filesize r.pos bufs)

/-- The `while (isdir)` loop for an entry that was found. -/
def enterDir (isdir firsttime : Bool) (subname : List UInt8) (entry : List UInt8) (bufs : DirBufs) : Int ⊕ FatState :=
  if isdir then .inr (.dir (pathStep r.ls firsttime subname) (r.fs.start (dirEntry entry)) bufs) else r.enterContents (dirEntry entry) bufs

/-- What the loop over the root directory returns at its end. -/
def rootExit : Int := if r.lsRoot then 0 else -1

/-- The block of the root directory that a turn begins with: `dentptr` and the buffers. -/
def rootBlock (cursect j dent : Nat) (bufs : DirBufs) : Option (Nat × DirBufs) :=
  if j = 0 then
    let nrBlocks := if r.fs.fatsize = .fat32 then r.fs.clustSize else PREFETCH_BLOCKS
    if MAX_CLUSTSIZE < nrBlocks * r.fs.sectSize then none
    else some (0, { bufs with block := Lib.store bufs.block 0 (diskRead r.disk r.fs cursect nrBlocks) })
  else some (dent, bufs)

/-- A turn of the loop over the root directory behind its entries. -/
def rootNext (cursect rootCluster j dent : Nat) (bufs : DirBufs) : Option (Int ⊕ FatState) :=
  if r.fs.fatsize = .fat32 then
    if j + 1 = r.fs.clustSize then
      match getFatentIn r.disk r.fs bufs.fb rootCluster with
      | none => none
      | some (nxtClust, fb) =>
        if checkClust nxtClust .fat32 then some (.inl r.rootExit)
        else some (.inr (.root ((r.fs.dataBegin + nxtClust * r.fs.clustSize) % 2 ^ 32).toNat nxtClust 0 dent { bufs with fb := fb }))
    else some (.inr (.root cursect rootCluster (j + 1) dent bufs))
  else
    let cursect := (cursect + 1) % 2 ^ 32
    if r.mount.rootdirSize ≤ sub32 cursect r.fs.rootdirSect then some (.inl r.rootExit)
    else some (.inr (.root cursect rootCluster (if j + 1 = PREFETCH_BLOCKS then 0 else j + 1) dent bufs))

/-- What both loops look for in the root directory. -/
def rootSearch : Search := ⟨r.name, r.lsRoot, false⟩

/-- A turn of the loop over the root directory. -/
def rootRound (cursect rootCluster j dent : Nat) (bufs : DirBufs) : Option (Int ⊕ FatState) :=
  match r.rootBlock cursect j dent bufs with
  | none => none
  | some (dent, bufs) =>
    match (scanLoop r.disk r.fs rootCluster r.rootSearch).run ⟨r.fs.sectSize / DIRENT_SIZE, dent, bufs⟩ with
    | none => none
    | some (.mark, _) => some (.inl r.rootExit)
    | some (.found dent, bufs) =>
      let entry := entryBytes bufs.block dent
      if r.isdir ∧ isDirEntry entry = false then some (.inl (-1))
      else some (r.enterDir r.isdir true r.subname entry { bufs with block := r.dirBlock })
    | some (.more dent, bufs) => r.rootNext cursect rootCluster j dent bufs

/-- What `do_fat_read_at` returns where `get_dentfromdir` finds nothing. -/
def dirExit (step : PathStep) : Int := if r.ls ∧ step.isdir = false then 0 else -1

/-- What `get_dentfromdir` looks for. -/
def dirSearch (step : PathStep) : Search := ⟨step.name, r.ls && !step.isdir, true⟩

/-- A turn of the loop of `get_dentfromdir`. -/
def dirRound (step : PathStep) (curclust : Nat) (bufs : DirBufs) : Option (Int ⊕ FatState) :=
  if MAX_CLUSTSIZE < r.fs.bytesPerClust then none
  else
    let bufs := { bufs with block := getCluster r.disk r.fs curclust 0 r.fs.bytesPerClust bufs.block }
    match (scanLoop r.disk r.fs curclust (r.dirSearch step)).run ⟨r.fs.bytesPerClust / DIRENT_SIZE, 0, bufs⟩ with
    | none => none
    | some (.mark, _) => some (.inl (r.dirExit step))
    | some (.found dent, bufs) =>
      let entry := entryBytes bufs.block dent
      if step.isdir ∧ isDirEntry entry = false then some (.inl (-1))
      else some (r.enterDir step.isdir step.firsttime step.subname entry bufs)
    | some (.more _, bufs) =>
      match getFatentIn r.disk r.fs bufs.fb curclust with
      | none => none
      | some (curclust, fb) =>
        if checkClust curclust r.fs.fatsize then some (.inl (r.dirExit step)) else some (.inr (.dir step curclust { bufs with fb := fb }))

/-- `get_contents` from the cluster at `pos` on: the part of that cluster, if `pos` is not at its beginning. -/
def enterRun (curclust actsize filesize pos : Nat) (bufs : DirBufs) : Option (Int ⊕ FatState) :=
  let actsize := sub32 actsize r.fs.bytesPerClust
  let filesize := sub32 filesize actsize
  let pos := sub32 pos actsize
  if pos ≠ 0 then
    let actsize := min filesize r.fs.bytesPerClust
    if MAX_CLUSTSIZE < actsize ∨ MAX_CLUSTSIZE < pos + sub32 actsize pos then none
    else
      let bufs := { bufs with contents := getCluster r.disk r.fs curclust 0 actsize bufs.contents }
      let filesize := sub32 filesize actsize
      let gotsize := sub32 actsize pos
      if filesize = 0 then some (.inl (toLong gotsize))
      else
        match getFatentIn r.disk r.fs bufs.fb curclust with
        | none => none
        | some (curclust, fb) =>
          if checkClust curclust r.fs.fatsize then some (.inl (toLong gotsize))
          else some (.inr (.run curclust r.fs.bytesPerClust filesize gotsize { bufs with fb := fb }))
  else some (.inr (.run curclust r.fs.bytesPerClust filesize 0 bufs))

/-- A turn of the loop that goes to the cluster at `pos`. -/
def seekRound (curclust actsize filesize pos : Nat) (bufs : DirBufs) : Option (Int ⊕ FatState) :=
  if actsize ≤ pos then
    match getFatentIn r.disk r.fs bufs.fb curclust with
    | none => none
    | some (curclust, fb) =>
      if checkClust curclust r.fs.fatsize then some (.inl 0)
      else some (.inr (.seek curclust ((actsize + r.fs.bytesPerClust) % 2 ^ 32) filesize pos { bufs with fb := fb }))
  else r.enterRun curclust actsize filesize pos bufs

/-- A turn of the search for consecutive clusters, or of the loop over the runs. -/
def runRound (endclust actsize filesize gotsize : Nat) (bufs : DirBufs) : Option (Int ⊕ FatState) :=
  if actsize < filesize then
    match getFatentIn r.disk r.fs bufs.fb endclust with
    | none => none
    | some (newclust, fb) =>
      if sub32 newclust 1 ≠ endclust then
        let gotsize := (gotsize + actsize) % 2 ^ 32
        match getFatentIn r.disk r.fs fb endclust with
        | none => none
        | some (curclust, fb) =>
          if checkClust curclust r.fs.fatsize then some (.inl (toLong gotsize))
          else some (.inr (.run curclust r.fs.bytesPerClust (sub32 filesize actsize) gotsize { bufs with fb := fb }))
      else if checkClust newclust r.fs.fatsize then some (.inl (toLong gotsize))
      else some (.inr (.run newclust ((actsize + r.fs.bytesPerClust) % 2 ^ 32) filesize gotsize { bufs with fb := fb }))
  else some (.inl (toLong ((gotsize + filesize) % 2 ^ 32)))

def round : FatState → Option (Int ⊕ FatState)
  | .root cursect rootCluster j dent bufs => r.rootRound cursect rootCluster j dent bufs
  | .dir step curclust bufs => r.dirRound step curclust bufs
  | .seek curclust actsize filesize pos bufs => r.seekRound curclust actsize filesize pos bufs
  | .run endclust actsize filesize gotsize bufs => r.runRound endclust actsize filesize gotsize bufs

end FatRead

/-- What `do_fat_read_at` makes of a file name: the names for the root directory and behind it, or nothing where it returns -1. -/
def fatRead (disk : Nat → UInt8) (mount : FatMount) (dirBlock : Nat → UInt8) (filename : List UInt8) (pos maxsize : Nat) (dols : Bool) :
    Option FatRead :=
  let fnamecopy := (filename.dropWhile isDirDelim).map tolower
  match fnamecopy, fnamecopy.findIdx? isDirDelim with
  | [], _ => if dols then some ⟨disk, mount, dirBlock, [], [], false, true, true, pos, maxsize⟩ else none
  | _, some idx =>
    some ⟨disk, mount, dirBlock, fnamecopy.take idx, (fnamecopy.drop (idx + 1)).dropWhile isDirDelim, true, dols, false, pos, maxsize⟩
  | _, none => some ⟨disk, mount, dirBlock, fnamecopy, [], dols, dols, false, pos, maxsize⟩

/-- The first state of the machine. The FAT buffer is not loaded. -/
def FatRead.init (r : FatRead) (block contents fatbuf : Nat → UInt8) : FatState :=
  .root r.fs.rootdirSect r.mount.rootCluster 0 0 ⟨block, contents, ⟨2 ^ 32 - 1, fatbuf⟩⟩

/-- `do_fat_read_at`, for what the blocks and the FAT buffer hold before: nothing where the fuel has run out, else whether it has stayed in
its buffers, and what it returns. -/
def doFatReadAt (disk : Nat → UInt8) (blksz fuel : Nat) (block dirBlock contents fatbuf : Nat → UInt8) (filename : List UInt8)
    (pos maxsize : Nat) (dols : Bool) : Option (Option Int) :=
  match fatMount disk blksz with
  | none => some (some (-1))
  | some mount =>
    if FNAMECOPY_SIZE ≤ (filename.dropWhile isDirDelim).length then some none
    else
      match fatRead disk mount dirBlock filename pos maxsize dols with
      | none => some (some (-1))
      | some r => Lib.machine r.round fuel (r.init block contents fatbuf)

end

end UBoot
