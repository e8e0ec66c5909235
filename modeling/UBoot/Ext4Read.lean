import UBoot.Lib.Memory
import UBoot.Word

/-!
# Reading a file of an ext4 file system

`ext4fs_read_file` of fs/ext4/ext4fs.c. `ext4fs_devread` and `read_allocated_block` are parameters. The memory is that from `buf` on. A
length in blocks or sectors is an `int`, and `len` an `unsigned int`.
-/

namespace UBoot

/-- `DISK_SECTOR_BITS` and `SECTOR_BITS` -/
def SECTOR_BITS : Nat := 9

/-- `ext4fs_devread` of `byteLen` bytes from an offset in a sector on: the bytes, if it succeeds. -/
abbrev Devread := (sector byteOffset : Nat) → (byteLen : Int) → Option (List UInt8)

/-- The variables of a read that is put off, which there is when `previous_block_number` is not -1. -/
structure Delayed where
  start : Nat
  extent : Int
  skipfirst : Nat
  next : Int
  buf : Nat

/-- The memory, how far `buf` has come, and the read that is put off. -/
structure ReadFile where
  mem : Nat → UInt8
  buf : Nat
  delayed : Option Delayed

/-- The read that was put off is made. The memory is as it was if it fails. -/
def spill (devread : Devread) (mem : Nat → UInt8) : Option Delayed → Except (Nat → UInt8) (Nat → UInt8)
  | none => .ok mem
  | some d =>
    match devread d.start d.skipfirst d.extent with
    | none => .error mem
    | some bytes => .ok (Lib.store mem d.buf bytes)

/-- `skipfirst` of block `i`. -/
def readFileSkip (blocksize pos i : Nat) : Nat := if i = pos / blocksize then pos % blocksize else 0

/-- `blockend` of block `i`. -/
def readFileEnd (blocksize pos len blockcnt i : Nat) : Int :=
  let last := (len + pos) % 2 ^ 32 % blocksize
  let blockend := if i + 1 = blockcnt then if last = 0 then blocksize else last else blocksize
  (blockend : Int) - readFileSkip blocksize pos i

/-- A block that is not a hole: its read is joined to the one that was put off, or put off in its place. -/
def readFileData (devread : Devread) (blknr skipfirst : Nat) (blockend : Int) (s : ReadFile) : Except (Nat → UInt8) ReadFile :=
  match s.delayed with
  | some d =>
    if d.next = blknr then
      .ok { s with delayed := some { d with extent := d.extent + blockend, next := d.next + blockend / 2 ^ SECTOR_BITS } }
    else
      match spill devread s.mem s.delayed with
      | .error mem => .error mem
      | .ok mem => .ok ⟨mem, s.buf, some ⟨blknr, blockend, skipfirst, blknr + blockend / 2 ^ SECTOR_BITS, s.buf⟩⟩
  | none => .ok { s with delayed := some ⟨blknr, blockend, skipfirst, blknr + blockend / 2 ^ SECTOR_BITS, s.buf⟩ }

/-- A hole is filled with zeros. -/
def readFileHole (devread : Devread) (n : Nat) (s : ReadFile) : Except (Nat → UInt8) ReadFile :=
  match spill devread s.mem s.delayed with
  | .error mem => .error mem
  | .ok mem => .ok ⟨Lib.store mem s.buf (List.replicate n 0), s.buf, none⟩

/-- The loop of `ext4fs_read_file` for block `i`. -/
def readFileBlock (devread : Devread) (readAllocatedBlock : Nat → Int) (log2blocksize pos len blockcnt : Nat) (s : ReadFile) (i : Nat) :
    Except (Nat → UInt8) ReadFile :=
  let blocksize := 2 ^ (log2blocksize + SECTOR_BITS)
  let skipfirst := readFileSkip blocksize pos i
  if readAllocatedBlock i < 0 then .error s.mem
  else
    let blknr := (readAllocatedBlock i).toNat * 2 ^ log2blocksize
    let r :=
      if blknr ≠ 0 then readFileData devread blknr skipfirst (readFileEnd blocksize pos len blockcnt i) s
      else readFileHole devread (blocksize - skipfirst) s
    r.map fun s => { s with buf := s.buf + (blocksize - skipfirst) }

/-- The number of blocks up to the end of the read. -/
def readFileBlockcnt (blocksize pos len : Nat) : Nat := ((len + pos) % 2 ^ 32 + (blocksize - 1)) % 2 ^ 32 / blocksize

/-- `ext4fs_read_file`: what it returns, and the memory. -/
def ext4fsReadFile (devread : Devread) (readAllocatedBlock : Nat → Int) (log2blocksize filesize pos len : Nat) (mem : Nat → UInt8) :
    Int × (Nat → UInt8) :=
  let len := if filesize < len then filesize else len
  let blocksize := 2 ^ (log2blocksize + SECTOR_BITS)
  let blockcnt := readFileBlockcnt blocksize pos len
  let blocks := List.range' (pos / blocksize) (blockcnt - pos / blocksize)
  match blocks.foldlM (readFileBlock devread readAllocatedBlock log2blocksize pos len blockcnt) ⟨mem, 0, none⟩ with
  | .error mem => (-1, mem)
  | .ok s =>
    match spill devread s.mem s.delayed with
    | .error mem => (-1, mem)
    | .ok mem => (toLong len, mem)

end UBoot
