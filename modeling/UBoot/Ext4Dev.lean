import UBoot.Lib.Memory
import UBoot.Word

/-!
# Reading from the device of an ext4 file system

`ext4fs_devread` of fs/ext4/dev.c. An `int` and an `unsigned long` have 32 bits.
-/

namespace UBoot

/-- A block device: the bytes of its sectors, and what each call of `block_read` answers and leaves in the buffer. A call that answers with
the number of sectors asked for has read them. -/
structure Ext4BlockDev where
  sectors : Nat → Nat → UInt8
  blockRead : (call start blkcnt : Nat) → Nat × List UInt8
  length_read : ∀ call start blkcnt, (blockRead call start blkcnt).2.length = 512 * blkcnt
  read_ok : ∀ call start blkcnt, (blockRead call start blkcnt).1 = blkcnt → ∀ (i : Nat) (h : i < (blockRead call start blkcnt).2.length),
      (blockRead call start blkcnt).2[i] = sectors (add32 start (i / 512)) (i % 512)

/-- A call of `block_read`, and its answer. -/
structure DevCall where
  start : Nat
  blkcnt : Nat
  answer : Nat

/-- The memory at `buf`, and the calls of `block_read` so far. -/
structure DevRead where
  buf : Nat → UInt8
  calls : List DevCall

/-- `block_read` of sectors of the partition: its answer, the bytes read, and the calls. -/
abbrev Ext4BlockDev.read (dev : Ext4BlockDev) (start sector blkcnt : Nat) (calls : List DevCall) : Nat × List UInt8 × List DevCall :=
  let read := dev.blockRead calls.length (add32 start sector) blkcnt
  (read.1, read.2, calls ++ [⟨add32 start sector, blkcnt, read.1⟩])

/-- `ext4fs_devread` from the first whole sector on, with `pos` bytes in `buf`. -/
def devreadAligned (dev : Ext4BlockDev) (start sector pos byteLen : Nat) (st : DevRead) : Nat × DevRead :=
  if byteLen = 0 then (1, st)
  else
    let blockLen := byteLen - byteLen % 512
    if blockLen = 0 then
      -- The answer of `block_read` is not looked at.
      let (_, p, calls) := dev.read start sector 1 st.calls
      (1, ⟨Lib.store st.buf pos (p.take byteLen), calls⟩)
    else
      let (answer, data, calls) := dev.read start sector (blockLen / 512) st.calls
      let buf := Lib.store st.buf pos data
      if answer ≠ blockLen / 512 then (0, ⟨buf, calls⟩)
      else if byteLen - blockLen ≠ 0 then
        let (answer, secBuf, calls) := dev.read start (sector + blockLen / 512) 1 calls
        if answer ≠ 1 then (0, ⟨buf, calls⟩)
        else (1, ⟨Lib.store buf (pos + blockLen) (secBuf.take (byteLen - blockLen)), calls⟩)
      else (1, ⟨buf, calls⟩)

/-- `(sector < 0) || ((sector + ((byte_offset + byte_len - 1) >> SECTOR_BITS)) >= part_info->size)`: the sum of the offset and the length
is an `int`. -/
def outsidePartition (size : Nat) (sector : Int) (byteOffset byteLen : Nat) : Bool :=
  decide (sector < 0) || decide (size ≤ ((sector + toLong (sub32 (add32 byteOffset byteLen) 1) / 512) % 2 ^ 32).toNat)

/-- `ext4fs_devread` on the partition from sector `start` on, with `size` sectors. -/
def ext4fsDevread (dev : Option Ext4BlockDev) (start size : Nat) (sector : Int) (byteOffset byteLen : Nat) (buf : Nat → UInt8) : Nat × DevRead :=
  if outsidePartition size sector byteOffset byteLen then (0, ⟨buf, []⟩)
  else
    let sector := sector.toNat + byteOffset / 512
    let byteOffset := byteOffset % 512
    match dev with
    | none => (0, ⟨buf, []⟩)
    | some dev =>
      if byteOffset ≠ 0 then
        let (answer, secBuf, calls) := dev.read start sector 1 []
        if answer ≠ 1 then (0, ⟨buf, calls⟩)
        else
          let n := min (512 - byteOffset) byteLen
          devreadAligned dev start (sector + 1) n (byteLen - n) ⟨Lib.store buf 0 ((secBuf.drop byteOffset).take n), calls⟩
      else devreadAligned dev start sector 0 byteLen ⟨buf, []⟩

end UBoot
