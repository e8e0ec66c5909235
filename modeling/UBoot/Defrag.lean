import UBoot.CString
import UBoot.Lib.Memory
import Mathlib.Algebra.GroupWithZero.Nat
import Mathlib.Data.List.Basic
import Mathlib.Order.Monotone.Basic

/-!
# Reassembly of IP fragments

`__NetDefragment` of net/net.c, with the default `CONFIG_NET_MAXDEFRAG`, and the checks of `NetReceive` that a packet passes before it.
The bytes of `pkt_buff` hold the packet being assembled, and the holes in it hold the descriptors of the holes. A `u16` in memory
has its low byte first. An access outside `pkt_buff` makes the result `none`, and so does a walk along the holes that takes more
steps than there are places for a descriptor, since it then comes back to a place where it was and never ends.
-/

namespace UBoot

open List

section

open Lib

/-! ## Packets -/

def IP_HDR_SIZE : Nat := 20

def IP_UDP_HDR_SIZE : Nat := 28

/-- `CONFIG_NET_MAXDEFRAG` and the size of an RPC reply. -/
def IP_PKTSIZE : Nat := 16384 + 100

def IP_MAXUDP : Nat := IP_PKTSIZE - IP_HDR_SIZE

/-- The byte at a place of a packet. -/
def byteAt (pkt : List UInt8) (i : Nat) : UInt8 := pkt.getD i 0

/-- Two bytes of a packet, the first one high. -/
def beAt (pkt : List UInt8) (i : Nat) : Nat := (byteAt pkt i).toNat * 256 + (byteAt pkt (i + 1)).toNat

def ipLen (pkt : List UInt8) : Nat := beAt pkt 2

def ipId (pkt : List UInt8) : Nat := beAt pkt 4

def ipOff (pkt : List UInt8) : Nat := beAt pkt 6

/-- `ip_off & IP_OFFS` -/
def offset8 (pkt : List UInt8) : Nat := ipOff pkt % 0x2000

/-- `ip_off & IP_FLAGS_MFRAG` -/
def moreFragments (pkt : List UInt8) : Bool := ipOff pkt / 0x2000 % 2 = 1

/-- The place of a fragment in the payload. -/
def fragStart (pkt : List UInt8) : Nat := offset8 pkt * 8

/-- The length of a fragment, an `int` that is negative if `ip_len` is less than that of a header. -/
def fragLen (pkt : List UInt8) : Int := (ipLen pkt : Int) - IP_HDR_SIZE

/-- `NetCksum`, on 16-bit words of the host. -/
def netCksum (pkt : List UInt8) (len : Nat) : Nat :=
  let xsum := ((List.range len).map fun i => (byteAt pkt (2 * i)).toNat + (byteAt pkt (2 * i + 1)).toNat * 256).sum
  let xsum := xsum % 2 ^ 16 + xsum / 2 ^ 16
  let xsum := xsum % 2 ^ 16 + xsum / 2 ^ 16
  xsum % 2 ^ 16

def netCksumOk (pkt : List UInt8) (len : Nat) : Bool := (netCksum pkt len + 1) % 2 ^ 16 / 2 = 0

/-- The checks of `NetReceive` on an IP packet, whichever its destination, and the one of `NetDefragment` that it is a fragment. -/
def netReceiveOk (pkt : List UInt8) : Bool :=
  IP_UDP_HDR_SIZE ≤ pkt.length && ipLen pkt ≤ pkt.length && (byteAt pkt 0).toNat / 16 = 4 && (byteAt pkt 0).toNat % 16 ≤ 5 &&
    netCksumOk pkt (IP_HDR_SIZE / 2) && (offset8 pkt ≠ 0 || moreFragments pkt)

/-! ## Hole descriptors -/

/-- `struct hole`, without the unused field. -/
structure Hole where
  lastByte : Nat
  nextHole : Nat
  prevHole : Nat
  deriving DecidableEq, Repr

/-- A `u16` in memory. -/
def get16 (buf : Nat → UInt8) (a : Nat) : Nat := (buf a).toNat + (buf (a + 1)).toNat * 256

def put16 (buf : Nat → UInt8) (a v : Nat) : Nat → UInt8 := store buf a [UInt8.ofNat v, UInt8.ofNat (v / 256)]

/-- The address of `payload[i]` in `pkt_buff`. -/
def holeAddr (i : Nat) : Nat := IP_HDR_SIZE + 8 * i

/-- The descriptor at an index. -/
def holeAt (buf : Nat → UInt8) (i : Nat) : Hole where
  lastByte := get16 buf (holeAddr i)
  nextHole := get16 buf (holeAddr i + 2)
  prevHole := get16 buf (holeAddr i + 4)

def setLastByte (buf : Nat → UInt8) (i v : Nat) : Nat → UInt8 := put16 buf (holeAddr i) v

def setNextHole (buf : Nat → UInt8) (i v : Nat) : Nat → UInt8 := put16 buf (holeAddr i + 2) v

def setPrevHole (buf : Nat → UInt8) (i v : Nat) : Nat → UInt8 := put16 buf (holeAddr i + 4) v

def copyHole (buf : Nat → UInt8) (h newh : Nat) : Nat → UInt8 :=
  store buf (holeAddr newh) ((List.range 8).map fun i => buf (holeAddr h + i))

/-- A descriptor is inside `pkt_buff`. -/
def inBuff (i : Nat) : Bool := holeAddr i + 8 ≤ IP_PKTSIZE

/-- An access to the descriptor at `i`, which has to be inside `pkt_buff`. -/
def access {α : Type} (i : Nat) (x : α) : Option α := if inBuff i then some x else none

/-! ## The algorithm -/

/-- The static variables of `__NetDefragment`. -/
structure Defrag where
  buf : Nat → UInt8
  firstHole : Nat
  totalLen : Nat

/-- A packet that is new or not the one being assembled. -/
def Defrag.isNew (s : Defrag) (pkt : List UInt8) : Bool :=
  s.totalLen = 0 || s.buf 4 ≠ byteAt pkt 4 || s.buf 5 ≠ byteAt pkt 5

/-- A new packet resets the variables, and any header will do. -/
def Defrag.begin (s : Defrag) (pkt : List UInt8) : Defrag :=
  if s.isNew pkt then
    { buf := store (setPrevHole (setNextHole (setLastByte s.buf 0 0xffff) 0 0) 0 0) 0
        ((List.range IP_HDR_SIZE).map (byteAt pkt))
      firstHole := 0
      totalLen := 0xffff }
  else s

/-- The walk to the first hole that ends at `start` or later: its index, or `none` if there is no hole that far away. -/
def findHole (buf : Nat → UInt8) (start : Nat) : Nat → Nat → Option (Option Nat)
  | 0, _ => none
  | fuel + 1, h => do
    let d ← access h (holeAt buf h)
    if d.lastByte < start then
      if d.nextHole = 0 then some none else findHole buf start fuel d.nextHole
    else some (some h)

/-- Complete overlap with a hole: remove it. The result says whether it was the last one. -/
def Defrag.removeHole (s : Defrag) (d : Hole) : Option (Defrag × Bool) :=
  if d.prevHole = 0 ∧ d.nextHole = 0 then some (s, true)
  else if d.prevHole = 0 then do
    let buf ← access d.nextHole (setPrevHole s.buf d.nextHole 0)
    some ({ s with buf := buf, firstHole := d.nextHole }, false)
  else if d.nextHole = 0 then do
    let buf ← access d.prevHole (setNextHole s.buf d.prevHole 0)
    some ({ s with buf := buf }, false)
  else do
    let buf ← access d.nextHole (setPrevHole s.buf d.nextHole d.prevHole)
    let buf ← access d.prevHole (setNextHole buf d.prevHole d.nextHole)
    some ({ s with buf := buf }, false)

/-- The link back from the hole at `n`, if that is not 0. -/
def linkBack (buf : Nat → UInt8) (n v : Nat) : Option (Nat → UInt8) :=
  if n ≠ 0 then access n (setPrevHole buf n v) else some buf

/-- Overlap with the initial part of a hole: move it. -/
def Defrag.moveHole (s : Defrag) (h newh : Nat) : Option Defrag := do
  let buf ← access newh (copyHole s.buf h newh)
  let buf ← linkBack buf (holeAt buf newh).nextHole newh
  let prev := (holeAt buf newh).prevHole
  if prev ≠ 0 then do
    let buf ← access prev (setNextHole buf prev newh)
    some { s with buf := buf }
  else some { s with buf := buf, firstHole := newh }

/-- The fragment sits in the middle: split the hole. -/
def Defrag.splitHole (s : Defrag) (h newh start : Nat) : Option Defrag := do
  let buf ← access newh (copyHole s.buf h newh)
  let buf := setPrevHole (setNextHole (setLastByte buf h start) h newh) newh h
  let buf ← linkBack buf (holeAt buf newh).nextHole newh
  some { s with buf := buf }

/-- Fix the hole list for a fragment that overlaps hole `h`. -/
def Defrag.fixHoles (s : Defrag) (h : Nat) (pkt : List UInt8) : Option (Defrag × Bool) :=
  let start := fragStart pkt
  let fin := (start : Int) + fragLen pkt
  let d := holeAt s.buf h
  let newh := ((offset8 pkt : Int) + (fragLen pkt).tdiv 8).toNat
  if offset8 pkt ≤ h ∧ (d.lastByte : Int) ≤ fin then s.removeHole d
  else if (d.lastByte : Int) ≤ fin then some ({ s with buf := setLastByte s.buf h start }, false)
  else if offset8 pkt ≤ h then (s.moveHole h newh).map fun s => (s, false)
  else (s.splitHole h newh start).map fun s => (s, false)

/-- Without the flag for more fragments: truncate this hole. -/
def Defrag.truncateHole (s : Defrag) (h : Nat) (pkt : List UInt8) : Defrag :=
  if moreFragments pkt then s
  else
    let fin := ((fragStart pkt : Int) + fragLen pkt).toNat
    { s with totalLen := fin % 2 ^ 16, buf := setLastByte s.buf h fin }

/-- `memcpy` of the fragment. A negative length is one of almost 2^32. -/
def Defrag.copyFragment (s : Defrag) (pkt : List UInt8) : Option Defrag :=
  if 0 ≤ fragLen pkt ∧ (IP_HDR_SIZE + fragStart pkt : Int) + fragLen pkt ≤ IP_PKTSIZE then
    some { s with
      buf := store s.buf (IP_HDR_SIZE + fragStart pkt) ((pkt.drop IP_HDR_SIZE).take (fragLen pkt).toNat) }
  else none

/-- The packet is complete: its length goes into its header. -/
def Defrag.finish (s : Defrag) : Defrag :=
  { s with buf := store s.buf 2 [UInt8.ofNat (s.totalLen / 256), UInt8.ofNat s.totalLen] }

/-- What follows once the hole is found that the fragment overlaps with. -/
def Defrag.addFragment (s : Defrag) (h : Nat) (pkt : List UInt8) : Option (Defrag × Option Nat) := do
  let (s, done) ← (s.truncateHole h pkt).fixHoles h pkt
  let s ← s.copyFragment pkt
  if done then some (s.finish, some (s.totalLen + IP_HDR_SIZE)) else some (s, none)

/-- `start + len > IP_MAXUDP`, a comparison of `unsigned`s. -/
def tooFar (pkt : List UInt8) : Bool :=
  (fragStart pkt : Int) + fragLen pkt < 0 || (IP_MAXUDP : Int) < (fragStart pkt : Int) + fragLen pkt

/-- No overlap with hole `h`. -/
def noOverlap (pkt : List UInt8) (h : Nat) : Bool := (offset8 pkt : Int) + (fragLen pkt + 7).tdiv 8 ≤ h

/-- `__NetDefragment`: the variables after it, and `*lenp` if it returns the packet in `pkt_buff`. -/
def Defrag.netDefragment (s : Defrag) (pkt : List UInt8) : Option (Defrag × Option Nat) :=
  if tooFar pkt then some (s, none)
  else
    let s := s.begin pkt
    match findHole s.buf (fragStart pkt) (2 ^ 16) s.firstHole with
    | none => none
    | some none => some (s, none)
    | some (some h) => if noOverlap pkt h then some (s, none) else s.addFragment h pkt

end

/-!
## A payload in fragments

A payload cut into fragments as a router cuts it, where each begins, and which bytes are missing when some were received.
-/

section

open Lib

/-- The fragments of a payload: at least two, none empty, and all but the last of a multiple of 8 bytes. -/
structure Fragments where
  parts : List (List UInt8)
  two : 2 ≤ parts.length
  nonempty : ∀ p ∈ parts, p ≠ []
  aligned : ∀ p ∈ parts.dropLast, p.length % 8 = 0
  fits : parts.flatten.length ≤ IP_MAXUDP

/-- The whole payload. -/
def Fragments.payload (f : Fragments) : List UInt8 := f.parts.flatten

def Fragments.count (f : Fragments) : Nat := f.parts.length

/-- The bytes of a fragment. -/
def Fragments.part (f : Fragments) (k : Nat) : List UInt8 := f.parts.getD k []

/-- Where a fragment begins. -/
def Fragments.offset (f : Fragments) (k : Nat) : Nat := (f.parts.take k).flatten.length

/-- A packet that carries fragment `k` with an `ip_id`. -/
structure Fragments.Carries (f : Fragments) (id k : Nat) (pkt : List UInt8) : Prop where
  lt_count : k < f.count
  ipId : ipId pkt = id
  ipLen : ipLen pkt = IP_HDR_SIZE + (f.part k).length
  offset8 : 8 * offset8 pkt = f.offset k
  more : moreFragments pkt = decide (k + 1 < f.count)
  data : (pkt.drop IP_HDR_SIZE).take (f.part k).length = f.part k

/-- All fragments are among the received ones. -/
def Fragments.Complete (f : Fragments) (received : List Nat) : Prop := ∀ k < f.count, k ∈ received

namespace DefragAux

variable {f : Fragments} {j k x : Nat} {received : List Nat}

/-! ## Offsets -/

theorem part_mem (hk : k < f.count) : f.part k ∈ f.parts := by
  rw [Fragments.part, getD_eq_getElem _ _ hk]
  exact getElem_mem hk

theorem length_part_pos (hk : k < f.count) : 0 < (f.part k).length :=
  length_pos_of_ne_nil (f.nonempty _ (part_mem hk))

theorem take_succ_part (hk : k < f.count) : f.parts.take (k + 1) = f.parts.take k ++ [f.part k] := by
  rw [Fragments.part, getD_eq_getElem _ _ hk, take_succ_eq_append_getElem hk]

theorem offset_succ (hk : k < f.count) : f.offset (k + 1) = f.offset k + (f.part k).length := by
  rw [Fragments.offset, take_succ_part hk, flatten_append, length_append, flatten_cons, flatten_nil, append_nil]
  rfl

theorem offset_zero (f : Fragments) : f.offset 0 = 0 := rfl

theorem offset_count (f : Fragments) : f.offset f.count = f.payload.length := by
  rw [Fragments.offset, Fragments.count, take_length]
  rfl

theorem offset_lt (hjk : j < k) (hk : k ≤ f.count) : f.offset j < f.offset k := by
  induction k with
  | zero => exact absurd hjk (Nat.not_lt_zero j)
  | succ k ih =>
    have hs := offset_succ hk
    have hp := length_part_pos (f := f) hk
    rcases Nat.lt_succ_iff_lt_or_eq.1 hjk with hlt | rfl
    · have := ih hlt (Nat.le_of_succ_le hk)
      omega
    · omega

theorem offset_lt_succ (hk : k < f.count) : f.offset k < f.offset (k + 1) := offset_lt (Nat.lt_succ_self k) hk

theorem offset_le (hjk : j ≤ k) (hk : k ≤ f.count) : f.offset j ≤ f.offset k := by
  rcases Nat.lt_or_eq_of_le hjk with hlt | rfl
  · exact (offset_lt hlt hk).le
  · exact le_rfl

theorem offset_le_payload (hk : k ≤ f.count) : f.offset k ≤ f.payload.length := by
  rw [← offset_count]
  exact offset_le hk le_rfl

/-- Every fragment begins at a multiple of 8 bytes. -/
theorem offset_mod (hk : k < f.count) : f.offset k % 8 = 0 := by
  induction k with
  | zero => rfl
  | succ k ih =>
    have hk' : k < f.count := Nat.lt_of_succ_lt hk
    have hm : f.part k ∈ f.parts.dropLast := by
      have hlt : k < f.parts.dropLast.length := by
        rw [length_dropLast]
        exact Nat.lt_sub_of_add_lt hk
      have he : f.part k = f.parts.dropLast[k] := by
        rw [getElem_dropLast, Fragments.part, getD_eq_getElem _ _ hk']
        rfl
      rw [he]
      exact getElem_mem hlt
    have h1 := ih hk'
    have h2 := f.aligned _ hm
    rw [offset_succ hk']
    omega

theorem eq_of_mem_part (hj : j < f.count) (hk : k < f.count) (hxj : f.offset j ≤ x ∧ x < f.offset (j + 1))
    (hxk : f.offset k ≤ x ∧ x < f.offset (k + 1)) : j = k := by
  rcases Nat.lt_trichotomy j k with h | h | h
  · have hle : f.offset (j + 1) ≤ f.offset k := offset_le h hk.le
    omega
  · exact h
  · have hle : f.offset (k + 1) ≤ f.offset j := offset_le h hj.le
    omega

theorem exists_part (hx : x < f.payload.length) : ∃ k < f.count, f.offset k ≤ x ∧ x < f.offset (k + 1) := by
  have hex : ∀ n ≤ f.count, x < f.offset n → ∃ k < n, f.offset k ≤ x ∧ x < f.offset (k + 1) := by
    intro n
    induction n with
    | zero => exact fun _ h => absurd h (Nat.not_lt_zero x)
    | succ n ih =>
      intro hn hx
      rcases Nat.lt_or_ge x (f.offset n) with hlt | hge
      · obtain ⟨k, hk, h⟩ := ih (Nat.le_of_succ_le hn) hlt
        exact ⟨k, Nat.lt_succ_of_lt hk, h⟩
      · exact ⟨n, Nat.lt_succ_self n, hge, hx⟩
  exact hex f.count le_rfl (by rw [offset_count]; exact hx)

theorem stored_payload {buf : Nat → UInt8} {a : Nat} (h : ∀ k < f.count, Stored buf (a + f.offset k) (f.part k)) : Stored buf a f.payload := by
  have htake : ∀ n ≤ f.count, Stored buf a (f.parts.take n).flatten := by
    intro n
    induction n with
    | zero => exact fun _ => stored_nil buf a
    | succ n ih =>
      intro hn
      rw [take_succ_part hn, flatten_append, stored_append, flatten_cons, flatten_nil, append_nil]
      exact ⟨ih (Nat.le_of_succ_le hn), h n hn⟩
  have hall := htake f.count le_rfl
  rwa [Fragments.count, take_length] at hall

/-! ## Missing bytes -/

/-- Where the payload may end: where the last fragment says, or anywhere. -/
def limit (f : Fragments) (received : List Nat) : Nat := if f.count - 1 ∈ received then f.payload.length else 65535

/-- A byte that is in no received fragment, and not known to be behind the end. -/
def Missing (f : Fragments) (received : List Nat) (x : Nat) : Prop :=
  x < limit f received ∧ ∀ k ∈ received, ¬(f.offset k ≤ x ∧ x < f.offset (k + 1))

theorem payload_le_limit (f : Fragments) (received : List Nat) : f.payload.length ≤ limit f received := by
  unfold limit
  split
  · exact le_rfl
  · exact f.fits.trans (by decide)

theorem missing_offset_iff (hk : k < f.count) (hr : ∀ j ∈ received, j < f.count) : Missing f received (f.offset k) ↔ k ∉ received := by
  have hlt := offset_lt_succ hk
  constructor
  · intro hm hmem
    exact hm.2 k hmem ⟨le_rfl, hlt⟩
  · intro hmem
    have hlt' := offset_le_payload (f := f) hk
    refine ⟨lt_of_lt_of_le (lt_of_lt_of_le hlt hlt') (payload_le_limit f received), ?_⟩
    intro j hj hin
    obtain rfl := eq_of_mem_part (hr j hj) hk hin ⟨le_rfl, hlt⟩
    exact hmem hj

theorem complete_iff (hr : ∀ j ∈ received, j < f.count) : f.Complete received ↔ ∀ x, ¬Missing f received x := by
  constructor
  · intro hc x hm
    have hlast : f.count - 1 ∈ received := hc _ (Nat.sub_lt (Nat.lt_of_lt_of_le Nat.zero_lt_two f.two) Nat.one_pos)
    have hx := hm.1
    rw [limit, if_pos hlast] at hx
    obtain ⟨k, hk, hin⟩ := exists_part hx
    exact hm.2 k (hc k hk) hin
  · intro hn k hk
    by_contra hmem
    exact hn _ ((missing_offset_iff hk hr).2 hmem)

end DefragAux

end

end UBoot
