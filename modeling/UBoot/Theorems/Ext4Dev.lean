import UBoot.Ext4Dev

/-!
# What is read from the device of an ext4 file system

A read of `ext4fs_devread` is cut into the end of a sector, whole sectors, and the beginning of a sector.
-/

namespace UBoot

open List

namespace Ext4Dev

variable {dev : Ext4BlockDev} {start size sector pos byteOffset byteLen len p k s n d m : Nat} {buf : Nat → UInt8} {calls : List DevCall}
  {inRange : Prop}
variable {buf' : Nat → UInt8}

/-- A byte of the partition. -/
def partByte (dev : Ext4BlockDev) (start x : Nat) : UInt8 := dev.sectors (add32 start (x / 512)) (x % 512)

/-- The first bytes at `buf` are those of the partition from byte `p` on. -/
def Filled (dev : Ext4BlockDev) (start p : Nat) (buf : Nat → UInt8) (n : Nat) : Prop := ∀ j < n, buf j = partByte dev start (p + j)

/-- A call of `block_read` reads sectors of the partition. -/
def Inside (start size : Nat) (call : DevCall) : Prop := ∀ i < call.blkcnt, ∃ s < size, add32 call.start i = add32 start s

/-- A read is exact: a result other than 0 stands for the bytes of the partition, no call reads outside the partition, nothing is written
behind the bytes asked for, and a range that is not inside the partition is refused. -/
structure Exact (dev : Option Ext4BlockDev) (start size : Nat) (sector : Int) (byteOffset byteLen : Nat) (buf : Nat → UInt8)
    (r : Nat × DevRead) : Prop where
  right : r.1 ≠ 0 → (∀ call ∈ r.2.calls, call.answer = call.blkcnt) ∧
    ∃ d, dev = some d ∧ Filled d start (512 * sector + byteOffset).toNat r.2.buf byteLen
  inside : ∀ call ∈ r.2.calls, Inside start size call
  bounded : ∀ j, byteLen ≤ j → r.2.buf j = buf j
  refused : ¬(0 ≤ 512 * sector + byteOffset ∧ 512 * sector + byteOffset + byteLen ≤ 512 * size) → r.1 = 0

/-- What is asked of a read on a device, from byte `p` of the partition on. -/
structure Good (dev : Ext4BlockDev) (start size p len : Nat) (buf : Nat → UInt8) (r : Nat × DevRead) : Prop where
  right : r.1 ≠ 0 → (∀ call ∈ r.2.calls, call.answer = call.blkcnt) ∧ Filled dev start p r.2.buf len
  inside : ∀ call ∈ r.2.calls, Inside start size call
  bounded : ∀ j, len ≤ j → r.2.buf j = buf j
  refused : ¬p + len ≤ 512 * size → r.1 = 0

/-- `block_read` does not read all the sectors. -/
abbrev Fails (dev : Ext4BlockDev) (call start sector blkcnt : Nat) : Prop := (dev.blockRead call (add32 start sector) blkcnt).1 ≠ blkcnt

/-! ## Single calls -/

theorem add32_add32 (a b c : Nat) : add32 (add32 a b) c = add32 a (b + c) := by
  unfold add32
  rw [Nat.mod_add_mod, Nat.add_assoc]

theorem add32_cancel {a b c : Nat} (hb : b < 2 ^ 32) (hc : c < 2 ^ 32) (h : add32 a b = add32 a c) : b = c := by
  unfold add32 at h
  omega

theorem read_byte {j : Nat} (hok : ¬Fails dev k start s n) (hj : j < 512 * n) :
    (dev.blockRead k (add32 start s) n).2[j]? = some (partByte dev start (512 * s + j)) := by
  have hlen : j < (dev.blockRead k (add32 start s) n).2.length := by rwa [dev.length_read]
  rw [getElem?_eq_getElem hlen, dev.read_ok k (add32 start s) n (Decidable.of_not_not hok) j hlen, add32_add32, partByte,
    Nat.mul_add_div (by decide), Nat.mul_add_mod]

theorem Filled.copy (h : Filled dev start p buf pos) (hok : ¬Fails dev k start s n) (hpos : p + pos = 512 * s + d) (hm : d + m ≤ 512 * n) :
    Filled dev start p (Lib.store buf pos (((dev.blockRead k (add32 start s) n).2.drop d).take m)) (pos + m) := by
  intro j hj
  rcases Nat.lt_or_ge j pos with hlt | hge
  · rw [Lib.store_of_outside (Or.inl hlt)]
    exact h j hlt
  · obtain ⟨i, rfl⟩ := Nat.exists_eq_add_of_le hge
    refine Lib.stored_store _ _ _ i _ ?_
    rw [getElem?_take_of_lt (by omega), getElem?_drop, read_byte hok (by omega)]
    congr 2
    omega

theorem take_le (pos n : Nat) (data : List UInt8) : pos + (data.take n).length ≤ pos + n :=
  Nat.add_le_add_left (length_take_le n data) pos

theorem copy_bounded (h : ∀ j, len ≤ j → buf j = buf' j) (pos : Nat) (data : List UInt8) (hdata : pos + data.length ≤ len) :
    ∀ j, len ≤ j → Lib.store buf pos data j = buf' j := by
  intro j hj
  rw [Lib.store_of_outside (Or.inr (by omega))]
  exact h j hj

theorem inside_iff (start answer : Nat) (hn : 0 < n) (hend : s + n ≤ 2 ^ 32) (hsize : size < 2 ^ 32) :
    Inside start size ⟨add32 start s, n, answer⟩ ↔ s + n ≤ size := by
  constructor
  · intro h
    obtain ⟨s', hs', heq⟩ := h (n - 1) (Nat.sub_lt hn Nat.one_pos)
    rw [add32_add32] at heq
    have hlast : s + (n - 1) = s' := add32_cancel (by omega) (by omega) heq
    omega
  · intro h i hi
    exact ⟨s + i, Nat.lt_of_lt_of_le (Nat.add_lt_add_left hi s) h, add32_add32 start s i⟩

theorem good_zero_iff (hbuf : ∀ j, len ≤ j → buf' j = buf j) :
    Good dev start size p len buf (0, ⟨buf', calls⟩) ↔ ∀ call ∈ calls, Inside start size call := by
  constructor
  · exact fun h => h.inside
  · exact fun h => ⟨fun hne => absurd rfl hne, h, hbuf, fun _ => rfl⟩

theorem good_one_iff (hbuf : ∀ j, len ≤ j → buf' j = buf j) (hcalls : ∀ call ∈ calls, call.answer = call.blkcnt)
    (hfilled : Filled dev start p buf' len) (hinside : p + len ≤ 512 * size → ∀ call ∈ calls, Inside start size call) :
    Good dev start size p len buf (1, ⟨buf', calls⟩) ↔ p + len ≤ 512 * size := by
  constructor
  · exact fun h => Decidable.of_not_not fun hout => absurd (h.refused hout) Nat.one_ne_zero
  · exact fun h => ⟨fun _ => ⟨hcalls, hfilled⟩, hinside h, hbuf, fun hout => absurd h hout⟩

theorem forall_mem_concat {P : DevCall → Prop} {call : DevCall} : (∀ c ∈ calls ++ [call], P c) ↔ (∀ c ∈ calls, P c) ∧ P call := by
  simp only [mem_append, mem_singleton, or_imp, forall_and, forall_eq]

theorem calls_concat (hcalls : ∀ call ∈ calls, call.answer = call.blkcnt) (hok : ¬Fails dev k start s n) :
    ∀ call ∈ calls ++ [⟨add32 start s, n, (dev.blockRead k (add32 start s) n).1⟩], call.answer = call.blkcnt :=
  forall_mem_concat.mpr ⟨hcalls, Decidable.of_not_not hok⟩

/-! ## The aligned part -/

/-- The rest is less than a sector, and its sector is not read. -/
def RestFails (dev : Ext4BlockDev) (call start sector byteLen : Nat) : Prop := 0 < byteLen ∧ byteLen < 512 ∧ Fails dev call start sector 1

/-- The whole sectors are in the partition, and are not read. -/
def WholeFails (dev : Ext4BlockDev) (call start size sector byteLen : Nat) : Prop :=
  512 ≤ byteLen ∧ sector + byteLen / 512 ≤ size ∧ Fails dev call start sector (byteLen / 512)

/-- The beginning of a last sector, behind whole sectors that were read. -/
theorem tail_iff (hsize : size < 2 ^ 32) (hend : sector + 1 ≤ 2 ^ 32) (hrest : n < 512) (hpos : p + pos = 512 * sector)
    (hfilled : Filled dev start p buf' pos) (hbuf : ∀ j, pos + n ≤ j → buf' j = buf j)
    (hcalls : ∀ call ∈ calls, call.answer = call.blkcnt) (hinside : sector ≤ size → ∀ call ∈ calls, Inside start size call) :
    Good dev start size p (pos + n) buf (if n ≠ 0 then
          if (dev.blockRead k (add32 start sector) 1).1 ≠ 1 then
            (0, ⟨buf', calls ++ [⟨add32 start sector, 1, (dev.blockRead k (add32 start sector) 1).1⟩]⟩)
          else
            (1, ⟨Lib.store buf' pos ((dev.blockRead k (add32 start sector) 1).2.take n),
              calls ++ [⟨add32 start sector, 1, (dev.blockRead k (add32 start sector) 1).1⟩]⟩)
        else (1, ⟨buf', calls⟩)) ↔
      p + (pos + n) ≤ 512 * size := by
  by_cases hn : n = 0
  · rw [if_neg (not_not.mpr hn), good_one_iff hbuf hcalls (hn ▸ hfilled) fun hin => hinside (by omega)]
  rw [if_pos hn]
  have hlast (answer : Nat) := inside_iff start answer Nat.one_pos hend hsize
  by_cases hok : Fails dev k start sector 1
  · rw [if_pos hok, good_zero_iff hbuf, forall_mem_concat, hlast]
    constructor
    · rintro ⟨-, hle⟩
      omega
    · exact fun hle => ⟨hinside (by omega), by omega⟩
  · have hfilled' := hfilled.copy hok (show p + pos = 512 * sector + 0 by omega) (show 0 + n ≤ 512 * 1 by omega)
    rw [drop_zero] at hfilled'
    rw [if_neg hok, good_one_iff (copy_bounded hbuf pos _ (take_le pos n _)) (calls_concat hcalls hok) hfilled'
      fun hin => forall_mem_concat.mpr ⟨hinside (by omega), (hlast _).mpr (by omega)⟩]

/-- The aligned part of a read, behind a part that was read: it goes wrong if the rest is less than a sector and is not read, or if the
range goes on behind the partition and the whole sectors are read before that is noticed. -/
theorem aligned_iff (hsize : size < 2 ^ 32) (hend : sector + byteLen / 512 + 1 ≤ 2 ^ 32) (hpos : 0 < byteLen → p + pos = 512 * sector)
    (st : DevRead) (hfilled : Filled dev start p st.buf pos) (hbuf : ∀ j, pos + byteLen ≤ j → st.buf j = buf j)
    (hcalls : ∀ call ∈ st.calls, call.answer = call.blkcnt) (hinside : ∀ call ∈ st.calls, Inside start size call) :
    Good dev start size p (pos + byteLen) buf (devreadAligned dev start sector pos byteLen st) ↔
      ¬RestFails dev st.calls.length start sector byteLen ∧
        (p + (pos + byteLen) ≤ 512 * size ∨ WholeFails dev st.calls.length start size sector byteLen) := by
  rcases Nat.eq_zero_or_pos byteLen with rfl | hpositive
  · rw [devreadAligned, if_pos rfl, good_one_iff hbuf hcalls hfilled fun _ => hinside]
    simp [RestFails, WholeFails]
  replace hpos := hpos hpositive
  rcases Nat.lt_or_ge byteLen 512 with hshort | hlong
  · have hblock : byteLen - byteLen % 512 = 0 := by omega
    rw [devreadAligned, if_neg (Nat.ne_of_gt hpositive)]
    simp only [hblock, if_true]
    have hbuf' := copy_bounded hbuf pos ((dev.blockRead st.calls.length (add32 start sector) 1).2.take byteLen) (take_le _ _ _)
    have hnew := inside_iff start (dev.blockRead st.calls.length (add32 start sector) 1).1 Nat.one_pos (show sector + 1 ≤ 2 ^ 32 by omega) hsize
    by_cases hok : Fails dev st.calls.length start sector 1
    · refine iff_of_false (fun h => hok ?_) (fun h => h.1 ⟨hpositive, hshort, hok⟩)
      exact (forall_mem_concat.mp (h.right Nat.one_ne_zero).1).2
    · have hfilled' := hfilled.copy hok (show p + pos = 512 * sector + 0 by omega) (show 0 + byteLen ≤ 512 * 1 by omega)
      rw [drop_zero] at hfilled'
      rw [good_one_iff hbuf' (calls_concat hcalls hok) hfilled' fun hin => forall_mem_concat.mpr ⟨hinside, hnew.mpr (by omega)⟩]
      simp [RestFails, WholeFails, hok, Nat.not_le.mpr hshort]
  · have hblock : byteLen - byteLen % 512 = 512 * (byteLen / 512) := by omega
    have hrest : byteLen - 512 * (byteLen / 512) = byteLen % 512 := by omega
    have hcount : 512 * (byteLen / 512) / 512 = byteLen / 512 := Nat.mul_div_cancel_left _ (by decide)
    have hwhole : 512 * (byteLen / 512) ≠ 0 := by omega
    rw [devreadAligned, if_neg (Nat.ne_of_gt hpositive)]
    simp only [hblock, hcount, hrest, if_neg hwhole]
    have hbuf' := copy_bounded hbuf pos (dev.blockRead st.calls.length (add32 start sector) (byteLen / 512)).2 (by rw [dev.length_read]; omega)
    have hin (answer : Nat) := inside_iff start answer (show 0 < byteLen / 512 by omega) (show sector + byteLen / 512 ≤ 2 ^ 32 by omega) hsize
    by_cases hok : Fails dev st.calls.length start sector (byteLen / 512)
    · rw [if_pos hok, good_zero_iff hbuf', forall_mem_concat, hin]
      constructor
      · exact fun h => ⟨fun hrestFails => absurd hrestFails.2.1 (Nat.not_lt.mpr hlong), Or.inr ⟨hlong, h.2, hok⟩⟩
      · rintro ⟨-, hin | hfails⟩
        · exact ⟨hinside, by omega⟩
        · exact ⟨hinside, hfails.2.1⟩
    · have hfilled' := hfilled.copy hok (show p + pos = 512 * sector + 0 by omega)
        (show 0 + 512 * (byteLen / 512) ≤ 512 * (byteLen / 512) by omega)
      rw [drop_zero, take_of_length_le (Nat.le_of_eq (dev.length_read _ _ _))] at hfilled'
      have htail := tail_iff (n := byteLen % 512) (k := (st.calls ++ [(⟨add32 start sector, byteLen / 512,
          (dev.blockRead st.calls.length (add32 start sector) (byteLen / 512)).1⟩ : DevCall)]).length) hsize
        (show sector + byteLen / 512 + 1 ≤ 2 ^ 32 from hend) (Nat.mod_lt _ (by decide)) (by omega) hfilled'
        (by rwa [Nat.add_assoc, Nat.div_add_mod]) (calls_concat hcalls hok) fun hle => forall_mem_concat.mpr ⟨hinside, (hin _).mpr hle⟩
      rw [Nat.add_assoc, Nat.div_add_mod] at htail
      rw [if_neg hok, htail]
      simp only [RestFails, WholeFails, hok, Nat.not_lt.mpr hlong, false_and, and_false, not_false_eq_true, true_and, or_false]

theorem calls_subset (st : DevRead) : ∀ call ∈ st.calls, call ∈ (devreadAligned dev start sector pos byteLen st).2.calls := by
  intro call hcall
  simp only [devreadAligned]
  split
  · exact hcall
  split
  · exact mem_append_left _ hcall
  split
  · exact mem_append_left _ hcall
  split
  · split <;> exact mem_append_left _ (mem_append_left _ hcall)
  · exact mem_append_left _ hcall

/-! ## The whole read -/

/-- The number of bytes that are read before the first whole sector. -/
def headLen (byteOffset byteLen : Nat) : Nat := if byteOffset % 512 = 0 then 0 else min (512 - byteOffset % 512) byteLen

/-- The number of calls for these bytes. -/
def headCalls (byteOffset : Nat) : Nat := if byteOffset % 512 = 0 then 0 else 1

/-- The range begins within a sector, and that sector is not read. -/
def HeadFails (dev : Ext4BlockDev) (start sector byteOffset : Nat) : Prop :=
  byteOffset % 512 ≠ 0 ∧ Fails dev 0 start (sector + byteOffset / 512) 1

/-- A rest of less than a sector is come to, and its sector is not read. -/
def Unnoticed (dev : Ext4BlockDev) (start sector byteOffset byteLen : Nat) : Prop :=
  ¬HeadFails dev start sector byteOffset ∧
    RestFails dev (headCalls byteOffset) start (sector + byteOffset / 512 + headCalls byteOffset) (byteLen - headLen byteOffset byteLen)

/-- A call that reads sectors of the partition only fails. -/
def StopsInside (dev : Ext4BlockDev) (start size sector byteOffset byteLen : Nat) : Prop :=
  HeadFails dev start sector byteOffset ∧ sector + byteOffset / 512 < size ∨ ¬HeadFails dev start sector byteOffset ∧
      WholeFails dev (headCalls byteOffset) start size (sector + byteOffset / 512 + headCalls byteOffset) (byteLen - headLen byteOffset byteLen)

theorem headed_iff (hsize : size < 2 ^ 32) (hsector : sector < 2 ^ 31) (hoffset : byteOffset < 2 ^ 31)
    (hpositive : 0 < byteLen) (hlen : byteLen < 2 ^ 31)
    (hok : ¬Fails dev 0 start (sector + byteOffset / 512) 1) (hn : n = min (512 - byteOffset % 512) byteLen) :
    Good dev start size (512 * sector + byteOffset) byteLen buf (devreadAligned dev start (sector + byteOffset / 512 + 1) n (byteLen - n)
          ⟨Lib.store buf 0 (((dev.blockRead 0 (add32 start (sector + byteOffset / 512)) 1).2.drop (byteOffset % 512)).take n),
            [⟨add32 start (sector + byteOffset / 512), 1, (dev.blockRead 0 (add32 start (sector + byteOffset / 512)) 1).1⟩]⟩) ↔
      ¬RestFails dev 1 start (sector + byteOffset / 512 + 1) (byteLen - n) ∧ (512 * sector + byteOffset + byteLen ≤ 512 * size ∨
          WholeFails dev 1 start size (sector + byteOffset / 512 + 1) (byteLen - n)) := by
  have hhead := inside_iff start (dev.blockRead 0 (add32 start (sector + byteOffset / 512)) 1).1 Nat.one_pos
    (show sector + byteOffset / 512 + 1 ≤ 2 ^ 32 by omega) hsize
  rcases Nat.lt_or_ge (sector + byteOffset / 512) size with hlt | hge
  · have hfilled : Filled dev start (512 * sector + byteOffset) buf 0 := fun j hj => absurd hj (Nat.not_lt_zero j)
    have hfilled' := hfilled.copy (m := n) hok
      (show 512 * sector + byteOffset + 0 = 512 * (sector + byteOffset / 512) + byteOffset % 512 by omega) (by omega)
    rw [Nat.zero_add] at hfilled'
    have hsum : n + (byteLen - n) = byteLen := by omega
    have hpos : 0 < byteLen - n → 512 * sector + byteOffset + n = 512 * (sector + byteOffset / 512 + 1) := by omega
    have hend : sector + byteOffset / 512 + 1 + (byteLen - n) / 512 + 1 ≤ 2 ^ 32 := by omega
    have hbuf : ∀ j, n + (byteLen - n) ≤ j →
        Lib.store buf 0 (((dev.blockRead 0 (add32 start (sector + byteOffset / 512)) 1).2.drop (byteOffset % 512)).take n) j = buf j :=
      copy_bounded (fun _ _ => rfl) 0 _ (Nat.le_trans (take_le 0 n _) (by omega))
    have hiff := aligned_iff hsize hend hpos ⟨_, [⟨add32 start (sector + byteOffset / 512), 1, _⟩]⟩ hfilled' hbuf
      (fun call hcall => mem_singleton.mp hcall ▸ not_not.mp hok) (fun call hcall => mem_singleton.mp hcall ▸ hhead.mpr hlt)
    rwa [hsum] at hiff
  · refine iff_of_false (fun h => ?_) (fun h => ?_)
    · have := hhead.mp (h.inside _ (calls_subset _ _ (mem_singleton_self _)))
      omega
    · rcases h.2 with hin | hfails
      · omega
      · have := hfails.2.1
        omega

/-- A read that passes the boundary test. -/
theorem passed_iff (hsize : size < 2 ^ 32) (hsector : sector < 2 ^ 31) (hoffset : byteOffset < 2 ^ 31)
    (hpositive : 0 < byteLen) (hlen : byteLen < 2 ^ 31) (htest : outsidePartition size sector byteOffset byteLen = false) :
    Good dev start size (512 * sector + byteOffset) byteLen buf (ext4fsDevread (some dev) start size sector byteOffset byteLen buf) ↔
      ¬Unnoticed dev start sector byteOffset byteLen ∧
        (512 * sector + byteOffset + byteLen ≤ 512 * size ∨ StopsInside dev start size sector byteOffset byteLen) := by
  rw [ext4fsDevread, htest, if_neg Bool.false_ne_true]
  simp only [Int.toNat_natCast, length_nil, nil_append]
  by_cases haligned : byteOffset % 512 = 0
  · have hhead : ¬HeadFails dev start sector byteOffset := fun h => h.1 haligned
    have hfilled : Filled dev start (512 * sector + byteOffset) buf 0 := fun j hj => absurd hj (Nat.not_lt_zero j)
    have hend : sector + byteOffset / 512 + byteLen / 512 + 1 ≤ 2 ^ 32 := by omega
    have hpos : 0 < byteLen → 512 * sector + byteOffset + 0 = 512 * (sector + byteOffset / 512) := by omega
    have hiff := aligned_iff hsize hend hpos ⟨buf, []⟩ hfilled (fun j _ => Eq.refl (buf j)) (by simp) (by simp)
    rw [Nat.zero_add] at hiff
    rw [if_neg (not_not.mpr haligned), hiff]
    simp only [Unnoticed, StopsInside, hhead, headLen, headCalls, if_pos haligned, Nat.add_zero, Nat.sub_zero, length_nil,
      not_false_eq_true, true_and, false_and, false_or]
  · rw [if_pos haligned]
    have hhead (answer : Nat) := inside_iff start answer Nat.one_pos (show sector + byteOffset / 512 + 1 ≤ 2 ^ 32 by omega) hsize
    by_cases hok : Fails dev 0 start (sector + byteOffset / 512) 1
    · have hfails : HeadFails dev start sector byteOffset := ⟨haligned, hok⟩
      rw [if_pos hok, good_zero_iff fun _ _ => rfl]
      simp only [Unnoticed, StopsInside, hfails, mem_singleton, forall_eq, hhead, not_true_eq_false, false_and, not_false_eq_true, true_and,
        or_false]
      omega
    · have hfails : ¬HeadFails dev start sector byteOffset := fun h => hok h.2
      rw [if_neg hok]
      simp only [Unnoticed, StopsInside, hfails, not_false_eq_true, true_and, false_and, false_or, headLen, headCalls, if_neg haligned]
      exact headed_iff hsize hsector hoffset hpositive hlen hok rfl

theorem refused_exact {dev : Option Ext4BlockDev} {sector : Int} : Exact dev start size sector byteOffset byteLen buf (0, ⟨buf, []⟩) :=
  ⟨fun h => absurd rfl h, fun _ h => absurd h not_mem_nil, fun _ _ => rfl, fun _ => rfl⟩

theorem exact_iff_good {r : Nat × DevRead} :
    Exact (some dev) start size sector byteOffset byteLen buf r ↔ Good dev start size (512 * sector + byteOffset) byteLen buf r := by
  have hrange : (0 ≤ 512 * (sector : Int) + byteOffset ∧ 512 * (sector : Int) + byteOffset + byteLen ≤ 512 * size) ↔
      512 * sector + byteOffset + byteLen ≤ 512 * size := by omega
  have hstart : (512 * (sector : Int) + byteOffset).toNat = 512 * sector + byteOffset := by omega
  constructor
  · intro h
    refine ⟨fun hne => ?_, h.inside, h.bounded, fun hout => h.refused (mt hrange.mp hout)⟩
    obtain ⟨hcalls, d, hd, hfilled⟩ := h.right hne
    cases hd
    exact ⟨hcalls, hstart ▸ hfilled⟩
  · intro h
    refine ⟨fun hne => ?_, h.inside, h.bounded, fun hout => h.refused (mt hrange.mpr hout)⟩
    exact ⟨(h.right hne).1, dev, rfl, hstart.symm ▸ (h.right hne).2⟩

/-- The boundary test is right as long as the end of the range is an `int`. -/
theorem inRange_of_passed {sector : Int} (hsector : sector < 2 ^ 31) (hpositive : 0 < byteLen) (hint : byteOffset + byteLen ≤ 2 ^ 31)
    (htest : outsidePartition size sector byteOffset byteLen = false) : 512 * sector + byteOffset + byteLen ≤ 512 * size := by
  rw [outsidePartition, add32_of_lt (by omega), sub32_of_le (by omega) (by omega), toLong_of_lt (by omega)] at htest
  simp only [Bool.or_eq_false_iff, decide_eq_false_iff_not] at htest
  omega

theorem nonneg_of_passed {sector : Int} (htest : outsidePartition size sector byteOffset byteLen = false) : 0 ≤ sector :=
  Int.not_lt.mp (of_decide_eq_false (Bool.or_eq_false_iff.mp htest).1)

end Ext4Dev

/-- A read of `ext4fs_devread` is exact if the sector of a rest that is less than a sector is read, and the boundary test is not misled: the
end of the range is an `int`, or the range is inside the partition, or reading sectors of the partition fails before others are read. -/
theorem ext4fs_devread_iff (dev : Option Ext4BlockDev) (start size : Nat) (sector : Int) (byteOffset byteLen : Nat) (buf : Nat → UInt8)
    (hsize : size < 2 ^ 32) (hsector : sector < 2 ^ 31) (hoffset : byteOffset < 2 ^ 31) (hpositive : 0 < byteLen) (hlen : byteLen < 2 ^ 31) :
    Ext4Dev.Exact dev start size sector byteOffset byteLen buf (ext4fsDevread dev start size sector byteOffset byteLen buf) ↔
      ∀ d, dev = some d → outsidePartition size sector byteOffset byteLen = false → ¬Ext4Dev.Unnoticed d start sector.toNat byteOffset byteLen ∧
          (byteOffset + byteLen ≤ 2 ^ 31 ∨ 512 * sector + byteOffset + byteLen ≤ 512 * size ∨
            Ext4Dev.StopsInside d start size sector.toNat byteOffset byteLen) := by
  cases htest : outsidePartition size sector byteOffset byteLen with
  | true =>
    rw [ext4fsDevread, htest, if_pos rfl]
    exact iff_of_true Ext4Dev.refused_exact fun _ _ h => absurd h Bool.true_eq_false.mp
  | false =>
    obtain ⟨sector, rfl⟩ : ∃ n : Nat, sector = n := Int.eq_ofNat_of_zero_le (Ext4Dev.nonneg_of_passed htest)
    cases dev with
    | none =>
      rw [ext4fsDevread, htest, if_neg Bool.false_ne_true]
      exact iff_of_true Ext4Dev.refused_exact fun _ h => absurd h (by simp)
    | some dev =>
      have hrange : byteOffset + byteLen ≤ 2 ^ 31 → 512 * sector + byteOffset + byteLen ≤ 512 * size := fun hint => by
        have := Ext4Dev.inRange_of_passed hsector hpositive hint htest
        omega
      have hcast : 512 * (sector : Int) + byteOffset + byteLen ≤ 512 * size ↔ 512 * sector + byteOffset + byteLen ≤ 512 * size := by omega
      rw [Ext4Dev.exact_iff_good, Ext4Dev.passed_iff hsize (by omega) hoffset hpositive hlen htest, hcast]
      simp only [Option.some.injEq, forall_eq', forall_const, Int.toNat_natCast]
      refine and_congr_right fun _ => ⟨Or.inr, ?_⟩
      rintro (hint | h)
      · exact Or.inl (hrange hint)
      · exact h

/-- A device whose reads all go well. -/
def wholeDev : Ext4BlockDev where
  sectors := fun a i => UInt8.ofNat (a + i)
  blockRead := fun _ start blkcnt => (blkcnt, (List.range (512 * blkcnt)).map fun i => UInt8.ofNat (add32 start (i / 512) + i % 512))
  length_read := by simp
  read_ok := by simp

/-- A device whose reads all fail. -/
def brokenDev : Ext4BlockDev where
  sectors := fun _ _ => 1
  blockRead := fun _ _ blkcnt => (blkcnt + 1, List.replicate (512 * blkcnt) 0)
  length_read := by simp
  read_ok := by simp

/-- Two bytes within the first sector of a partition of 8 sectors. -/
theorem ext4fs_devread_two : Ext4Dev.Exact (some wholeDev) 2 8 0 1 2 (fun _ => 0) (ext4fsDevread (some wholeDev) 2 8 0 1 2 fun _ => 0) :=
  (ext4fs_devread_iff (some wholeDev) 2 8 0 1 2 (fun _ => 0) (by decide) (by decide) (by decide) (by decide) (by decide)).mpr
    fun _ _ _ => ⟨fun h => absurd h.2.1 (by decide), Or.inl (by decide)⟩

/-- The first four bytes of a partition are not read, and `ext4fs_devread` answers 1. -/
theorem ext4fs_devread_unread : ¬∀ (dev : Option Ext4BlockDev) (start size : Nat) (sector : Int) (byteOffset byteLen : Nat) (buf : Nat → UInt8),
      size < 2 ^ 32 → sector < 2 ^ 31 → byteOffset < 2 ^ 31 → 0 < byteLen → byteLen < 2 ^ 31 →
        Ext4Dev.Exact dev start size sector byteOffset byteLen buf (ext4fsDevread dev start size sector byteOffset byteLen buf) := by
  intro h
  have hexact := h (some brokenDev) 2 8 0 0 4 (fun _ => 0) (by decide) (by decide) (by decide) (by decide) (by decide)
  have hcalls := (hexact.right Nat.one_ne_zero).1
  exact absurd (hcalls ⟨2, 1, 2⟩ (mem_singleton_self _)) (by decide)

end UBoot
