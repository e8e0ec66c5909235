import UBoot.SRecord
import Mathlib

/-!
# An S-record download undoes an upload

Each record that `save_serial` writes is decoded to the address and the bytes it was made of, and the records follow without a gap.
-/

namespace UBoot

open List

namespace SRecordAux

/-! ## Hexadecimal text -/

theorem hex1Bin_digit (h : d < 16) : hex1Bin (UInt8.ofNat (if d < 10 then 0x30 + d else 0x41 + (d - 10))) = some d := by
  have hall : ∀ d < 16, hex1Bin (UInt8.ofNat (if d < 10 then 0x30 + d else 0x41 + (d - 10))) = some d := by decide
  exact hall d h

theorem hex2Bin_hexByte (b : UInt8) (rest : List UInt8) : hex2Bin (hexByte b ++ rest) = some b := by
  have hb := b.toNat_lt
  have hhigh := hex1Bin_digit (show b.toNat / 16 < 16 by omega)
  have hlow := hex1Bin_digit (show b.toNat % 16 < 16 by omega)
  simp only [hexByte, cons_append, nil_append, hex2Bin, hhigh, hlow]
  rw [Nat.div_add_mod', UInt8.ofNat_toNat]

theorem drop_hexByte (b : UInt8) (rest : List UInt8) : (hexByte b ++ rest).drop 2 = rest := rfl

theorem hexBytes_flatMap (bs rest : List UInt8) : hexBytes bs.length (bs.flatMap hexByte ++ rest) = some (bs, rest) := by
  induction bs with
  | nil => rfl
  | cons b bs ih =>
    rw [flatMap_cons, append_assoc, length_cons, hexBytes, hex2Bin_hexByte, drop_hexByte, ih]
    rfl

theorem hexByte_ge (b : UInt8) : ∀ c ∈ hexByte b, 0x30 ≤ c := by
  have hall : ∀ d < 16, (0x30 : UInt8) ≤ UInt8.ofNat (if d < 10 then 0x30 + d else 0x41 + (d - 10)) := by decide
  have hb := b.toNat_lt
  intro c hc
  simp only [hexByte, mem_cons, not_mem_nil, or_false] at hc
  rcases hc with rfl | rfl
  · exact hall _ (by omega)
  · exact hall _ (by omega)

theorem flatMap_hexByte_ge (bs : List UInt8) : ∀ c ∈ bs.flatMap hexByte, 0x30 ≤ c := by
  intro c hc
  obtain ⟨b, -, hb⟩ := mem_flatMap.1 hc
  exact hexByte_ge b c hb

theorem length_flatMap_hexByte (bs : List UInt8) : (bs.flatMap hexByte).length = 2 * bs.length := by
  induction bs with
  | nil => rfl
  | cons b bs ih =>
    rw [flatMap_cons, length_append, ih, length_cons]
    simp only [hexByte, length_cons, length_nil]
    omega

/-! ## One record -/

theorem byte_toNat (address : UInt32) {k : Nat} (hk : k < 32) : (address >>> UInt32.ofNat k).toUInt8.toNat = address.toNat / 2 ^ k % 256 := by
  have hmod : (UInt32.ofNat k).toNat % 32 = k := by
    rw [UInt32.toNat_ofNat', Nat.mod_eq_of_lt (show k < 2 ^ 32 by omega), Nat.mod_eq_of_lt hk]
  rw [UInt32.toNat_toUInt8, UInt32.toNat_shiftRight, hmod, Nat.shiftRight_eq_div_pow]

theorem shift_add_toNat (addr : UInt32) (v : UInt8) : (addr <<< 8 + v.toUInt32).toNat = (addr.toNat * 256 + v.toNat) % 2 ^ 32 := by
  rw [UInt32.toNat_add, UInt32.toNat_shiftLeft, UInt8.toNat_toUInt32, Nat.shiftLeft_eq]
  exact (Nat.mod_add_mod _ _ _).symm ▸ rfl

theorem map_toNat_addressBytes (address : UInt32) : (addressBytes address).map UInt8.toNat =
      [address.toNat / 16777216, address.toNat / 65536 % 256, address.toNat / 256 % 256, address.toNat % 256] := by
  have ha := address.toNat_lt
  have h24 := byte_toNat address (show 24 < 32 by decide)
  have h16 := byte_toNat address (show 16 < 32 by decide)
  have h8 := byte_toNat address (show 8 < 32 by decide)
  have h0 : address.toUInt8.toNat = address.toNat % 256 := UInt32.toNat_toUInt8 address
  have hhigh : address.toNat / 2 ^ 24 % 256 = address.toNat / 16777216 := by omega
  rw [hhigh] at h24
  simp only [addressBytes, map_cons, map_nil, h0]
  exact congrArg₂ _ h24 (congrArg₂ _ h16 (congrArg₂ _ h8 rfl))

theorem srecAddr_addressBytes (address : UInt32) : srecAddr (addressBytes address) = address := by
  have ha := address.toNat_lt
  obtain ⟨h24, h16, h8, h0⟩ : _ ∧ _ ∧ _ ∧ _ := by
    simpa only [addressBytes, map_cons, map_nil, List.cons.injEq, and_true] using map_toNat_addressBytes address
  apply UInt32.toNat.inj
  simp only [srecAddr, addressBytes, foldl_cons, foldl_nil, shift_add_toNat, h24, h16, h8, h0, UInt32.toNat_zero]
  omega

/-- The sum of bytes, taken in an `int` and cut to a byte. -/
theorem chksum_eq (bs : List UInt8) : chksum bs = UInt8.ofNat (bs.map UInt8.toNat).sum := by
  have hfold (bs : List UInt8) (n : Nat) : bs.foldl (· + ·) (UInt8.ofNat n) = UInt8.ofNat (n + (bs.map UInt8.toNat).sum) := by
    induction bs generalizing n with
    | nil => rfl
    | cons b bs ih =>
      rw [foldl_cons, map_cons, sum_cons, ← Nat.add_assoc, ← ih, UInt8.ofNat_add, UInt8.ofNat_toNat]
  have h := hfold bs 0
  rw [Nat.zero_add] at h
  exact h

theorem not_ofNat (n : Nat) : ~~~(UInt8.ofNat n) = UInt8.ofNat (255 - n % 256) := by
  apply UInt8.toNat.inj
  simp [UInt8.toNat_not]
  omega

/-- A record with good length and checksum is decoded to what it was made of. -/
theorem srecDecode_srec3 (address : UInt32) {bs : List UInt8} (hlen : bs.length ≤ 16) :
    srecDecode (srec3Format (UInt8.ofNat (5 + bs.length)) address (bs.flatMap hexByte)
      (~~~(chksum (UInt8.ofNat (5 + bs.length) :: (addressBytes address ++ bs))))) = .ok ⟨.data4, bs.length, address, bs⟩ := by
  have hlength : (UInt8.ofNat (5 + bs.length)).toNat = 5 + bs.length := by
    rw [UInt8.toNat_ofNat']
    exact Nat.mod_eq_of_lt (by omega)
  have hkind : srecKind 0x33 ((UInt8.ofNat (5 + bs.length)).toNat : Int) = some (.data4, (bs.length : Int), 4) := by
    have hcount : ((5 + bs.length : Nat) : Int) - 5 = bs.length := by omega
    rw [hlength]
    simp only [srecKind]
    rw [hcount]
    rfl
  have haddr := hexBytes_flatMap (addressBytes address)
  have hdata := hexBytes_flatMap bs
  generalize hcheck : ~~~(chksum (UInt8.ofNat (5 + bs.length) :: (addressBytes address ++ bs))) = check
  have hskip : ((srec3Format (UInt8.ofNat (5 + bs.length)) address (bs.flatMap hexByte) check).dropWhile (· ≠ chS)).drop 1 =
      0x33 :: (hexByte (UInt8.ofNat (5 + bs.length)) ++
        ((addressBytes address).flatMap hexByte ++ (bs.flatMap hexByte ++ (hexByte check ++ [])))) := by
    simp [srec3Format]
  rw [srecDecode, hskip]
  simp only [hex2Bin_hexByte, hkind, drop_hexByte]
  rw [show (4 : Nat) = (addressBytes address).length from rfl, haddr]
  simp only [Int.toNat_natCast, hdata, hex2Bin_hexByte, hcheck, ne_eq, not_true, if_false, srecAddr_addressBytes]

/-- The bytes of memory from an address on. -/
def memBytes (mem : UInt32 → UInt8) (address : UInt32) (n : Nat) : List UInt8 :=
  (List.range n).map fun i => mem (address + UInt32.ofNat i)

theorem length_memBytes (mem : UInt32 → UInt8) (address : UInt32) (n : Nat) : (memBytes mem address n).length = n := by
  simp [memBytes]

theorem memBytes_succ (mem : UInt32 → UInt8) (address : UInt32) (n : Nat) :
    memBytes mem address (n + 1) = memBytes mem address n ++ [mem (address + UInt32.ofNat n)] := by
  simp [memBytes, range_succ]

/-- The record of some bytes of memory. -/
def memRecord (mem : UInt32 → UInt8) (address : UInt32) (n : Nat) : List UInt8 :=
  dumpRecord address n ((memBytes mem address n).map UInt8.toNat).sum ((memBytes mem address n).flatMap hexByte)

/-- The checksum that `save_serial` puts in a record is the one `srec_decode` expects. -/
theorem srecDecode_memRecord (mem : UInt32 → UInt8) (address : UInt32) (hn : n ≤ 16) :
    srecDecode (memRecord mem address n) = .ok ⟨.data4, n, address, memBytes mem address n⟩ := by
  have hlen := length_memBytes mem address n
  have hdec := srecDecode_srec3 address (show (memBytes mem address n).length ≤ 16 by omega)
  have ha := address.toNat_lt
  rw [hlen] at hdec
  rw [← hdec, memRecord, dumpRecord, chksum_eq, not_ofNat]
  have hsum : ((UInt8.ofNat (5 + n) :: (addressBytes address ++ memBytes mem address n)).map UInt8.toNat).sum =
      5 + n + (address.toNat / 16777216 + (address.toNat / 65536 % 256 + (address.toNat / 256 % 256 + address.toNat % 256))) +
        ((memBytes mem address n).map UInt8.toNat).sum := by
    have hlength : (UInt8.ofNat (5 + n)).toNat = 5 + n := by
      rw [UInt8.toNat_ofNat']
      exact Nat.mod_eq_of_lt (by omega)
    rw [map_cons, map_append, sum_cons, sum_append, map_toNat_addressBytes, hlength]
    simp only [sum_cons, sum_nil]
    omega
  rw [hsum]
  have hlength : 4 + n + 1 = 5 + n := by omega
  have hcheck (S : Nat) : S + (5 + n) % 256 + (5 + n) / 256 % 256 + address.toNat % 256 + address.toNat / 256 % 256 +
      address.toNat / 65536 % 256 + address.toNat / 16777216 % 256 =
      5 + n + (address.toNat / 16777216 + (address.toNat / 65536 % 256 + (address.toNat / 256 % 256 + address.toNat % 256))) + S := by
    omega
  simp only [hlength]
  rw [hcheck]

theorem saveLoop_collect (mem : UInt32 → UInt8) (address : UInt32) {count reclen : Nat} (hcount : 0 < count) (hreclen : reclen < 16) :
    saveLoop mem count address reclen ((memBytes mem address reclen).map UInt8.toNat).sum ((memBytes mem address reclen).flatMap hexByte) =
      memRecord mem address (min 16 (reclen + count)) ::
        saveLoop mem (reclen + count - min 16 (reclen + count)) (address + UInt32.ofNat (min 16 (reclen + count))) 0 0 [] := by
  induction count generalizing reclen with
  | zero => exact absurd hcount (Nat.lt_irrefl 0)
  | succ count ih =>
    have hsum : ((memBytes mem address reclen).map UInt8.toNat).sum + (mem (address + UInt32.ofNat reclen)).toNat =
        ((memBytes mem address (reclen + 1)).map UInt8.toNat).sum := by
      rw [memBytes_succ, map_append, sum_append]
      simp
    have hdata : (memBytes mem address reclen).flatMap hexByte ++ hexByte (mem (address + UInt32.ofNat reclen)) =
        (memBytes mem address (reclen + 1)).flatMap hexByte := by
      rw [memBytes_succ, flatMap_append]
      simp
    rw [saveLoop]
    simp only [hsum, hdata, SREC_BYTES_PER_RECORD]
    by_cases hend : reclen + 1 = 16 ∨ count = 0
    · have hmin : min 16 (reclen + (count + 1)) = reclen + 1 := by omega
      have hleft : reclen + (count + 1) - (reclen + 1) = count := by omega
      rw [if_pos hend, hmin, hleft]
      rfl
    · have hassoc : reclen + (count + 1) = reclen + 1 + count := by omega
      rw [if_neg hend, ih (by omega) (by omega), hassoc]

/-! ## Reading a line -/

theorem memRecord_ge (mem : UInt32 → UInt8) (address : UInt32) (n : Nat) : ∀ c ∈ memRecord mem address n, 0x30 ≤ c := by
  intro c hc
  simp only [memRecord, dumpRecord, srec3Format, mem_append] at hc
  rcases hc with (((hc | hc) | hc) | hc) | hc
  · have hall : ∀ c ∈ [chS, 0x33], (0x30 : UInt8) ≤ c := by decide
    exact hall c hc
  · exact hexByte_ge _ c hc
  · exact flatMap_hexByte_ge _ c hc
  · exact flatMap_hexByte_ge _ c hc
  · exact hexByte_ge _ c hc

theorem length_memRecord (mem : UInt32 → UInt8) (address : UInt32) (n : Nat) : (memRecord mem address n).length = 14 + 2 * n := by
  simp only [memRecord, dumpRecord, srec3Format, length_append, length_flatMap_hexByte, length_memBytes]
  simp only [hexByte, addressBytes, length_cons, length_nil]
  omega

theorem readRecord_line (record : List UInt8) (hge : ∀ c ∈ record, 0x30 ≤ c) {len : Nat} (hlen : record.length < len) {eol : UInt8}
    (heol : eol = chReturn ∨ eol = chNewline) (rest : List UInt8) :
    readRecord len (record ++ eol :: rest) = some (some record, rest) := by
  induction record generalizing len with
  | nil =>
    obtain ⟨len, rfl⟩ := Nat.exists_eq_add_one.2 hlen
    rw [nil_append, readRecord, if_pos heol]
  | cons c record ih =>
    obtain ⟨len, rfl⟩ := Nat.exists_eq_add_one.2 (Nat.lt_of_le_of_lt (Nat.zero_le _) hlen)
    have hc := hge c mem_cons_self
    have hend : ¬(c = chReturn ∨ c = chNewline) := by
      rintro (rfl | rfl)
      · exact absurd hc (by decide)
      · exact absurd hc (by decide)
    have habort : ¬(c = 0 ∨ c = 3) := by
      rintro (rfl | rfl)
      · exact absurd hc (by decide)
      · exact absurd hc (by decide)
    rw [cons_append, readRecord, if_neg hend, if_neg habort, ih (fun x hx => hge x (mem_cons_of_mem _ hx)) (Nat.lt_of_succ_lt_succ hlen)]
    rfl

/-! ## The download -/

/-- The end of a line. -/
def eolText (crlf : Bool) : List UInt8 := if crlf then [chReturn, chNewline] else [chNewline]

variable {fuel : Nat} {rest : List UInt8} {m : UInt32 → UInt8} {st en : UInt32}

theorem loadLoop_newline : loadLoop 0 (fuel + 1) (chNewline :: rest) m st en = loadLoop 0 fuel rest m st en := by
  have hread : readRecord SREC_MAXRECLEN (chNewline :: rest) = some (some [], rest) :=
    readRecord_line [] (by simp) (by decide) (Or.inr rfl) rest
  rw [loadLoop, hread]
  rfl

theorem loadLoop_line (fuel : Nat) (rest : List UInt8) {record : List UInt8} (hge : ∀ c ∈ record, 0x30 ≤ c)
    (hlen : record.length < SREC_MAXRECLEN) (crlf : Bool) :
    ∃ tail, tail.length + 1 = (eolText crlf).length ∧
      readRecord SREC_MAXRECLEN (record ++ eolText crlf ++ rest) = some (some record, tail ++ rest) ∧
      ∀ m st en, loadLoop 0 (fuel + tail.length) (tail ++ rest) m st en = loadLoop 0 fuel rest m st en := by
  cases crlf with
  | false =>
    refine ⟨[], rfl, ?_, fun m st en => rfl⟩
    rw [eolText, append_assoc]
    exact readRecord_line record hge hlen (Or.inr rfl) rest
  | true =>
    refine ⟨[chNewline], rfl, ?_, fun m st en => loadLoop_newline⟩
    rw [eolText, append_assoc]
    exact readRecord_line record hge hlen (Or.inl rfl) (chNewline :: rest)

theorem loadLoop_start (crlf : Bool) :
    loadLoop 0 (fuel + (eolText crlf).length) (SREC3_START ++ eolText crlf ++ rest) m st en = loadLoop 0 fuel rest m st en := by
  obtain ⟨tail, htail, hread, hnext⟩ := loadLoop_line fuel rest (show ∀ c ∈ SREC3_START, 0x30 ≤ c by decide) (by decide) crlf
  have hdec : srecDecode SREC3_START = .ok ⟨.start, 0, 0, []⟩ := by rfl
  rw [← htail, ← Nat.add_assoc, loadLoop, hread]
  simp only [hdec]
  exact hnext m st en

theorem loadLoop_end (crlf : Bool) :
    loadLoop 0 (fuel + 1) (SREC3_END ++ eolText crlf ++ rest) m st en = some ⟨0, m, some (ulongHex (en - st + 1))⟩ := by
  obtain ⟨tail, -, hread, -⟩ := loadLoop_line fuel rest (show ∀ c ∈ SREC3_END, 0x30 ≤ c by decide) (by decide) crlf
  have hdec : srecDecode SREC3_END = .ok ⟨.end4, 0, 0, []⟩ := by rfl
  rw [loadLoop, hread]
  simp only [hdec]

theorem ofInt_natCast (n : Nat) : UInt32.ofInt (n : Int) = UInt32.ofNat n := by
  apply UInt32.toNat.inj
  rw [UInt32.ofInt, UInt32.toNat_ofNat', UInt32.toNat_ofNat']
  omega

theorem loadLoop_data (crlf : Bool) (mem : UInt32 → UInt8) (address : UInt32) (hn : n ≤ 16) :
    loadLoop 0 (fuel + (eolText crlf).length) (memRecord mem address n ++ eolText crlf ++ rest) m st en =
      loadLoop 0 fuel rest (memcpy m address (memBytes mem address n)) (if address < st then address else st)
        (if en < address + UInt32.ofNat n - 1 then address + UInt32.ofNat n - 1 else en) := by
  obtain ⟨tail, htail, hread, hnext⟩ := loadLoop_line fuel rest (memRecord_ge mem address n)
    (by rw [length_memRecord, SREC_MAXRECLEN]; omega) crlf
  rw [← htail, ← Nat.add_assoc, loadLoop, hread]
  simp only [srecDecode_memRecord mem address hn]
  rw [if_neg (by omega), UInt32.add_zero, ofInt_natCast]
  exact hnext _ _ _

/-- The memory after `d` bytes from an address on were copied. -/
def copied (mem m : UInt32 → UInt8) (start : UInt32) (d : Nat) : UInt32 → UInt8 :=
  fun x => if start.toNat ≤ x.toNat ∧ x.toNat < start.toNat + d then mem x else m x

theorem writeRecords_cons (crlf : Bool) (record : List UInt8) (records : List (List UInt8)) :
    writeRecords crlf (record :: records) = record ++ eolText crlf ++ writeRecords crlf records := rfl

/-- The first and last address of `d` bytes, as `load_serial` keeps them. -/
def Seen (start : UInt32) (d : Nat) (st en : UInt32) : Prop :=
  (d = 0 → st = ~~~0 ∧ en = 0) ∧ (0 < d → st = start ∧ en.toNat + 1 = start.toNat + d)

variable {mem : UInt32 → UInt8} {start address : UInt32} {d n : Nat}

/-- The next bytes are copied behind those that were. -/
theorem memcpy_copied (haddr : address.toNat = start.toNat + d) (hfit : address.toNat + n ≤ 2 ^ 32) :
    memcpy (copied mem m start d) address (memBytes mem address n) = copied mem m start (d + n) := by
  funext x
  have hx := x.toNat_lt
  have hsub : (x - address).toNat = (2 ^ 32 - address.toNat + x.toNat) % 2 ^ 32 := UInt32.toNat_sub x address
  have hget : (memBytes mem address n)[(x - address).toNat]? =
      if (x - address).toNat < n then some (mem x) else none := by
    by_cases hlt : (x - address).toNat < n
    · have hback : address + UInt32.ofNat (x - address).toNat = x := by
        rw [UInt32.ofNat_toNat]
        apply UInt32.toNat.inj
        rw [UInt32.toNat_add, hsub]
        omega
      rw [if_pos hlt, memBytes, getElem?_map, getElem?_range hlt, Option.map_some, hback]
    · rw [if_neg hlt, getElem?_eq_none]
      rw [length_memBytes]
      exact Nat.not_lt.1 hlt
  simp only [memcpy, hget, copied]
  by_cases hin : start.toNat ≤ x.toNat ∧ x.toNat < start.toNat + d
  · rw [if_pos hin, if_pos (show _ ∧ _ by omega), if_neg (by omega)]
    rfl
  · rw [if_neg hin]
    by_cases hnew : (x - address).toNat < n
    · rw [if_pos hnew, if_pos (show _ ∧ _ by omega)]
      rfl
    · rw [if_neg hnew, if_neg (by omega)]
      rfl

/-- The bytes after `d` others are seen. -/
theorem seen_step (hseen : Seen start d st en) (haddr : address.toNat = start.toNat + d) (hn : 0 < n)
    (hfit : address.toNat + n ≤ 2 ^ 32) (hsmall : n < 2 ^ 32) :
    Seen start (d + n) (if address < st then address else st)
      (if en < address + UInt32.ofNat n - 1 then address + UInt32.ofNat n - 1 else en) := by
  have hlast : (address + UInt32.ofNat n - 1).toNat = address.toNat + n - 1 := by
    rw [UInt32.toNat_sub, UInt32.toNat_add, UInt32.toNat_ofNat', show (1 : UInt32).toNat = 1 from rfl]
    omega
  refine ⟨by omega, ?_⟩
  intro _
  simp only [UInt32.lt_iff_toNat_lt, hlast]
  rcases Nat.eq_zero_or_pos d with rfl | hd
  · obtain ⟨rfl, rfl⟩ := hseen.1 rfl
    have hmax : (~~~0 : UInt32).toNat = 2 ^ 32 - 1 := rfl
    have hzero : (0 : UInt32).toNat = 0 := rfl
    have hsame : address = start := UInt32.toNat.inj (by omega)
    subst hsame
    have hst : (if address.toNat < (~~~0 : UInt32).toNat then address else ~~~0) = address := by
      split
      · rfl
      · apply UInt32.toNat.inj
        have := address.toNat_lt
        omega
    refine ⟨hst, ?_⟩
    split
    · omega
    · omega
  · obtain ⟨rfl, hen⟩ := hseen.2 hd
    refine ⟨if_neg (by omega), ?_⟩
    rw [if_pos (by omega), hlast]
    omega

theorem loadLoop_records (crlf : Bool) (hseen : Seen start d st en) (haddr : 0 < n → address.toNat = start.toNat + d)
    (hpos : 0 < d + n) (hfit : start.toNat + d + n ≤ 2 ^ 32)
    (hfuel : (writeRecords crlf (saveLoop mem n address 0 0 [] ++ [SREC3_END])).length < fuel) :
    loadLoop 0 fuel (writeRecords crlf (saveLoop mem n address 0 0 [] ++ [SREC3_END])) (copied mem m start d) st en =
      some ⟨0, copied mem m start (d + n), some (ulongHex (UInt32.ofNat (d + n)))⟩ := by
  induction n using Nat.strongRecOn generalizing address d st en fuel with
  | ind n ih =>
    rcases Nat.eq_zero_or_pos n with rfl | hn
    · -- all bytes are copied
      obtain ⟨rfl, hen⟩ := hseen.2 hpos
      have hsize : en - st + 1 = UInt32.ofNat d := by
        apply UInt32.toNat.inj
        have := en.toNat_lt
        rw [UInt32.toNat_add, UInt32.toNat_sub, UInt32.toNat_ofNat', show (1 : UInt32).toNat = 1 from rfl]
        omega
      obtain ⟨fuel, rfl⟩ := Nat.exists_eq_add_one.2 (Nat.lt_of_le_of_lt (Nat.zero_le _) hfuel)
      have hend : loadLoop 0 (fuel + 1) (SREC3_END ++ eolText crlf ++ []) (copied mem m st d) st en = _ := loadLoop_end crlf
      rw [hsize] at hend
      simpa [saveLoop, writeRecords, eolText] using hend
    · -- the next record
      have ha := haddr hn
      obtain ⟨k, hk⟩ : ∃ k, k = min 16 n := ⟨_, rfl⟩
      have hsave : saveLoop mem n address 0 0 [] = memRecord mem address k :: saveLoop mem (n - k) (address + UInt32.ofNat k) 0 0 [] := by
        have hcollect := saveLoop_collect mem address hn (show 0 < 16 by decide)
        rwa [Nat.zero_add, ← hk] at hcollect
      rw [hsave, cons_append, writeRecords_cons] at hfuel ⊢
      obtain ⟨fuel, rfl⟩ : ∃ f, fuel = f + (eolText crlf).length := by
        refine ⟨fuel - (eolText crlf).length, ?_⟩
        simp only [length_append] at hfuel
        omega
      have hnext : 0 < n - k → (address + UInt32.ofNat k).toNat = start.toNat + (d + k) := by
        intro hleft
        rw [UInt32.toNat_add, UInt32.toNat_ofNat']
        omega
      have hseen' := seen_step hseen ha (show 0 < k by omega) (by omega) (by omega)
      rw [loadLoop_data crlf mem address (show k ≤ 16 by omega), memcpy_copied ha (by omega),
        ih (n - k) (by omega) hseen' hnext (by omega) (by omega) (by simp only [length_append] at hfuel; omega),
        show d + k + (n - k) = d + n by omega]

/-! ## The value of `filesize` -/

theorem strtoulLoop_digit (hd : d < 16) (r : Nat) (rest : List UInt8) :
    strtoulLoop 16 r (UInt8.ofNat (if d < 10 then 0x30 + d else 0x41 + (d - 10)) :: rest) = strtoulLoop 16 ((r * 16 + d) % 2 ^ 32) rest := by
  have hx : xdigit (UInt8.ofNat (if d < 10 then 0x30 + d else 0x41 + (d - 10))) = some d := hex1Bin_digit hd
  rw [strtoulLoop, hx]
  simp only [if_pos hd]

theorem strtoulLoop_hexByte (b : UInt8) {r : Nat} (hr : r * 256 + b.toNat < 2 ^ 32) (rest : List UInt8) :
    strtoulLoop 16 r (hexByte b ++ rest) = strtoulLoop 16 (r * 256 + b.toNat) rest := by
  have hb := b.toNat_lt
  rw [hexByte, cons_append, cons_append, nil_append, strtoulLoop_digit (by omega), strtoulLoop_digit (by omega)]
  congr 1
  omega

theorem strtoulLoop_dropWhile (ds rest : List UInt8) : strtoulLoop 16 0 (ds.dropWhile (· = 0x30) ++ rest) = strtoulLoop 16 0 (ds ++ rest) := by
  induction ds with
  | nil => rfl
  | cons c ds ih =>
    by_cases hc : c = 0x30
    · have hzero : strtoulLoop 16 0 (c :: (ds ++ rest)) = strtoulLoop 16 0 (ds ++ rest) := by
        rw [hc]
        exact strtoulLoop_digit (show 0 < 16 by decide) 0 (ds ++ rest)
      rw [dropWhile_cons_of_pos (by simpa using hc), ih, cons_append, hzero]
    · rw [dropWhile_cons_of_neg (by simpa using hc)]

/-- There is no `'x'` in the text of a number. -/
theorem ulongHex_no_x (n : UInt32) : ∀ c ∈ ulongHex n, c ≠ 0x78 := by
  have hall : ∀ d < 16, UInt8.ofNat (if d < 10 then 0x30 + d else 0x41 + (d - 10)) ≠ 0x78 := by decide
  have hdigits : ∀ c ∈ (addressBytes n).flatMap hexByte, c ≠ 0x78 := by
    intro c hc
    obtain ⟨b, -, hb⟩ := mem_flatMap.1 hc
    have hlt := b.toNat_lt
    simp only [hexByte, mem_cons, not_mem_nil, or_false] at hb
    rcases hb with rfl | rfl
    · exact hall _ (by omega)
    · exact hall _ (by omega)
  intro c hc
  rcases mem_append.1 hc with hc | hc
  · exact hdigits c (mem_of_mem_take ((dropWhile_sublist _).subset hc))
  · exact hdigits c (mem_of_mem_drop hc)

theorem simpleStrtoul_ulongHex (n : UInt32) : simpleStrtoul 16 (ulongHex n) = n.toNat := by
  have hn := n.toNat_lt
  have hloop : strtoulLoop 16 0 (ulongHex n) = n.toNat := by
    obtain ⟨h24, h16, h8, h0⟩ : _ ∧ _ ∧ _ ∧ _ := by
      simpa only [addressBytes, map_cons, map_nil, List.cons.injEq, and_true] using map_toNat_addressBytes n
    rw [ulongHex, strtoulLoop_dropWhile, take_append_drop, addressBytes]
    simp only [flatMap_cons, flatMap_nil]
    rw [strtoulLoop_hexByte _ (by omega), strtoulLoop_hexByte _ (by omega), strtoulLoop_hexByte _ (by omega),
      strtoulLoop_hexByte _ (by omega), strtoulLoop, h24, h16, h8, h0]
    omega
  rw [← hloop]
  unfold simpleStrtoul
  split
  · rename_i d cp heq
    have hx : (0x78 : UInt8) ∈ ulongHex n := by
      rw [heq]
      simp
    exact absurd rfl (ulongHex_no_x n 0x78 hx)
  · rfl

end SRecordAux

/-- An S-record download undoes an upload: for every address and number of bytes that fit into the memory, `load_serial` accepts the
characters that `save_serial` writes, copies exactly these bytes to the same addresses, returns 0 and sets `filesize` to their
number. -/
theorem load_serial_undoes_save_serial (crlf : Bool) (address count : UInt32) (hcount : 0 < count)
    (hfit : address.toNat + count.toNat ≤ 2 ^ 32) (mem m : UInt32 → UInt8) :
    ∃ r, loadSerial 0 (writeRecords crlf (saveSerial mem address count)) m = some r ∧ r.ret = 0 ∧
      r.filesize = some (ulongHex count) ∧ simpleStrtoul 16 (ulongHex count) = count.toNat ∧
      ∀ x, r.mem x = if address.toNat ≤ x.toNat ∧ x.toNat < address.toNat + count.toNat then mem x else m x := by
  have hpos : 0 < count.toNat := UInt32.lt_iff_toNat_lt.1 hcount
  have hnone : SRecordAux.copied mem m address 0 = m := by
    funext x
    exact if_neg (by omega)
  have hload : loadSerial 0 (writeRecords crlf (saveSerial mem address count)) m =
      some ⟨0, SRecordAux.copied mem m address (0 + count.toNat), some (ulongHex (UInt32.ofNat (0 + count.toNat)))⟩ := by
    rw [loadSerial, saveSerial, cons_append, SRecordAux.writeRecords_cons]
    have hlength : (SREC3_START ++ SRecordAux.eolText crlf ++
        writeRecords crlf (saveLoop mem count.toNat address 0 0 [] ++ [SREC3_END])).length + 1 =
        SREC3_START.length + (writeRecords crlf (saveLoop mem count.toNat address 0 0 [] ++ [SREC3_END])).length + 1 +
          (SRecordAux.eolText crlf).length := by
      simp only [length_append]
      omega
    rw [hlength, SRecordAux.loadLoop_start]
    have hseen : SRecordAux.Seen address 0 (~~~0) 0 := ⟨fun _ => ⟨rfl, rfl⟩, fun h => absurd h (Nat.lt_irrefl 0)⟩
    rw [← hnone, SRecordAux.loadLoop_records crlf hseen (fun _ => rfl) (by omega) (by omega) (by omega), hnone]
  refine ⟨_, hload, rfl, ?_, SRecordAux.simpleStrtoul_ulongHex count, ?_⟩
  · rw [Nat.zero_add, UInt32.ofNat_toNat]
  · intro x
    rw [Nat.zero_add]
    rfl

/-- The last 17 bytes of the memory, in a record of 16 and one of 1. -/
theorem load_serial_undoes_save_serial_top : (0 : UInt32) < 17 ∧ (0xffffffef : UInt32).toNat + (17 : UInt32).toNat ≤ 2 ^ 32 ∧
    ∃ r, loadSerial 0 (writeRecords true (saveSerial (fun x => x.toUInt8) 0xffffffef 17)) (fun _ => 0) = some r ∧ r.ret = 0 ∧
      r.filesize = some [0x31, 0x31] ∧ r.mem 0xffffffff = 0xff ∧ r.mem 0xffffffee = 0 := by
  refine ⟨by decide, by decide, ?_⟩
  obtain ⟨r, hr, hret, hsize, -, hmem⟩ := load_serial_undoes_save_serial true 0xffffffef 17 (by decide) (by decide)
    (fun x => x.toUInt8) (fun _ => 0)
  refine ⟨r, hr, hret, hsize, ?_, ?_⟩
  · rw [hmem]
    rfl
  · rw [hmem]
    rfl

end UBoot
