import UBoot.SRecord

/-!
# S-records of any line

`srec_decode` never reads behind the NUL of the line. What it accepts as data is what the line says, except for a record that is too
short for its own address: there `*count` is negative. `srec_decode_safe_iff` has the exact lines.
-/

namespace UBoot

/-! ## The line and the buffer -/

variable {s bs rest : List UInt8} {type : SrecType} {r : SrecRecord}

theorem hex1Bin_nul : hex1Bin 0 = none := by decide

/-- The NUL behind the line is no digit, so no byte behind it is read. -/
theorem hex2BinIn_line (s : List UInt8) : hex2BinIn (s ++ [0]) = some (hex2Bin s) := by
  match s with
  | [] => simp [hex2BinIn, hex2Bin, hex1Bin_nul]
  | [a] =>
    rw [List.singleton_append, hex2BinIn, hex2Bin]
    · cases hex1Bin a with
      | none => rfl
      | some i => simp [hex1Bin_nul]
    · simp
  | a :: b :: s =>
    rw [List.cons_append, List.cons_append, hex2BinIn, hex2Bin]
    cases hex1Bin a with
    | none => rfl
    | some i =>
      change some ((hex1Bin b).map fun j => UInt8.ofNat (i * 16 + j)) = _
      cases hex1Bin b <;> rfl

theorem length_of_hex2Bin (h : hex2Bin s = some v) : 2 ≤ s.length := by
  match s with
  | [] | [_] => simp [hex2Bin] at h
  | a :: b :: s => simp

theorem drop_line (h : hex2Bin s = some v) : (s ++ [0]).drop 2 = s.drop 2 ++ [0] :=
  List.drop_append_of_le_length (length_of_hex2Bin h)

/-- Before the NUL the search finds the first `S` or ends. -/
theorem skipToS_line (s : List UInt8) (hs : (0 : UInt8) ∉ s) : skipToS (s ++ [0]) = some ((s.dropWhile (· ≠ chS)).drop 1 ++ [0]) := by
  induction s with
  | nil => rfl
  | cons c s ih =>
    have hc : c ≠ 0 := fun h => hs (h ▸ List.mem_cons_self ..)
    rw [List.cons_append, skipToS, if_neg hc]
    by_cases hS : c = chS
    · rw [if_pos hS, hS]
      simp
    · rw [if_neg hS, ih fun h => hs (List.mem_cons_of_mem _ h), List.dropWhile_cons_of_pos (by simpa using hS)]

theorem srecAddrIn_line (n : Nat) (addr : UInt32) (chksum : UInt8) (s : List UInt8) :
    srecAddrIn n addr chksum (s ++ [0]) = some ((hexBytes n s).map fun r =>
      (r.1.foldl (fun (addr : UInt32) (v : UInt8) => addr <<< 8 + v.toUInt32) addr, r.1.foldl (· + ·) chksum, r.2 ++ [0])) := by
  induction n generalizing addr chksum s with
  | zero => rfl
  | succ n ih =>
    rw [srecAddrIn, hex2BinIn_line, hexBytes]
    cases hv : hex2Bin s with
    | none => rfl
    | some v =>
      simp only [drop_line hv, ih]
      cases hexBytes n (s.drop 2) <;> rfl

/-- The data loop stores inside `data` when there is room for its bytes, and it stores the bytes that it reads. -/
theorem srecDataIn_line (n i : Nat) (data : List UInt8) (chksum : UInt8) (s : List UInt8) (hroom : i + n ≤ data.length) :
    ∃ data', srecDataIn n i data chksum (s ++ [0]) = some ((hexBytes n s).map fun r => (r.1.foldl (· + ·) chksum, r.2 ++ [0]), data') ∧
      ∀ r, hexBytes n s = some r → putBytes data i r.1 = some data' := by
  induction n generalizing i data chksum s with
  | zero =>
    refine ⟨data, rfl, ?_⟩
    intro r hr
    cases hr
    rfl
  | succ n ih =>
    rw [srecDataIn, hex2BinIn_line, hexBytes]
    cases hv : hex2Bin s with
    | none => exact ⟨data, rfl, by simp⟩
    | some v =>
      have hput : putByte data i v = some (data.set i v) := by
        rw [putByte, if_pos (by omega)]
      obtain ⟨data', heq, hstored⟩ := ih (i + 1) (data.set i v) (chksum + v) (s.drop 2) (by rw [List.length_set]; omega)
      refine ⟨data', ?_, ?_⟩
      · simp only [hput, drop_line hv, heq]
        cases hexBytes n (s.drop 2) <;> rfl
      · intro r hr
        obtain ⟨r', hr', rfl⟩ := Option.map_eq_some_iff.1 hr
        rw [putBytes, hput]
        exact hstored r' hr'

theorem srecKind_count_le (h : srecKind v n = some (type, count, width)) (hn : 0 ≤ n) : count ≤ n := by
  unfold srecKind at h
  split_ifs at h <;> cases h <;> omega

theorem srecDecodeIn_line (s : CString) (data : List UInt8) (hlen : data.length = SREC_MAXBINLEN) :
    ∃ data', srecDecodeIn (s.bytes ++ [0]) data = some ((srecDecode s.bytes).map fun r => (r.type, r.count, r.addr), data') ∧
      ∀ r, srecDecode s.bytes = .ok r → putBytes data 0 r.data = some data' := by
  unfold srecDecodeIn srecDecode
  rw [skipToS_line s.bytes s.nul_free]
  have hfree : ∀ c ∈ (s.bytes.dropWhile (· ≠ chS)).drop 1, c ≠ 0 := fun c hc h0 =>
    s.nul_free (h0 ▸ (List.dropWhile_suffix _).subset (List.mem_of_mem_drop hc))
  cases hbehind : (s.bytes.dropWhile (· ≠ chS)).drop 1 with
  | nil => exact ⟨data, rfl, by rintro r ⟨⟩; rfl⟩
  | cons v input =>
    rw [hbehind] at hfree
    simp only [List.cons_append, if_neg (hfree v (List.mem_cons_self ..)), hex2BinIn_line]
    cases hlength : hex2Bin input with
    | none => exact ⟨data, rfl, by rintro r ⟨⟩⟩
    | some length =>
      simp only
      cases hkind : srecKind v length.toNat with
      | none => exact ⟨data, rfl, by rintro r ⟨⟩⟩
      | some kind =>
        obtain ⟨type, count, width⟩ := kind
        simp only [drop_line hlength, srecAddrIn_line]
        cases haddr : hexBytes width (input.drop 2) with
        | none => exact ⟨data, rfl, by rintro r ⟨⟩⟩
        | some r =>
          obtain ⟨addr, input⟩ := r
          have hroom : 0 + count.toNat ≤ data.length := by
            have hle := srecKind_count_le hkind (Int.natCast_nonneg _)
            have hbyte := length.toNat_lt
            simp only [hlen, SREC_MAXBINLEN]
            omega
          obtain ⟨data', heq, hstored⟩ := srecDataIn_line count.toNat 0 data (addr.foldl (· + ·) length) input hroom
          simp only [Option.map_some, heq]
          cases hdata : hexBytes count.toNat input with
          | none => exact ⟨data', rfl, by rintro r ⟨⟩⟩
          | some r =>
            obtain ⟨bytes, input⟩ := r
            have hstored := hstored _ hdata
            simp only [Option.map_some, hex2BinIn_line]
            have hsum : chksum (length :: (addr ++ bytes)) = bytes.foldl (· + ·) (addr.foldl (· + ·) length) := by
              rw [chksum, List.foldl_cons, UInt8.zero_add, List.foldl_append]
            cases hcheck : hex2Bin input with
            | none => exact ⟨data', rfl, by rintro r ⟨⟩⟩
            | some c =>
              simp only [hsum]
              split
              · exact ⟨data', rfl, by rintro r ⟨⟩⟩
              · refine ⟨data', rfl, ?_⟩
                rintro r ⟨⟩
                exact hstored

/-! ## The text of a record -/

/-- The type character and the number of address bytes of the three types of data. -/
def SrecType.field : SrecType → Option (UInt8 × Nat)
  | .data2 => some (0x31, 2)
  | .data3 => some (0x32, 3)
  | .data4 => some (0x33, 4)
  | _ => none

/-- The first `S` of the line has the type character and the digits of the bytes behind it. -/
def SRecordText (s : List UInt8) (v : UInt8) (bytes : List UInt8) : Prop :=
  ∃ pre text rest, chS ∉ pre ∧ s = pre ++ chS :: v :: text ∧ hexBytes bytes.length text = some (bytes, rest)

/-- The bytes of a record: its length, its address, its data and the one's complement of the sum of all of them. -/
def srecBytes (length : UInt8) (addr data : List UInt8) : List UInt8 :=
  length :: (addr ++ (data ++ [~~~chksum (length :: (addr ++ data))]))

/-- A data record whose length does not even count its address and its checksum, with both of them right. -/
def ShortRecord (s : List UInt8) : Prop :=
  ∃ (type : SrecType) (v : UInt8) (width : Nat) (length : UInt8) (addr : List UInt8), type.field = some (v, width) ∧
    addr.length = width ∧ length.toNat < width + 1 ∧ SRecordText s v (srecBytes length addr [])

theorem length_of_hexBytes {n : Nat} (h : hexBytes n s = some (bs, rest)) : bs.length = n := by
  induction n generalizing s bs with
  | zero =>
    cases h
    rfl
  | succ n ih =>
    rw [hexBytes] at h
    cases hv : hex2Bin s with
    | none => simp [hv] at h
    | some v =>
      rw [hv] at h
      obtain ⟨r, hr, heq⟩ := Option.map_eq_some_iff.1 h
      cases heq
      rw [List.length_cons, ih hr]

theorem hexBytes_add (m n : Nat) (s : List UInt8) :
    hexBytes (m + n) s = (hexBytes m s).bind fun r => (hexBytes n r.2).map fun r' => (r.1 ++ r'.1, r'.2) := by
  induction m generalizing s with
  | zero => simp [hexBytes]
  | succ m ih =>
    rw [Nat.succ_add, hexBytes, hexBytes]
    cases hex2Bin s with
    | none => rfl
    | some v =>
      simp only [ih]
      cases hexBytes m (s.drop 2) with
      | none => rfl
      | some r => cases h : hexBytes n r.2 <;> simp [h]

theorem hexBytes_one (s : List UInt8) : hexBytes 1 s = (hex2Bin s).map fun v => ([v], s.drop 2) := by
  rw [hexBytes]
  cases hex2Bin s <;> rfl

theorem hexBytes_append_iff {as : List UInt8} : hexBytes (as ++ bs).length s = some (as ++ bs, rest) ↔
      ∃ mid, hexBytes as.length s = some (as, mid) ∧ hexBytes bs.length mid = some (bs, rest) := by
  rw [List.length_append, hexBytes_add]
  constructor
  · intro h
    obtain ⟨⟨as', mid⟩, has, h⟩ := Option.bind_eq_some_iff.1 h
    obtain ⟨⟨bs', rest'⟩, hbs, heq⟩ := Option.map_eq_some_iff.1 h
    obtain ⟨happ, hrest⟩ := Prod.mk.inj heq
    obtain ⟨rfl, rfl⟩ := List.append_inj happ (length_of_hexBytes has)
    exact ⟨mid, has, by rw [hbs, ← hrest]⟩
  · rintro ⟨mid, has, hbs⟩
    simp [has, hbs]

theorem hexBytes_cons_iff {b : UInt8} :
    hexBytes (b :: bs).length s = some (b :: bs, rest) ↔ hex2Bin s = some b ∧ hexBytes bs.length (s.drop 2) = some (bs, rest) := by
  rw [← List.singleton_append, hexBytes_append_iff, List.length_singleton, hexBytes_one]
  constructor
  · rintro ⟨mid, hb, hbs⟩
    obtain ⟨v, hv, heq⟩ := Option.map_eq_some_iff.1 hb
    cases heq
    exact ⟨hv, hbs⟩
  · rintro ⟨hb, hbs⟩
    exact ⟨s.drop 2, by rw [hb]; rfl, hbs⟩

theorem drop_dropWhile_eq_iff {text : List UInt8} :
    (s.dropWhile (· ≠ chS)).drop 1 = v :: text ↔ ∃ pre, chS ∉ pre ∧ s = pre ++ chS :: v :: text := by
  constructor
  · intro h
    refine ⟨s.takeWhile (· ≠ chS), fun hmem => by simpa using List.mem_takeWhile_imp hmem, ?_⟩
    obtain ⟨c, cs, hdrop⟩ : ∃ c cs, s.dropWhile (· ≠ chS) = c :: cs := by
      cases hdrop : s.dropWhile (· ≠ chS) with
      | nil =>
        rw [hdrop] at h
        cases h
      | cons c cs => exact ⟨c, cs, rfl⟩
    have hc : c = chS := by
      have hhead := List.head?_dropWhile_not (· ≠ chS) s
      rw [hdrop] at hhead
      simpa using hhead
    have hsplit := List.takeWhile_append_dropWhile (p := (· ≠ chS)) (l := s)
    rw [hdrop, List.drop_one, List.tail_cons] at h
    rw [hdrop, hc, h] at hsplit
    exact hsplit.symm
  · rintro ⟨pre, hpre, rfl⟩
    rw [List.dropWhile_append_of_pos fun c hc => by simpa using fun h0 : c = chS => hpre (h0 ▸ hc)]
    simp

theorem srecKind_field {w : Nat} (h : srecKind v n = some (type, count, width)) (hfield : type.field = some (c, w)) :
    v = c ∧ width = w ∧ count = n - (w + 1) := by
  unfold srecKind at h
  split_ifs at h with h0 h1 h2 h3 h5 h7 h8 h9 <;> cases h <;> cases hfield
  · exact ⟨h1, rfl, rfl⟩
  · exact ⟨h2, rfl, rfl⟩
  · exact ⟨h3, rfl, rfl⟩

theorem srecKind_of_field {width : Nat} (h : type.field = some (v, width)) (n : Int) :
    srecKind v n = some (type, n - (width + 1), width) := by
  cases type <;> cases h <;> rfl

theorem text_of_srecDecode (h : srecDecode s = .ok r) (hfield : r.type.field = some (v, width)) :
    ∃ (length : UInt8) (addr : List UInt8), addr.length = width ∧ srecAddr addr = r.addr ∧ r.count = length.toNat - (width + 1) ∧
      r.data.length = r.count.toNat ∧ SRecordText s v (srecBytes length addr r.data) := by
  unfold srecDecode at h
  cases hbehind : (s.dropWhile (· ≠ chS)).drop 1 with
  | nil =>
    rw [hbehind] at h
    cases h
    cases hfield
  | cons c input =>
    obtain ⟨pre, hpre, hs⟩ := drop_dropWhile_eq_iff.1 hbehind
    rw [hbehind] at h
    simp only at h
    split at h
    · cases h
    next length hlength =>
      split at h
      · cases h
      next type count w hkind =>
        split at h
        · cases h
        next addr behind haddr =>
          split at h
          · cases h
          next data behind' hdata =>
            split at h
            · cases h
            next x hx =>
              split at h
              · cases h
              next hsum =>
                cases h
                obtain ⟨rfl, rfl, hcount⟩ := srecKind_field hkind hfield
                have hlen := length_of_hexBytes haddr
                have hdlen := length_of_hexBytes hdata
                refine ⟨length, addr, hlen, rfl, hcount, hdlen, pre, input, behind'.drop 2, hpre, hs, ?_⟩
                rw [srecBytes, hexBytes_cons_iff, hexBytes_append_iff]
                refine ⟨hlength, behind, by rw [hlen]; exact haddr, ?_⟩
                rw [hexBytes_append_iff]
                refine ⟨behind', by rw [hdlen]; exact hdata, ?_⟩
                rw [List.length_singleton, hexBytes_one, hx, ← not_not.1 hsum]
                rfl

/-- The text of a data record is accepted, even with a length that does not count its address. -/
theorem srecDecode_of_text (hfield : type.field = some (v, width)) {length : UInt8}
    {addr data : List UInt8} (haddr : addr.length = width) (hdata : data.length = ((length.toNat : Int) - (width + 1)).toNat)
    (h : SRecordText s v (srecBytes length addr data)) :
    srecDecode s = .ok ⟨type, length.toNat - (width + 1), srecAddr addr, data⟩ := by
  obtain ⟨pre, text, rest, hpre, hs, htext⟩ := h
  rw [srecBytes, hexBytes_cons_iff, hexBytes_append_iff] at htext
  obtain ⟨hlength, mid, haddrText, htext⟩ := htext
  rw [hexBytes_append_iff] at htext
  obtain ⟨mid', hdataText, hcheck⟩ := htext
  rw [List.length_singleton, hexBytes_one] at hcheck
  obtain ⟨x, hx, heq⟩ := Option.map_eq_some_iff.1 hcheck
  have hsum : x = ~~~chksum (length :: (addr ++ data)) := (List.cons.inj (Prod.mk.inj heq).1).1
  rw [haddr] at haddrText
  rw [hdata] at hdataText
  unfold srecDecode
  rw [drop_dropWhile_eq_iff.2 ⟨pre, hpre, hs⟩]
  simp only [hlength, srecKind_of_field hfield, haddrText, hdataText, hx]
  rw [if_neg (not_not.2 hsum)]

/-! ## What is loaded -/

theorem loadLoop_dataRecord (h : srecDecode s = .ok r) (hfield : r.type.field.isSome)
    (hcount : 0 ≤ r.count) (offset : UInt32) (fuel : Nat) {input : List UInt8} (mem : UInt32 → UInt8) (start stop : UInt32)
    (hread : readRecord SREC_MAXRECLEN input = some (some s, rest)) :
    ∃ start' stop', loadLoop offset (fuel + 1) input mem start stop =
      loadLoop offset fuel rest (memcpy mem (r.addr + offset) r.data) start' stop' := by
  obtain ⟨type, count, addr, data⟩ := r
  rw [loadLoop, hread]
  simp only [h]
  have hneg : ¬count < 0 := Int.not_lt.2 hcount
  cases type with
  | data2 | data3 | data4 =>
    simp only [if_neg hneg]
    exact ⟨_, _, rfl⟩
  | _ => cases hfield

/-- A data record that `srec_decode` found: `*count` and `*addr` are those of the text, and `data` has its bytes, which `load_serial`
stores. -/
structure RecordRight (s : CString) (type : SrecType) (count : Int) (addr : UInt32) (data : List UInt8) : Prop where
  count_nonneg : 0 ≤ count
  count_le : count ≤ SREC_MAXBINLEN
  length_data : (data.take count.toNat).length = count.toNat
  text : ∃ (v : UInt8) (width : Nat) (length : UInt8) (bytes : List UInt8), type.field = some (v, width) ∧ bytes.length = width ∧
    srecAddr bytes = addr ∧ (length.toNat : Int) = width + count + 1 ∧ SRecordText s.bytes v (srecBytes length bytes (data.take count.toNat))
  stored : ∀ offset fuel input rest mem start stop, readRecord SREC_MAXRECLEN input = some (some s.bytes, rest) →
    ∃ start' stop', loadLoop offset (fuel + 1) input mem start stop =
      loadLoop offset fuel rest (memcpy mem (addr + offset) (data.take count.toNat)) start' stop'

/-- The line is read up to its NUL only, `data` is written inside only, and a data record is right. -/
structure DecodesSafely (s : CString) : Prop where
  inside : ∀ data, data.length = SREC_MAXBINLEN → (srecDecodeIn (s.bytes ++ [0]) data).isSome
  right : ∀ data type count addr data', data.length = SREC_MAXBINLEN →
    srecDecodeIn (s.bytes ++ [0]) data = some (.ok (type, count, addr), data') → type.field.isSome → RecordRight s type count addr data'

theorem take_of_putBytes {data data' : List UInt8} (h : putBytes data 0 bs = some data') (hroom : bs.length ≤ data.length) :
    data'.take bs.length = bs := by
  have hput := putBytes_append [] (data.take bs.length) (data.drop bs.length) bs (List.length_take_of_le hroom)
  rw [List.nil_append, List.take_append_drop, List.nil_append, List.length_nil, h] at hput
  rw [Option.some.inj hput, List.take_left]

/-- Decoding is safe on exactly the lines that have no data record too short for its own address. -/
theorem srec_decode_safe_iff (s : CString) : DecodesSafely s ↔ ¬ShortRecord s.bytes := by
  constructor
  · rintro hsafe ⟨type, v, width, length, addr, hfield, haddr, hshort, htext⟩
    have hlen : (([] : List UInt8)).length = ((length.toNat : Int) - (width + 1)).toNat := by
      rw [List.length_nil]
      omega
    have hok := srecDecode_of_text hfield haddr hlen htext
    obtain ⟨data', heq, -⟩ := srecDecodeIn_line s (List.replicate SREC_MAXBINLEN 0) List.length_replicate
    rw [hok] at heq
    have hnonneg : (0 : Int) ≤ length.toNat - (width + 1) :=
      (hsafe.right _ _ _ _ _ List.length_replicate heq (by rw [hfield]; rfl)).count_nonneg
    omega
  · intro hshort
    constructor
    · intro data hlen
      obtain ⟨data', heq, -⟩ := srecDecodeIn_line s data hlen
      rw [heq]
      rfl
    · intro data type count addr data' hlen heq hfield
      obtain ⟨data'', heq', hstored⟩ := srecDecodeIn_line s data hlen
      rw [heq] at heq'
      obtain ⟨hres, rfl⟩ := Prod.mk.inj (Option.some.inj heq')
      cases hdec : srecDecode s.bytes with
      | error e =>
        rw [hdec] at hres
        cases hres
      | ok r =>
        rw [hdec] at hres
        cases hres
        obtain ⟨⟨v, width⟩, hfield'⟩ := Option.isSome_iff_exists.1 hfield
        obtain ⟨length, bytes, hwidth, haddr, hcount, hdata, htext⟩ := text_of_srecDecode hdec hfield'
        have hnonneg : 0 ≤ r.count := by
          by_contra hneg
          have hnil : r.data = [] := List.eq_nil_of_length_eq_zero (by omega)
          rw [hnil] at htext
          exact hshort ⟨r.type, v, width, length, bytes, hfield', hwidth, by omega, htext⟩
        have hbyte := length.toNat_lt
        have htake : data'.take r.count.toNat = r.data := by
          rw [← hdata]
          exact take_of_putBytes (hstored r hdec) (by rw [hlen, SREC_MAXBINLEN]; omega)
        refine ⟨hnonneg, by rw [SREC_MAXBINLEN]; omega, by rw [htake, hdata], ?_, ?_⟩
        · exact ⟨v, width, length, bytes, hfield', hwidth, haddr, by omega, by rw [htake]; exact htext⟩
        · intro offset fuel input rest mem start stop hread
          rw [htake]
          exact loadLoop_dataRecord hdec hfield hnonneg offset fuel mem start stop hread

/-- `"S1010000FE"`: the length counts one byte, the address and the checksum are three. -/
def shortLine : CString := ⟨[0x53, 0x31, 0x30, 0x31, 0x30, 0x30, 0x30, 0x30, 0x46, 0x45], by decide⟩

/-- `*count` is -2, and `load_serial` hands it to `memcpy`. -/
theorem srec_decode_short : ¬DecodesSafely shortLine ∧ srecDecodeIn (shortLine.bytes ++ [0]) (List.replicate SREC_MAXBINLEN 0) =
      some (.ok (.data2, -2, 0), List.replicate SREC_MAXBINLEN 0) ∧
    loadSerial 0 (shortLine.bytes ++ [chNewline]) (fun _ => 0) = none := by
  have heq : srecDecodeIn (shortLine.bytes ++ [0]) (List.replicate SREC_MAXBINLEN 0) =
      some (.ok (.data2, -2, 0), List.replicate SREC_MAXBINLEN 0) := by rfl
  refine ⟨?_, heq, by rfl⟩
  intro hsafe
  exact absurd (hsafe.right _ _ _ _ _ List.length_replicate heq rfl).count_nonneg (by decide)

end UBoot
