import UBoot.Lemmas.MtdAux

/-!
# A size reads back as it was written

The decimal digits of a number, read in base 10 up to the first byte that is no digit, and the units of `memsize_format`.
-/

namespace UBoot

open List Option

namespace MemsizeAux
variable {n size : Nat} {rest : List UInt8}


theorem xdigit_dec {d : Nat} (hd : d < 10) : xdigit (UInt8.ofNat (0x30 + d)) = some d := by
  have hcases : ∀ d < 10, xdigit (UInt8.ofNat (0x30 + d)) = some d := by decide
  exact hcases d hd

/-- The digits of a number are read as the number. -/
theorem strtoulEndLoop_digits (width : Nat) (hn : n < 10 ^ width) (hw : 0 < width) (h32 : n < 2 ^ 32)
    (rest : List UInt8) : strtoulEndLoop 10 0 (decDigits width n ++ rest) = strtoulEndLoop 10 n rest := by
  induction width generalizing n rest with
  | zero => omega
  | succ width ih =>
    rw [decDigits]
    split
    · rename_i hlt
      rw [singleton_append, strtoulEndLoop, xdigit_dec hlt]
      simp only [if_pos hlt, Nat.zero_mul, Nat.zero_add, Nat.mod_eq_of_lt h32]
    · rename_i hge
      have hdiv : n / 10 < 10 ^ width := by
        rw [Nat.pow_succ] at hn
        omega
      have hw' : 0 < width := by
        by_contra h0
        obtain rfl : width = 0 := by omega
        omega
      have hmod : n % 10 < 10 := Nat.mod_lt _ (by decide)
      have hsum : (n / 10 * 10 + n % 10) % 2 ^ 32 = n := by omega
      rw [append_assoc, ih hdiv hw' (by omega), singleton_append, strtoulEndLoop, xdigit_dec hmod]
      simp only [if_pos hmod, hsum]

theorem decDigits_head (width : Nat) (hn : n < 10 ^ width) (h0 : n ≠ 0) :
    ∃ d ds, decDigits width n = d :: ds ∧ d ≠ 0x30 ∧ (xdigit d).isSome := by
  induction width generalizing n with
  | zero => omega
  | succ width ih =>
    rw [decDigits]
    split
    · rename_i hlt
      have hcases : ∀ n < 10, n ≠ 0 → UInt8.ofNat (0x30 + n) ≠ 0x30 := by decide
      exact ⟨_, [], rfl, hcases n hlt h0, by rw [xdigit_dec hlt]; rfl⟩
    · have hdiv : n / 10 < 10 ^ width := by
        rw [Nat.pow_succ] at hn
        omega
      obtain ⟨d, ds, hds, hd⟩ := ih hdiv (by omega)
      exact ⟨d, ds ++ [UInt8.ofNat (0x30 + n % 10)], by rw [hds, cons_append], hd⟩

/-- A byte that ends a decimal number. -/
def EndsNumber (rest : List UInt8) : Prop := ∀ c ∈ rest.head?, ∀ v ∈ xdigit c, 10 ≤ v

theorem simpleStrtoulEnd_decText (h0 : n ≠ 0) (h32 : n < 2 ^ 32) (hend : EndsNumber rest) :
    simpleStrtoulEnd (decText n ++ rest) = (n, rest) := by
  have hn : n < 10 ^ 10 := by omega
  obtain ⟨d, ds, hds, hd, -⟩ := decDigits_head 10 hn h0
  have hbase : strtoulBase (decText n ++ rest) = (10, decText n ++ rest) := by
    rw [decText, hds, cons_append]
    unfold strtoulBase
    split
    · rename_i h
      exact absurd (List.cons.inj h).1 hd
    · rename_i h
      exact absurd (List.cons.inj h).1 hd
    · rfl
  rw [simpleStrtoulEnd, hbase, decText, strtoulEndLoop_digits 10 hn (by decide) h32]
  cases rest with
  | nil => rfl
  | cons c cp =>
    rw [strtoulEndLoop]
    cases hv : xdigit c with
    | none => rfl
    | some v =>
      have hle : 10 ≤ v := hend c rfl v hv
      simp only [if_neg (Nat.not_lt.2 hle)]

/-- A byte after which `memsize_parse` takes no unit, and that ends a number. -/
structure EndsSize (rest : List UInt8) : Prop where
  number : EndsNumber rest
  unit : ∀ c ∈ rest.head?, c ∉ [0x47, 0x67, 0x4d, 0x6d, 0x4b, 0x6b]

theorem simpleStrtoulEnd_unit (h0 : n ≠ 0) (h32 : n < 2 ^ 32) {c : UInt8} (hc : xdigit c = none)
    (rest : List UInt8) : simpleStrtoulEnd (decText n ++ [c] ++ rest) = (n, c :: rest) := by
  have hend : EndsNumber (c :: rest) := by
    intro x hx v hv
    obtain rfl := some.inj hx
    rw [hc] at hv
    cases hv
  rw [append_assoc, singleton_append, simpleStrtoulEnd_decText h0 h32 hend]

/-- A size reads back as it was written. -/
theorem memsizeParse_format (h0 : size ≠ 0) (h32 : size < 2 ^ 32) (hend : EndsSize rest) :
    memsizeParse (memsizeFormat size ++ rest) = (size, rest) := by
  rw [memsizeFormat]
  split
  · rw [memsizeParse, simpleStrtoulEnd_unit (by omega) (by omega) (by decide)]
    have hsize : shl10 (shl10 (shl10 (size / 2 ^ 30))) = size := by
      unfold shl10
      omega
    simpa using hsize
  split
  · rw [memsizeParse, simpleStrtoulEnd_unit (by omega) (by omega) (by decide)]
    have hsize : shl10 (shl10 (size / 2 ^ 20)) = size := by
      unfold shl10
      omega
    simpa using hsize
  split
  · rw [memsizeParse, simpleStrtoulEnd_unit (by omega) (by omega) (by decide)]
    have hsize : shl10 (size / 2 ^ 10) = size := by
      unfold shl10
      omega
    simpa using hsize
  · rw [memsizeParse, simpleStrtoulEnd_decText h0 h32 hend.number]
    cases rest with
    | nil => rfl
    | cons c rest =>
      have hunit := hend.unit c rfl
      simp only [mem_cons, not_mem_nil, or_false, not_or] at hunit
      simp [hunit]

theorem memsizeFormat_head (h0 : size ≠ 0) (h32 : size < 2 ^ 32) : ∃ d ds, memsizeFormat size = d :: ds ∧ (xdigit d).isSome := by
  have hdec {n : Nat} (hn : n ≠ 0) (h32 : n < 2 ^ 32) (unit : List UInt8) : ∃ d ds, decText n ++ unit = d :: ds ∧ (xdigit d).isSome := by
    obtain ⟨d, ds, hds, -, hd⟩ := decDigits_head 10 (show n < 10 ^ 10 by omega) hn
    exact ⟨d, ds ++ unit, by rw [decText, hds, cons_append], hd⟩
  rw [memsizeFormat]
  split
  · exact hdec (by omega) (by omega) _
  split
  · exact hdec (by omega) (by omega) _
  split
  · exact hdec (by omega) (by omega) _
  · simpa using hdec h0 h32 []

end MemsizeAux

/-!
## The text of a partition table

`generate_mtdparts` puts its text piece by piece and stops at the first that does not fit, which is as good as putting the whole
text if it fits. Each piece of the text is read back by the part of the parser it is for.
-/

section

/-- The text of a partition after `prevPart`. -/
def partText (prevPart : Option PartInfo) (part : PartInfo) : List UInt8 :=
  memsizeFormat part.size ++ ((if needsOffset prevPart part then chAt :: memsizeFormat part.offset else []) ++
    ((if !part.autoName then chOpen :: (part.name.bytes ++ [chClose]) else []) ++ (if part.maskFlags != 0 then roText else [])))

/-- The text of the partitions of a device. -/
def partsText : Option PartInfo → List PartInfo → List UInt8
  | _, [] => []
  | prevPart, part :: parts =>
    partText prevPart part ++ ((if parts = [] then [] else [chComma]) ++ partsText (some part) parts)

/-- The text of some devices. -/
def devicesText : List MtdDevice → List UInt8
  | [] => []
  | dev :: devices =>
    dev.id.mtdId.bytes ++ chColon :: (partsText none dev.parts ++ ((if devices = [] then [] else [chSemicolon]) ++ devicesText devices))

/-- The value of the variable for a list of devices. -/
def mtdpartsText (devices : List MtdDevice) : List UInt8 :=
  if devices = [] then [] else mtdpartsPrefix ++ devicesText devices

namespace MtdAux

open MemsizeAux

/-! ## The generator -/

variable {devices : List MtdDevice} {rest : List UInt8}

theorem putText_append (t u : List UInt8) (b : List UInt8 × Nat) : (putText t b).bind (putText u) = putText (t ++ u) b := by
  rw [putText, putText, length_append]
  by_cases ht : t.length > b.2
  · rw [if_pos ht, if_pos (by omega), bind_none]
  · rw [if_neg ht, bind_some, putText]
    by_cases hu : u.length > b.2 - t.length
    · rw [if_pos hu, if_pos (by omega)]
    · rw [if_neg hu, if_neg (by omega), append_assoc, Nat.sub_sub]

theorem putTextIf_eq (c : Bool) (t : List UInt8) (b : List UInt8 × Nat) : putTextIf c t b = putText (if c then t else []) b := by
  cases c with
  | true => rfl
  | false => simp [putTextIf, putText]

theorem generateParts_eq (parts : List PartInfo) (partCnt : Nat) (prevPart : Option PartInfo) (b : List UInt8 × Nat) :
    generateParts (partCnt + parts.length) partCnt prevPart parts b = putText (partsText prevPart parts) b := by
  induction parts generalizing partCnt prevPart b with
  | nil => simp [generateParts, partsText, putText]
  | cons part parts ih =>
    have hcomma : (if decide (partCnt + (parts.length + 1) > partCnt + 1) then [chComma] else []) =
        if parts = [] then ([] : List UInt8) else [chComma] := by
      cases parts with
      | nil => simp
      | cons q parts => simp
    have hcount : partCnt + (parts.length + 1) = partCnt + 1 + parts.length := by omega
    rw [generateParts]
    simp only [bind_eq_bind, putTextIf_eq, length_cons, hcomma]
    simp only [hcount, ih, putText_append, partsText, partText, append_assoc]

theorem generateDevices_eq (hcount : ∀ d ∈ devices, d.numParts = d.parts.length)
    (b : List UInt8 × Nat) : generateDevices devices b = putText (devicesText devices) b := by
  induction devices generalizing b with
  | nil => simp [generateDevices, devicesText, putText]
  | cons dev devices ih =>
    have hparts := generateParts_eq dev.parts 0 none
    rw [Nat.zero_add, ← hcount dev mem_cons_self] at hparts
    have hsep : (if devices != [] then [chSemicolon] else []) = if devices = [] then ([] : List UInt8) else [chSemicolon] := by
      cases devices <;> simp
    have ih := ih fun d hd => hcount d (mem_cons_of_mem _ hd)
    rw [generateDevices]
    simp only [bind_eq_bind, putTextIf_eq, hparts, hsep, ih, putText_append, devicesText, append_assoc, singleton_append]

theorem generateMtdparts_eq (hcount : ∀ d ∈ devices, d.numParts = d.parts.length) {buflen : Nat}
    (hfits : (mtdpartsText devices).length + 1 ≤ buflen) (h32 : buflen < 2 ^ 32) :
    generateMtdparts buflen devices = some (mtdpartsText devices) := by
  rw [generateMtdparts, mtdpartsText]
  split
  · rfl
  · rename_i hne
    rw [mtdpartsText, if_neg hne, length_append] at hfits
    have hroom : sub32 buflen 1 = buflen - 1 := by
      unfold sub32
      omega
    rw [generateDevices_eq hcount, putText, if_neg (by rw [hroom]; omega)]
    rfl

/-! ## The parser -/

/-- What a partition says besides its address: size, offset, whether it is read-only, and name. -/
def contents (part : PartInfo) : Nat × Nat × Bool × CString := (part.size, part.offset, part.maskFlags != 0, part.name)

theorem endsSize_cons {c : UInt8} (hx : xdigit c = none) (hu : c ∉ [0x47, 0x67, 0x4d, 0x6d, 0x4b, 0x6b]) (rest : List UInt8) :
    EndsSize (c :: rest) := by
  refine ⟨?_, ?_⟩
  · intro d hd v hv
    obtain rfl := some.inj hd
    rw [hx] at hv
    cases hv
  · intro d hd
    obtain rfl := some.inj hd
    exact hu

theorem parsePartSize_text {size : Nat} (hmin : MIN_PART_SIZE ≤ size) (h32 : size < 2 ^ 32)
    (hend : EndsSize rest) : parsePartSize (memsizeFormat size ++ rest) = some (size, rest) := by
  have h0 : size ≠ 0 := by
    rintro rfl
    exact absurd hmin (by decide)
  obtain ⟨d, ds, hds, hd⟩ := memsizeFormat_head h0 h32
  have hminus : (memsizeFormat size ++ rest).head? ≠ some chMinus := by
    rw [hds]
    intro he
    obtain rfl := some.inj he
    exact absurd hd (by decide)
  rw [parsePartSize, if_neg hminus, memsizeParse_format h0 h32 hend, if_neg (Nat.not_lt.2 hmin)]

theorem parsePartOffset_text {offset : Nat} {given : Bool} (h0 : given = true → offset ≠ 0) (h32 : offset < 2 ^ 32) (rest : List UInt8) :
    parsePartOffset ((if given then chAt :: memsizeFormat offset else []) ++ chOpen :: rest) =
      (if given then offset else OFFSET_NOT_SPECIFIED, chOpen :: rest) := by
  have hend : EndsSize (chOpen :: rest) := endsSize_cons (by decide) (by decide) rest
  cases given with
  | true =>
    simp only [if_true]
    rw [parsePartOffset, cons_append, if_pos (by rfl), tail_cons, memsizeParse_format (h0 rfl) h32 hend]
  | false =>
    have hat : (chOpen :: rest).head? ≠ some chAt := by
      intro he
      exact absurd (some.inj he) (by decide)
    simp only [Bool.false_eq_true, if_false, nil_append]
    rw [parsePartOffset, if_neg hat]

theorem parsePartName_text {name : List UInt8} (hne : name ≠ []) (hclose : chClose ∉ name) (rest : List UInt8) :
    parsePartName (chOpen :: (name ++ chClose :: rest)) = some (some name, rest) := by
  have hpos : ∀ c ∈ name, (c != chClose) = true := fun c hc => bne_iff_ne.2 fun h => hclose (h ▸ hc)
  have htake : (name ++ chClose :: rest).takeWhile (· != chClose) = name := by
    rw [takeWhile_append_of_pos hpos]
    simp
  have hdrop : (name ++ chClose :: rest).dropWhile (· != chClose) = chClose :: rest := by
    rw [dropWhile_append_of_pos hpos]
    simp
  rw [parsePartName, if_pos (by rfl), tail_cons, hdrop, htake]
  simp only [if_neg hne]

/-- The read-only flag is parsed back before a byte that is no `r`. -/
theorem parsePartFlags_text {ro : Bool} (hrest : ∀ c ∈ rest.head?, c ≠ 0x72) :
    parsePartFlags ((if ro then roText else []) ++ rest) = (if ro then MTD_WRITEABLE_CMD else 0, rest) := by
  cases ro with
  | true => rfl
  | false =>
    have hno : ¬(roText.isPrefixOf rest = true) := by
      intro h
      cases rest with
      | nil => cases h
      | cons c rest =>
        have hc := hrest c rfl
        simp [roText, List.isPrefixOf] at h
        exact hc h.1.symm
    simp only [Bool.false_eq_true, if_false, nil_append]
    rw [parsePartFlags, if_neg hno]

end MtdAux

end

end UBoot
