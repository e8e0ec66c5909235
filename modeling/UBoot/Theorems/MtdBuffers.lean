import Mathlib
import UBoot.Lemmas.MtdText

/-!
# When the mtdparts text stays inside its buffers

The pieces are counted against `buflen - 1`, but not the nine bytes of `"mtdparts="`; the length that `mtdparts add` tests has 8 bits.
-/

namespace UBoot

open List Option

/-- The pieces of the partitions of a device, as the generator puts them. -/
def partsPieces (numParts : Nat) : Nat → Option PartInfo → List PartInfo → List (List UInt8)
  | _, _, [] => []
  | partCnt, prevPart, part :: parts =>
    memsizeFormat part.size :: ((if needsOffset prevPart part then [chAt :: memsizeFormat part.offset] else []) ++
      ((if !part.autoName then [chOpen :: (part.name.bytes ++ [chClose])] else []) ++ ((if part.maskFlags != 0 then [roText] else []) ++
          ((if decide (numParts > partCnt + 1) then [[chComma]] else []) ++ partsPieces numParts (partCnt + 1) (some part) parts))))

def devicesPieces : List MtdDevice → List (List UInt8)
  | [] => []
  | dev :: devices =>
    (dev.id.mtdId.bytes ++ [chColon]) :: (partsPieces dev.numParts 0 none dev.parts ++
      ((if devices != [] then [[chSemicolon]] else []) ++ devicesPieces devices))

/-- The complete string for a list of devices. -/
def completeText (devices : List MtdDevice) : List UInt8 :=
  if devices = [] then [] else mtdpartsPrefix ++ (devicesPieces devices).flatten

/-- The generator stays inside its buffer, and returns 0 exactly when the complete string and its NUL fit. -/
def GeneratesInside (buf : List UInt8) (buflen : Nat) (devices : List MtdDevice) : Prop :=
  ∃ ret buf', generateMtdpartsIn buf buflen devices = some (ret, buf') ∧ (ret = 0 ↔ (completeText devices).length + 1 ≤ buflen)

/-- The pieces that are accepted leave room for `"mtdparts="`, and all of them also for the NUL. -/
def LeavesRoom (buflen : Nat) (devices : List MtdDevice) : Prop :=
  (∀ k, ((devicesPieces devices).take k).flatten.length ≤ buflen - 1 →
    mtdpartsPrefix.length + ((devicesPieces devices).take k).flatten.length ≤ buflen) ∧
  ((devicesPieces devices).flatten.length ≤ buflen - 1 → mtdpartsPrefix.length + (devicesPieces devices).flatten.length + 1 ≤ buflen)

/-- The lengths of the id, of `argv[3]` to `argv[5]`, with which a definition stays inside its 64 bytes. Without `argv[5]`, or with one of two
bytes, the length is right up to 255, and wraps there; another `argv[5]` is not counted. -/
def DescStaysInside (mtdId sizeOffset name ro : Nat) : Prop :=
  let len := mtdId + 1 + sizeOffset + name + 2
  if ro = 0 ∨ ro = 2 then len + ro < 256 ∨ 64 ≤ (len + ro) % 256 else len + ro < 64 ∨ 64 ≤ len % 256

namespace MtdBuffersAux

/-! ### The generator puts its pieces -/

variable {pieces : List (List UInt8)} {b : MtdOut} {buf tmpbuf : List UInt8} {buflen : Nat}

theorem putPieceIf_eq (c : Bool) (text : List UInt8) (b : MtdOut) : putPieceIf c text b = (if c then [text] else []).foldlM putPiece b := by
  cases c with
  | false => rfl
  | true =>
    show putPiece b text = putPiece b text >>= pure
    rw [bind_pure]

theorem generatePartsIn_eq (numParts : Nat) (parts : List PartInfo) (partCnt : Nat) (prevPart : Option PartInfo) (b : MtdOut) :
    generatePartsIn numParts partCnt prevPart parts b = (partsPieces numParts partCnt prevPart parts).foldlM putPiece b := by
  induction parts generalizing partCnt prevPart b with
  | nil => rfl
  | cons part parts ih =>
    rw [generatePartsIn, partsPieces, foldlM_cons]
    simp only [putPieceIf_eq, foldlM_append, ih]

theorem generateDevicesIn_eq (devices : List MtdDevice) (b : MtdOut) :
    generateDevicesIn devices b = (devicesPieces devices).foldlM putPiece b := by
  induction devices generalizing b with
  | nil => rfl
  | cons dev devices ih =>
    rw [generateDevicesIn, devicesPieces, foldlM_cons]
    simp only [putPieceIf_eq, foldlM_append, generatePartsIn_eq, ih]

/-! ### Putting pieces -/

theorem putBytes_none {data bs : List UInt8} {i : Nat} (hi : i ≤ data.length) (h : data.length < i + bs.length) : putBytes data i bs = none := by
  induction bs generalizing data i with
  | nil => exact absurd h (by simpa using hi)
  | cons b bs ih =>
    rw [length_cons] at h
    rw [putBytes, putByte]
    by_cases hlt : i < data.length
    · rw [if_pos hlt, bind_some]
      exact ih (by rwa [length_set]) (by rw [length_set]; omega)
    · rw [if_neg hlt, bind_none]

/-- The pieces that are accepted fit into the buffer. -/
def PiecesFit (pieces : List (List UInt8)) (b : MtdOut) : Prop :=
  ∀ k, (pieces.take k).flatten.length ≤ b.maxlen → b.p + (pieces.take k).flatten.length ≤ b.buf.length

theorem piecesFit_cons {piece : List UInt8} (b' : MtdOut) (hle : piece.length ≤ b.maxlen)
    (hp : b'.p = b.p + piece.length) (hmax : b'.maxlen = b.maxlen - piece.length) (hlen : b'.buf.length = b.buf.length)
    (hpos : b.p ≤ b.buf.length) : PiecesFit (piece :: pieces) b ↔ PiecesFit pieces b' := by
  constructor
  · intro h k hk
    have := h (k + 1)
    rw [take_succ_cons, flatten_cons, length_append] at this
    omega
  · intro h k hk
    cases k with
    | zero => simpa using hpos
    | succ k =>
      have := h k
      rw [take_succ_cons, flatten_cons, length_append] at hk ⊢
      omega

theorem foldlM_putPiece_fit (hpos : b.p ≤ b.buf.length) (h : PiecesFit pieces b) :
    if pieces.flatten.length ≤ b.maxlen then
      ∃ b', pieces.foldlM putPiece b = .ok b' ∧ b'.p = b.p + pieces.flatten.length ∧ b'.buf.length = b.buf.length
    else ∃ buf', pieces.foldlM putPiece b = .error (.cleanup buf') := by
  induction pieces generalizing b with
  | nil => exact ⟨b, rfl, rfl, rfl⟩
  | cons piece pieces ih =>
    rw [foldlM_cons, flatten_cons, length_append]
    by_cases hle : piece.length ≤ b.maxlen
    · have hroom := h 1
      rw [take_succ_cons, take_zero, flatten_cons, flatten_nil, append_nil] at hroom
      obtain ⟨buf', hput, hlen⟩ := putBytes_some _ _ _ (hroom hle)
      have hpiece : putPiece b piece = .ok ⟨buf', b.p + piece.length, b.maxlen - piece.length⟩ := by
        rw [putPiece, if_neg (Nat.not_lt.2 hle), hput]
      have h' := (piecesFit_cons ⟨buf', b.p + piece.length, b.maxlen - piece.length⟩ hle rfl rfl hlen hpos).1 h
      have ih' := ih (b := ⟨buf', b.p + piece.length, b.maxlen - piece.length⟩) (by dsimp only; rw [hlen]; exact hroom hle) h'
      have hiff : piece.length + pieces.flatten.length ≤ b.maxlen ↔ pieces.flatten.length ≤ b.maxlen - piece.length := by omega
      rw [hpiece]
      simp only [hiff]
      split
      next hfits =>
        rw [if_pos hfits] at ih'
        obtain ⟨b', hb', hp, hbuf⟩ := ih'
        exact ⟨b', hb', by rw [hp, Nat.add_assoc], hbuf.trans hlen⟩
      next hlong =>
        rw [if_neg hlong] at ih'
        exact ih'
    · rw [if_neg (by omega), putPiece, if_pos (by omega)]
      exact ⟨b.buf, rfl⟩

/-- A piece that is accepted but does not fit is stored outside. -/
theorem foldlM_putPiece_outside (hpos : b.p ≤ b.buf.length) (h : ¬PiecesFit pieces b) :
    pieces.foldlM putPiece b = .error .outside := by
  induction pieces generalizing b with
  | nil =>
    refine absurd (fun k _ => ?_) h
    rw [take_nil]
    exact hpos
  | cons piece pieces ih =>
    rw [foldlM_cons, putPiece]
    by_cases hle : piece.length ≤ b.maxlen
    · rw [if_neg (Nat.not_lt.2 hle)]
      by_cases hroom : b.p + piece.length ≤ b.buf.length
      · obtain ⟨buf', hput, hlen⟩ := putBytes_some _ _ _ hroom
        rw [hput]
        refine ih (b := ⟨buf', b.p + piece.length, b.maxlen - piece.length⟩) (by dsimp only; rw [hlen]; exact hroom) fun h' => h ?_
        exact (piecesFit_cons ⟨buf', b.p + piece.length, b.maxlen - piece.length⟩ hle rfl rfl hlen hpos).2 h'
      · rw [putBytes_none hpos (Nat.lt_of_not_le hroom)]
        rfl
    · -- a piece that is not accepted leaves nothing that could go outside
      refine absurd (fun k hk => ?_) h
      cases k with
      | zero => simpa using hpos
      | succ k =>
        rw [take_succ_cons, flatten_cons, length_append] at hk
        omega

/-! ### The generator -/

theorem generatesInside_nil (hbuf : buf.length = buflen) (hlow : 10 ≤ buflen) :
    GeneratesInside buf buflen [] ∧ LeavesRoom buflen [] := by
  have hprefix : mtdpartsPrefix.length = 9 := rfl
  refine ⟨⟨0, buf.set 0 0, ?_, ?_⟩, ?_, ?_⟩
  · rw [generateMtdpartsIn, if_pos rfl, putByte, if_pos (by omega), map_some]
  · exact iff_of_true rfl (by show 0 + 1 ≤ buflen; omega)
  · intro k _
    rw [devicesPieces, take_nil, flatten_nil, length_nil]
    omega
  · intro _
    rw [devicesPieces, flatten_nil, length_nil]
    omega

/-- The generator puts the pieces behind `"mtdparts="`, and a NUL behind them. -/
theorem generateMtdpartsIn_run {devices : List MtdDevice} (hne : devices ≠ [])
    (hbuf : buf.length = buflen) (hlow : 10 ≤ buflen) (h32 : buflen < 2 ^ 32) :
    ∃ buf1, buf1.length = buflen ∧
      ((devicesPieces devices).foldlM putPiece ⟨buf1, 9, buflen - 1⟩ = .error .outside → generateMtdpartsIn buf buflen devices = none) ∧
      (∀ buf', (devicesPieces devices).foldlM putPiece ⟨buf1, 9, buflen - 1⟩ = .error (.cleanup buf') →
        generateMtdpartsIn buf buflen devices = some (1, buf')) ∧
      (∀ b, (devicesPieces devices).foldlM putPiece ⟨buf1, 9, buflen - 1⟩ = .ok b →
        generateMtdpartsIn buf buflen devices = (putByte b.buf b.p 0).map fun buf => (0, buf)) := by
  have hprefix : mtdpartsPrefix.length = 9 := rfl
  obtain ⟨buf1, hput, hlen⟩ := putBytes_some buf (mtdpartsPrefix ++ [0]) 0 (by rw [length_append, length_singleton]; omega)
  have hroom : sub32 buflen 1 = buflen - 1 := sub32_of_le (by omega) h32
  refine ⟨buf1, hlen.trans hbuf, fun h => ?_, fun buf' h => ?_, fun b h => ?_⟩
  · simp only [generateMtdpartsIn, if_neg hne, hput, generateDevicesIn_eq, hroom, hprefix, h]
  · simp only [generateMtdpartsIn, if_neg hne, hput, generateDevicesIn_eq, hroom, hprefix, h]
  · simp only [generateMtdpartsIn, if_neg hne, hput, generateDevicesIn_eq, hroom, hprefix, h]

theorem generatesInside_iff (devices : List MtdDevice) (hbuf : buf.length = buflen)
    (hlow : 10 ≤ buflen) (h32 : buflen < 2 ^ 32) : GeneratesInside buf buflen devices ↔ LeavesRoom buflen devices := by
  have hprefix : mtdpartsPrefix.length = 9 := rfl
  by_cases hempty : devices = []
  · subst hempty
    obtain ⟨hinside, hroom⟩ := generatesInside_nil hbuf hlow
    exact iff_of_true hinside hroom
  · obtain ⟨buf1, hlen1, houtside, hcleanup, hok⟩ := generateMtdpartsIn_run hempty hbuf hlow h32
    have hcomplete : (completeText devices).length = 9 + (devicesPieces devices).flatten.length := by
      rw [completeText, if_neg hempty, length_append, hprefix]
    have hpos : 9 ≤ buf1.length := by omega
    have hfit : PiecesFit (devicesPieces devices) ⟨buf1, 9, buflen - 1⟩ ↔ ∀ k, ((devicesPieces devices).take k).flatten.length ≤ buflen - 1 →
          mtdpartsPrefix.length + ((devicesPieces devices).take k).flatten.length ≤ buflen := by
      rw [PiecesFit, hlen1, hprefix]
    unfold GeneratesInside LeavesRoom
    rw [← hfit, hcomplete, hprefix]
    by_cases h : PiecesFit (devicesPieces devices) ⟨buf1, 9, buflen - 1⟩
    · have hrest := foldlM_putPiece_fit (b := ⟨buf1, 9, buflen - 1⟩) hpos h
      rw [and_iff_right h]
      by_cases htotal : (devicesPieces devices).flatten.length ≤ buflen - 1
      · rw [if_pos htotal] at hrest
        obtain ⟨b', hb', hp, hlen'⟩ := hrest
        dsimp only at hp hlen'
        rw [hok b' hb', imp_iff_right htotal]
        constructor
        · rintro ⟨ret, buf', hret, -⟩
          obtain ⟨buf'', hnul, -⟩ := map_eq_some_iff.1 hret
          have hlt := lt_of_putByte hnul
          omega
        · intro hnul
          refine ⟨0, b'.buf.set b'.p 0, ?_, iff_of_true rfl hnul⟩
          rw [putByte, if_pos (by omega), map_some]
      · rw [if_neg htotal] at hrest
        obtain ⟨buf', hbuf'⟩ := hrest
        rw [hcleanup buf' hbuf']
        exact iff_of_true ⟨1, buf', rfl, iff_of_false (by decide) (by omega)⟩ fun hle => absurd hle htotal
    · rw [houtside (foldlM_putPiece_outside (b := ⟨buf1, 9, buflen - 1⟩) hpos h)]
      refine iff_of_false ?_ fun hno => h hno.1
      rintro ⟨ret, buf', hret, -⟩
      cases hret

/-! ### mtdparts add -/

/-- The definition stays inside the buffer when its length is refused, or it fits with its NUL. -/
theorem addDesc_isSome (htmp : tmpbuf.length = PART_ADD_DESC_MAXLEN) (mtdId sizeOffset name : CString)
    (ro : Option CString) : (addDesc tmpbuf mtdId sizeOffset name ro).isSome ↔ addDescLen mtdId sizeOffset name ro ≥ PART_ADD_DESC_MAXLEN ∨
        (addDescText mtdId sizeOffset name ro).length + 1 ≤ PART_ADD_DESC_MAXLEN := by
  rw [addDesc]
  by_cases hlong : addDescLen mtdId sizeOffset name ro ≥ PART_ADD_DESC_MAXLEN
  · rw [if_pos hlong]
    exact iff_of_true rfl (Or.inl hlong)
  · rw [if_neg hlong, or_iff_right hlong, isSome_map]
    have hlen : (addDescText mtdId sizeOffset name ro ++ [0]).length = (addDescText mtdId sizeOffset name ro).length + 1 := by
      rw [length_append, length_singleton]
    by_cases hfits : (addDescText mtdId sizeOffset name ro).length + 1 ≤ PART_ADD_DESC_MAXLEN
    · obtain ⟨buf', hput, -⟩ := putBytes_some tmpbuf (addDescText mtdId sizeOffset name ro ++ [0]) 0 (by omega)
      rw [hput]
      exact iff_of_true rfl hfits
    · rw [putBytes_none (Nat.zero_le _) (by omega)]
      exact iff_of_false Bool.false_ne_true hfits

/-- The length that is computed: modulo 256, and with `argv[5]` just if it has two bytes. -/
theorem addDescLen_eq (mtdId sizeOffset name : CString) (ro : Option CString) : addDescLen mtdId sizeOffset name ro =
    (mtdId.bytes.length + 1 + sizeOffset.bytes.length + name.bytes.length + 2 + if ro.elim 0 (·.bytes.length) = 2 then 2 else 0) % 256 := by
  cases ro with
  | none =>
    simp only [addDescLen, elim_none, OfNat.zero_ne_ofNat, if_false]
    omega
  | some ro =>
    by_cases hro : ro.bytes.length = 2
    · simp only [addDescLen, elim_some, hro, if_true]
      omega
    · simp only [addDescLen, elim_some, hro, if_false]
      omega

theorem length_addDescText (mtdId sizeOffset name : CString) (ro : Option CString) : (addDescText mtdId sizeOffset name ro).length =
    mtdId.bytes.length + 1 + sizeOffset.bytes.length + name.bytes.length + 2 + ro.elim 0 (·.bytes.length) := by
  cases ro with
  | none =>
    simp [addDescText]
    omega
  | some ro =>
    simp [addDescText]
    omega

theorem addDesc_isSome_iff (htmp : tmpbuf.length = PART_ADD_DESC_MAXLEN) (mtdId sizeOffset name : CString)
    (ro : Option CString) : (addDesc tmpbuf mtdId sizeOffset name ro).isSome ↔
      DescStaysInside mtdId.bytes.length sizeOffset.bytes.length name.bytes.length (ro.elim 0 (·.bytes.length)) := by
  rw [addDesc_isSome htmp, addDescLen_eq, length_addDescText, DescStaysInside, PART_ADD_DESC_MAXLEN]
  generalize ro.elim 0 (·.bytes.length) = r
  split_ifs
  · omega
  · omega
  · omega
  · omega

end MtdBuffersAux

open MtdBuffersAux

/-- The generator stays inside its buffer, and returns 0 exactly when the complete string fits, if and only if the pieces it accepts
leave room for `"mtdparts="` and the NUL. `mtdparts add` stays inside its buffer with the right lengths of its arguments, and with no
others. -/
theorem mtdparts_buffers_iff (buf : List UInt8) (buflen : Nat) (devices : List MtdDevice) (tmpbuf : List UInt8)
    (mtdId sizeOffset name : CString) (ro : Option CString) :
    (buf.length = buflen → 10 ≤ buflen → buflen < 2 ^ 32 → (GeneratesInside buf buflen devices ↔ LeavesRoom buflen devices)) ∧
    (tmpbuf.length = PART_ADD_DESC_MAXLEN → ((addDesc tmpbuf mtdId sizeOffset name ro).isSome ↔
      DescStaysInside mtdId.bytes.length sizeOffset.bytes.length name.bytes.length (ro.elim 0 (·.bytes.length)))) :=
  ⟨fun hbuf hlow h32 => generatesInside_iff devices hbuf hlow h32, fun htmp => addDesc_isSome_iff htmp mtdId sizeOffset name ro⟩

theorem nul_free_nil : (0 : UInt8) ∉ ([] : List UInt8) := not_mem_nil

/-- A flash `n` with one partition of 64 KiB that has no name of its own: `mtdparts=n:64k`. -/
def oneDevice : MtdDevice where
  addr := 1
  id := ⟨1, 0, 0x10000, ⟨[0x6e], by decide⟩⟩
  numParts := 1
  parts := [⟨2, ⟨[], nul_free_nil⟩, true, 0x10000, 0, 0, 0x10000⟩]

/-- In a buffer of 12 bytes the size of the partition is stored behind the end. -/
theorem generate_overruns : ¬∀ (buf : List UInt8) (buflen : Nat) (devices : List MtdDevice), buf.length = buflen → 10 ≤ buflen →
    buflen < 2 ^ 32 → GeneratesInside buf buflen devices := by
  intro h
  obtain ⟨ret, buf', hrun, -⟩ := h (List.replicate 12 0) 12 [oneDevice] rfl (by decide) (by decide)
  have hnone : generateMtdpartsIn (List.replicate 12 0) 12 [oneDevice] = none := by decide
  rw [hnone] at hrun
  cases hrun

/-- The table of one device in a buffer of 64 bytes, and a definition for it that is read-only. -/
theorem mtdparts_buffers_small : GeneratesInside (List.replicate 64 0) 64 [oneDevice] ∧
    (addDesc (List.replicate 64 0) oneDevice.id.mtdId ⟨[0x31, 0x6d], by decide⟩ ⟨[0x61], by decide⟩ (some ⟨[0x72, 0x6f], by decide⟩)).isSome := by
  have hiff := mtdparts_buffers_iff (List.replicate 64 0) 64 [oneDevice] (List.replicate 64 0) oneDevice.id.mtdId
    ⟨[0x31, 0x6d], by decide⟩ ⟨[0x61], by decide⟩ (some ⟨[0x72, 0x6f], by decide⟩)
  have htext : (devicesPieces [oneDevice]).flatten.length = 5 := by decide
  refine ⟨(hiff.1 rfl (by decide) (by decide)).2 ⟨fun k _ => ?_, fun _ => ?_⟩, (hiff.2 rfl).2 (Or.inl (by decide))⟩
  · have hle := (take_sublist k (devicesPieces [oneDevice])).flatten.length_le
    show 9 + _ ≤ 64
    omega
  · show 9 + _ + 1 ≤ 64
    omega

end UBoot
