import UBoot.Gunzip

/-!
# Decompression inside its buffers

`zunzip` calls `inflate` again when it returns `Z_BUF_ERROR`, with counters that leave out what was consumed and produced before.
-/

namespace UBoot

open List Option

namespace Gunzip

variable {src dst dst' : List UInt8} {dstlen stoponerr : Int} {offset lenp : Nat} {s : ZStream} {call last : InflateCall}
  {again calls : List InflateCall}
variable {i : Nat} {res : Option (Int × Nat × List UInt8)}

/-! ## Calls of inflate -/

/-- What is assumed of `inflate`: a call consumes and produces no more than its counters say. -/
def Allowed (lenp offset : Nat) (dstlen : Int) : ZStream → List InflateCall → Prop
  | _, [] => True
  | s, call :: calls => call.consumed ≤ s.availIn ∧ call.out.length ≤ s.availOut ∧
      Allowed lenp offset dstlen (zunzipReset lenp offset dstlen (s.advance call)) calls

/-- The counters before the next call, when the loop has gone on after all of these. -/
def after (lenp offset : Nat) (dstlen : Int) (s : ZStream) (calls : List InflateCall) : ZStream :=
  calls.foldl (fun s call => zunzipReset lenp offset dstlen (s.advance call)) s

theorem allowed_append : Allowed lenp offset dstlen s (again ++ calls) ↔
    Allowed lenp offset dstlen s again ∧ Allowed lenp offset dstlen (after lenp offset dstlen s again) calls := by
  induction again generalizing s with
  | nil =>
    rw [nil_append]
    exact (and_iff_right trivial).symm
  | cons call again ih =>
    rw [cons_append, Allowed, Allowed, ih, and_assoc, and_assoc]
    rfl

/-- The bytes that calls consume, and those that they produce. -/
def consumed (calls : List InflateCall) : Nat := (calls.map InflateCall.consumed).sum
def produced (calls : List InflateCall) : Nat := (calls.map fun call => call.out.length).sum

theorem after_nextIn : (after lenp offset dstlen s calls).nextIn = s.nextIn + consumed calls := by
  induction calls generalizing s with
  | nil => rfl
  | cons call calls ih =>
    have ih' := ih (s := zunzipReset lenp offset dstlen (s.advance call))
    rw [after, foldl_cons, ← after, ih', consumed, consumed, map_cons, sum_cons, ← Nat.add_assoc]
    rfl

theorem after_nextOut : (after lenp offset dstlen s calls).nextOut = s.nextOut + produced calls := by
  induction calls generalizing s with
  | nil => rfl
  | cons call calls ih =>
    have ih' := ih (s := zunzipReset lenp offset dstlen (s.advance call))
    rw [after, foldl_cons, ← after, ih', produced, produced, map_cons, sum_cons, ← Nat.add_assoc]
    rfl

/-- The counters are those that the loop sets. -/
structure Restored (lenp offset : Nat) (dstlen : Int) (s : ZStream) : Prop where
  availIn : s.availIn = sub32 (sub32 lenp offset) (s.nextOut % 2 ^ 32)
  availOut : s.availOut = (dstlen % 2 ^ 32).toNat

theorem restored_start (dstlen : Int) (hlenp : lenp < 2 ^ 32) (hoffset : offset < 2 ^ 32) :
    Restored lenp offset dstlen (zunzipStart lenp offset dstlen) := by
  constructor
  · simp only [zunzipStart, sub32]
    omega
  · rw [zunzipStart]

theorem restored_reset : Restored lenp offset dstlen (zunzipReset lenp offset dstlen s) := by
  constructor
  · rw [zunzipReset]
  · rw [zunzipReset]

theorem restored_after (calls : List InflateCall) (hs : Restored lenp offset dstlen s) :
    Restored lenp offset dstlen (after lenp offset dstlen s calls) := by
  induction calls generalizing s with
  | nil => exact hs
  | cons call calls ih => exact ih restored_reset

/-! ## Runs -/

/-- `inflate` succeeds when it stays inside both buffers. -/
theorem inflate_eq_some_iff : inflate src dst s call = some dst' ↔
    (call.consumed = 0 ∨ s.nextIn + call.consumed ≤ src.length) ∧ putBytes dst s.nextOut call.out = some dst' := by
  unfold inflate
  split
  next h => exact (and_iff_right h).symm
  next h => exact iff_of_false nofun fun h' => h h'.1

theorem of_putBytes {data data' bs : List UInt8} (h : putBytes data i bs = some data') :
    data'.length = data.length ∧ (bs = [] ∨ i + bs.length ≤ data.length) := by
  induction bs generalizing data i with
  | nil =>
    obtain rfl := some.inj h
    exact ⟨rfl, Or.inl rfl⟩
  | cons b bs ih =>
    rw [putBytes] at h
    obtain ⟨mid, hput, hrest⟩ := bind_eq_some_iff.mp h
    have hlt := lt_of_putByte hput
    have hmid : mid.length = data.length := by
      rw [putByte, if_pos hlt] at hput
      rw [← some.inj hput, length_set]
    obtain ⟨hlen, hroom⟩ := ih hrest
    refine ⟨hlen.trans hmid, Or.inr ?_⟩
    rw [length_cons]
    rcases hroom with rfl | hroom
    · exact hlt
    · omega

theorem zunzipLoop_again (hagain : ∀ call ∈ again, call.r = Z_BUF_ERROR)
    (h : zunzipLoop src dstlen stoponerr offset (again ++ calls) dst s = some res) :
    ∃ dst', zunzipLoop src dstlen stoponerr offset calls dst' (after src.length offset dstlen s again) = some res ∧
      dst'.length = dst.length ∧ (consumed again = 0 ∨ s.nextIn + consumed again ≤ src.length) ∧
      (produced again = 0 ∨ s.nextOut + produced again ≤ dst.length) := by
  induction again generalizing dst s with
  | nil => exact ⟨dst, h, rfl, Or.inl rfl, Or.inl rfl⟩
  | cons call again ih =>
    obtain ⟨hcall, hagain⟩ := forall_mem_cons.mp hagain
    rw [cons_append, zunzipLoop] at h
    cases hinf : inflate src dst s call with
    | none =>
      rw [hinf] at h
      cases h
    | some mid =>
      obtain ⟨hread, hput⟩ := inflate_eq_some_iff.mp hinf
      obtain ⟨hmid, hwrite⟩ := of_putBytes hput
      simp only [hinf] at h
      rw [if_neg (fun hstop => hstop.2.1 hcall), if_pos hcall] at h
      obtain ⟨dst', heq, hlen, hc, hp⟩ := ih hagain h
      refine ⟨dst', heq, hlen.trans hmid, ?_, ?_⟩
      · have hsum : consumed (call :: again) = call.consumed + consumed again := sum_cons
        have hnext : (zunzipReset src.length offset dstlen (s.advance call)).nextIn = s.nextIn + call.consumed := rfl
        omega
      · have hsum : produced (call :: again) = call.out.length + produced again := sum_cons
        have hnext : (zunzipReset src.length offset dstlen (s.advance call)).nextOut = s.nextOut + call.out.length := rfl
        have hput : call.out.length = 0 ∨ s.nextOut + call.out.length ≤ dst.length := hwrite.imp_left fun h => by rw [h, length_nil]
        omega

/-- Calls that consumed and produced nothing. -/
def Quiet (calls : List InflateCall) : Prop := ∀ call ∈ calls, call.consumed = 0 ∧ call.out = []

theorem quiet_iff : Quiet calls ↔ consumed calls = 0 ∧ produced calls = 0 := by
  induction calls with
  | nil => exact iff_of_true nofun ⟨rfl, rfl⟩
  | cons call calls ih =>
    have hc : consumed (call :: calls) = call.consumed + consumed calls := sum_cons
    have hp : produced (call :: calls) = call.out.length + produced calls := sum_cons
    rw [Quiet, forall_mem_cons, ← Quiet, ih, hc, hp, ← length_eq_zero_iff]
    omega

theorem after_quiet (hquiet : Quiet calls) (hs : Restored lenp offset dstlen s) : after lenp offset dstlen s calls = s := by
  induction calls with
  | nil => rfl
  | cons call calls ih =>
    obtain ⟨⟨hconsumed, hout⟩, hquiet⟩ := forall_mem_cons.mp hquiet
    have hsame : zunzipReset lenp offset dstlen (s.advance call) = s := by
      rw [zunzipReset, ZStream.advance, hconsumed, hout, length_nil]
      simp only [Nat.add_zero, ← hs.availIn, ← hs.availOut]
    rw [after, foldl_cons, hsame]
    exact ih hquiet

theorem zunzipLoop_quiet (hagain : ∀ call ∈ again, call.r = Z_BUF_ERROR) (hquiet : Quiet again) (hs : Restored src.length offset dstlen s) :
    zunzipLoop src dstlen stoponerr offset (again ++ calls) dst s = zunzipLoop src dstlen stoponerr offset calls dst s := by
  induction again with
  | nil => rfl
  | cons call again ih =>
    obtain ⟨hcall, hagain⟩ := forall_mem_cons.mp hagain
    obtain ⟨hfirst, hquiet⟩ := forall_mem_cons.mp hquiet
    have hinf : inflate src dst s call = some dst := inflate_eq_some_iff.mpr ⟨Or.inl hfirst.1, by rw [hfirst.2]; rfl⟩
    have hsame : after src.length offset dstlen s [call] = s := after_quiet (forall_mem_singleton.mpr hfirst) hs
    rw [after, foldl_cons, foldl_nil] at hsame
    rw [cons_append, zunzipLoop, hinf]
    simp only
    rw [if_neg (fun hstop => hstop.2.1 hcall), if_pos hcall, hsame]
    exact ih hagain hquiet

/-- A run stays inside: no access goes wrong, and with 0 the new `*lenp` is the number of bytes that were written, at most `dstlen`. -/
def Stays (dstlen : Int) (calls : List InflateCall) (res : Option (Option (Int × Nat × List UInt8))) : Prop :=
  res ≠ none ∧ ∀ n dst', res = some (some (0, n, dst')) → n = produced calls ∧ (n : Int) ≤ dstlen

/-- What `zunzip` and `gunzip` are given, with the calls of `inflate` that make the loop go on. -/
structure Input where
  src : List UInt8
  dst : List UInt8
  dstlen : Int
  init : Int
  again : List InflateCall
  src_lt : src.length < 2 ^ 32
  dstlen_int : -2 ^ 31 ≤ dstlen ∧ dstlen < 2 ^ 31
  room : dst.length = dstlen.toNat
  again_error : ∀ call ∈ again, call.r = Z_BUF_ERROR

/-- The counters are those of the buffers, and no call has consumed or produced anything. -/
def Fresh (i : Input) (offset : Nat) : Prop := offset ≤ i.src.length ∧ 0 ≤ i.dstlen ∧ Quiet i.again

theorem start_room (i : Input) (hoffset : offset ≤ i.src.length) (hdstlen : 0 ≤ i.dstlen) :
    (zunzipStart i.src.length offset i.dstlen).availIn = i.src.length - offset ∧
      (zunzipStart i.src.length offset i.dstlen).availOut = i.dst.length := by
  have hint := i.dstlen_int.2
  refine ⟨sub32_of_le hoffset i.src_lt, ?_⟩
  rw [zunzipStart, i.room]
  simp only
  omega

/-- The next call stays inside whatever it does, if no call before it has consumed or produced anything. -/
theorem stays_of_fresh (i : Input) (hfresh : Fresh i offset)
    (hallowed : Allowed i.src.length offset i.dstlen (zunzipStart i.src.length offset i.dstlen) (i.again ++ [last])) :
    Stays i.dstlen (i.again ++ [last])
      (zunzipLoop i.src i.dstlen stoponerr offset (i.again ++ [last]) i.dst (zunzipStart i.src.length offset i.dstlen)) := by
  obtain ⟨hoffset, hdstlen, hquiet⟩ := hfresh
  obtain ⟨hstartIn, hstartOut⟩ := start_room i hoffset hdstlen
  have hrestored := restored_start i.dstlen i.src_lt (Nat.lt_of_le_of_lt hoffset i.src_lt)
  obtain ⟨-, hin, hout, -⟩ := allowed_append.mp hallowed
  rw [after_quiet hquiet hrestored] at hin hout
  rw [hstartIn] at hin
  rw [hstartOut] at hout
  have hread : last.consumed = 0 ∨ offset + last.consumed ≤ i.src.length := Or.inr (by omega)
  obtain ⟨dst', hput, -⟩ := putBytes_some i.dst last.out 0 (by rwa [Nat.zero_add])
  have hinf : inflate i.src i.dst (zunzipStart i.src.length offset i.dstlen) last = some dst' := inflate_eq_some_iff.mpr ⟨hread, hput⟩
  have hproduced : produced (i.again ++ [last]) = last.out.length := by
    rw [produced, map_append, sum_append, ← produced, (quiet_iff.mp hquiet).2, Nat.zero_add, map_singleton, sum_singleton]
  rw [zunzipLoop_quiet i.again_error hquiet hrestored, zunzipLoop, hinf]
  simp only
  split
  · exact ⟨nofun, nofun⟩
  · split
    · exact ⟨nofun, nofun⟩
    · refine ⟨nofun, fun n dst'' heq => ?_⟩
      obtain ⟨-, hn, -⟩ : (0 : Int) = 0 ∧ last.out.length = n ∧ dst' = dst'' := by
        simpa [ZStream.advance, zunzipStart] using heq
      have hroom := i.room
      rw [hproduced, ← hn]
      exact ⟨rfl, by omega⟩

/-- A call that stays inside, behind those that did. -/
theorem inside_of_run (hagain : ∀ call ∈ again, call.r = Z_BUF_ERROR)
    (h : zunzipLoop src dstlen stoponerr offset (again ++ [last]) dst s = some res) :
    (consumed again + last.consumed = 0 ∨ s.nextIn + (consumed again + last.consumed) ≤ src.length) ∧
      (produced again + last.out.length = 0 ∨ s.nextOut + (produced again + last.out.length) ≤ dst.length) := by
  obtain ⟨dst', hlast, hlen, hc, hp⟩ := zunzipLoop_again hagain h
  rw [zunzipLoop] at hlast
  cases hinf : inflate src dst' (after src.length offset dstlen s again) last with
  | none =>
    rw [hinf] at hlast
    cases hlast
  | some dst'' =>
    obtain ⟨hread, hput⟩ := inflate_eq_some_iff.mp hinf
    have hwrite : last.out.length = 0 ∨ (after src.length offset dstlen s again).nextOut + last.out.length ≤ dst'.length :=
      (of_putBytes hput).2.imp_left fun h => by rw [h, length_nil]
    rw [after_nextIn] at hread
    rw [after_nextOut, hlen] at hwrite
    omega

/-- If it is not fresh, the next call can go outside within its counters: they give it all of `dst` again, and of `src` what was not
produced instead of what was not consumed. -/
theorem escapes_of_not_fresh (i : Input) (stoponerr : Int) (hfresh : ¬Fresh i offset) (hoffset : offset < 2 ^ 32)
    (hallowed : Allowed i.src.length offset i.dstlen (zunzipStart i.src.length offset i.dstlen) i.again) :
    ∃ last, Allowed i.src.length offset i.dstlen (zunzipStart i.src.length offset i.dstlen) (i.again ++ [last]) ∧
      zunzipLoop i.src i.dstlen stoponerr offset (i.again ++ [last]) i.dst (zunzipStart i.src.length offset i.dstlen) = none := by
  by_contra hnone
  have hrestored := restored_after i.again (restored_start i.dstlen i.src_lt hoffset)
  have hall : ∀ n (out : List UInt8), n ≤ sub32 (sub32 i.src.length offset) (produced i.again % 2 ^ 32) →
      out.length ≤ (i.dstlen % 2 ^ 32).toNat →
      (consumed i.again + n = 0 ∨ offset + (consumed i.again + n) ≤ i.src.length) ∧
        (produced i.again + out.length = 0 ∨ produced i.again + out.length ≤ i.dst.length) := by
    intro n out hin hout
    have hallowed' : Allowed i.src.length offset i.dstlen (zunzipStart i.src.length offset i.dstlen) (i.again ++ [⟨Z_OK, n, out⟩]) := by
      refine allowed_append.mpr ⟨hallowed, ?_, ?_, trivial⟩
      · rw [hrestored.availIn, after_nextOut, zunzipStart, Nat.zero_add]
        exact hin
      · rw [hrestored.availOut]
        exact hout
    cases hrun : zunzipLoop i.src i.dstlen stoponerr offset (i.again ++ [⟨Z_OK, n, out⟩]) i.dst (zunzipStart i.src.length offset i.dstlen) with
    | none => exact absurd ⟨_, hallowed', hrun⟩ hnone
    | some res =>
      have hinside := inside_of_run i.again_error hrun
      rw [zunzipStart, Nat.zero_add] at hinside
      exact hinside
  have hroom := i.room
  have hint := i.dstlen_int
  have hsrc := i.src_lt
  have hagain := hall 0 [] (Nat.zero_le _) (Nat.zero_le _)
  rw [length_nil] at hagain
  by_cases hdstlen : 0 ≤ i.dstlen
  · have hproduced : produced i.again = 0 := by
      have hmore := (hall 0 (List.replicate i.dst.length 0) (Nat.zero_le _) (by rw [length_replicate]; omega)).2
      rw [length_replicate] at hmore
      omega
    rw [hproduced] at hall
    by_cases hle : offset ≤ i.src.length
    · have hconsumed : consumed i.again = 0 := by
        have hsub := sub32_of_le hle hsrc
        have hmore := (hall (i.src.length - offset) [] (by rw [hsub, sub32]; omega) (Nat.zero_le _)).1
        omega
      exact hfresh ⟨hle, hdstlen, quiet_iff.mpr ⟨hconsumed, hproduced⟩⟩
    · have hmore := (hall 1 [] (by unfold sub32; omega) (Nat.zero_le _)).1
      omega
  · have hmore := (hall 0 [0] (Nat.zero_le _) (by rw [length_singleton]; omega)).2
    rw [length_singleton] at hmore
    omega

/-- `inflate` keeps to its counters in these calls of `zunzip`. -/
def Keeps (i : Input) (offset : Nat) (calls : List InflateCall) : Prop :=
  Allowed i.src.length offset i.dstlen (zunzipStart i.src.length offset i.dstlen) calls

/-- Whatever the next call of `inflate` does within its counters, `zunzip` stays inside. -/
def ZunzipStays (i : Input) (stoponerr : Int) (offset : Nat) : Prop :=
  ∀ last, Keeps i offset (i.again ++ [last]) →
    Stays i.dstlen (i.again ++ [last]) (zunzip i.dst i.dstlen i.src stoponerr offset i.init (i.again ++ [last]))

/-- It does just if no call before has consumed or produced anything, for counters that are those of the buffers. -/
theorem zunzipStays_iff (i : Input) (stoponerr : Int) (hoffset : offset < 2 ^ 32) :
    ZunzipStays i stoponerr offset ↔ (i.init = Z_OK → Keeps i offset i.again → Fresh i offset) := by
  constructor
  · intro h hinit hkeeps
    by_contra hfresh
    obtain ⟨last, hlast, hout⟩ := escapes_of_not_fresh i stoponerr hfresh hoffset hkeeps
    have hstays := (h last hlast).1
    rw [zunzip, if_neg (not_not.mpr hinit)] at hstays
    exact hstays hout
  · intro h last hkeeps
    by_cases hinit : i.init = Z_OK
    · rw [zunzip, if_neg (not_not.mpr hinit)]
      exact stays_of_fresh i (h hinit (allowed_append.mp hkeeps).1) hkeeps
    · rw [zunzip, if_pos hinit]
      exact ⟨nofun, nofun⟩

/-! ## The header -/

/-- Where the strings of the header begin. -/
def stringsAt (src : List UInt8) : Nat :=
  if src.getD 3 0 &&& EXTRA_FIELD ≠ 0 then 12 + (src.getD 10 0).toNat + (src.getD 11 0).toNat * 2 ^ 8 else 10

def behindString (src : List UInt8) (i : Nat) : Nat := i + (src.drop i).idxOf 0 + 1

/-- Where the comment of the header begins. -/
def commentAt (src : List UInt8) : Nat := if src.getD 3 0 &&& ORIG_NAME ≠ 0 then behindString src (stringsAt src) else stringsAt src

/-- The header is refused by its method or its flags. -/
def Refused (src : List UInt8) : Prop := src.getD 2 0 ≠ DEFLATED ∨ src.getD 3 0 &&& RESERVED ≠ 0

instance : Decidable (Refused src) := inferInstanceAs (Decidable (_ ∨ _))

/-- The fields of the header that its flags say there are end in the source. -/
structure HeaderInside (src : List UInt8) : Prop where
  flags : 4 ≤ src.length
  extra : ¬Refused src → src.getD 3 0 &&& EXTRA_FIELD ≠ 0 → 12 ≤ src.length
  name : ¬Refused src → src.getD 3 0 &&& ORIG_NAME ≠ 0 → 0 ∈ src.drop (stringsAt src)
  comment : ¬Refused src → src.getD 3 0 &&& COMMENT ≠ 0 → 0 ∈ src.drop (commentAt src)

theorem pastNul_eq (bytes : List UInt8) (i : Nat) : pastNul bytes i = if 0 ∈ bytes then some (i + bytes.idxOf 0 + 1) else none := by
  induction bytes generalizing i with
  | nil => rfl
  | cons b bytes ih =>
    rw [pastNul]
    by_cases hb : b = 0
    · simp [hb]
    · rw [if_pos hb, ih, idxOf_cons_ne _ hb]
      simp only [mem_cons, Ne.symm hb, false_or]
      split
      · congr 1
        omega
      · rfl

theorem gunzipString_eq (src : List UInt8) (flags flag : UInt8) (i : Nat) : gunzipString src flags flag i =
      if flags &&& flag ≠ 0 then if 0 ∈ src.drop i then some (behindString src i) else none else some i := by
  rw [gunzipString, pastNul_eq]
  rfl

theorem byte_eq (h : i < src.length) : src[i]? = some (src.getD i 0) := by
  rw [getD_eq_getElem?_getD, getElem?_eq_getElem h]
  rfl

theorem gunzipExtra_eq (src : List UInt8) : gunzipExtra src (src.getD 3 0) =
    if src.getD 3 0 &&& EXTRA_FIELD ≠ 0 ∧ src.length < 12 then none else some (stringsAt src) := by
  rw [gunzipExtra, stringsAt]
  by_cases hextra : src.getD 3 0 &&& EXTRA_FIELD ≠ 0
  · rw [if_pos hextra, if_pos hextra]
    by_cases hlen : src.length < 12
    · rw [if_pos ⟨hextra, hlen⟩, getElem?_eq_none (show src.length ≤ 11 by omega)]
      cases src[10]? <;> rfl
    · rw [if_neg fun h => hlen h.2, byte_eq (show 10 < src.length by omega), byte_eq (show 11 < src.length by omega)]
  · rw [if_neg hextra, if_neg hextra, if_neg fun h => hextra h.1]

theorem gunzipHeader_eq (hlen : 4 ≤ src.length) : gunzipHeader src =
    if Refused src then some none
    else
      (gunzipExtra src (src.getD 3 0)).bind fun i => (gunzipString src (src.getD 3 0) ORIG_NAME i).bind fun i =>
        (gunzipString src (src.getD 3 0) COMMENT i).map (gunzipData src (src.getD 3 0)) := by
  rw [gunzipHeader, byte_eq (show 3 < src.length by omega), byte_eq (show 2 < src.length by omega)]
  rfl

/-- The header is read inside the source just if its fields end there. -/
theorem gunzipHeader_isSome_iff : (gunzipHeader src).isSome ↔ HeaderInside src := by
  by_cases hlen : 4 ≤ src.length
  · rw [gunzipHeader_eq hlen]
    by_cases hrefused : Refused src
    · rw [if_pos hrefused]
      exact iff_of_true rfl ⟨hlen, fun h => absurd hrefused h, fun h => absurd hrefused h, fun h => absurd hrefused h⟩
    · rw [if_neg hrefused, gunzipExtra_eq]
      by_cases hextra : src.getD 3 0 &&& EXTRA_FIELD ≠ 0 ∧ src.length < 12
      · rw [if_pos hextra]
        exact iff_of_false Bool.false_ne_true fun h => absurd (h.extra hrefused hextra.1) (by omega)
      · rw [if_neg hextra, bind_some, gunzipString_eq]
        have hextra' : src.getD 3 0 &&& EXTRA_FIELD ≠ 0 → 12 ≤ src.length := fun h => by
          by_contra hlt
          exact hextra ⟨h, by omega⟩
        by_cases hname : src.getD 3 0 &&& ORIG_NAME ≠ 0 → 0 ∈ src.drop (stringsAt src)
        · have hat : (if src.getD 3 0 &&& ORIG_NAME ≠ 0 then
              if 0 ∈ src.drop (stringsAt src) then some (behindString src (stringsAt src)) else none
            else some (stringsAt src)) = some (commentAt src) := by
            unfold commentAt
            split
            next h => rw [if_pos (hname h)]
            next => rfl
          rw [hat, bind_some, gunzipString_eq, isSome_map]
          by_cases hcomment : src.getD 3 0 &&& COMMENT ≠ 0 → 0 ∈ src.drop (commentAt src)
          · refine iff_of_true ?_ ⟨hlen, fun _ => hextra', fun _ => hname, fun _ => hcomment⟩
            split
            next h =>
              rw [if_pos (hcomment h)]
              rfl
            next => rfl
          · refine iff_of_false ?_ fun h => hcomment (h.comment hrefused)
            rw [Classical.not_imp] at hcomment
            rw [if_pos hcomment.1, if_neg hcomment.2]
            exact Bool.false_ne_true
        · refine iff_of_false ?_ fun h => hname (h.name hrefused)
          rw [Classical.not_imp] at hname
          rw [if_pos hname.1, if_neg hname.2]
          exact Bool.false_ne_true
  · refine iff_of_false ?_ fun h => hlen h.flags
    rw [gunzipHeader, getElem?_eq_none (show src.length ≤ 3 by omega)]
    exact Bool.false_ne_true

theorem gunzipHeader_lt (h : gunzipHeader src = some (some offset)) : offset < src.length := by
  have hlen : 4 ≤ src.length := (gunzipHeader_isSome_iff.mp (by rw [h]; rfl)).flags
  rw [gunzipHeader_eq hlen] at h
  split at h
  next => cases h
  next =>
    obtain ⟨i, -, h⟩ := bind_eq_some_iff.mp h
    obtain ⟨j, -, h⟩ := bind_eq_some_iff.mp h
    obtain ⟨k, -, h⟩ := map_eq_some_iff.mp h
    simp only [gunzipData] at h
    generalize (if src.getD 3 0 &&& HEAD_CRC ≠ 0 then (k + 2) % 2 ^ 32 else k) = i at h
    split at h
    next => cases h
    next hlt =>
      obtain rfl : i = offset := some.inj h
      exact Nat.not_le.mp hlt

/-! ## The whole of `gunzip` -/

/-- Whatever the next call of `inflate` does within its counters, `gunzip` stays inside. -/
def GunzipStays (i : Input) : Prop :=
  ∀ last, (∀ offset, gunzipHeader i.src = some (some offset) → Keeps i offset (i.again ++ [last])) →
    Stays i.dstlen (i.again ++ [last]) (gunzip i.dst i.dstlen i.src i.init (i.again ++ [last]))

/-- It does just if the fields of the header end in the source, and `zunzip` does. -/
theorem gunzipStays_iff (i : Input) : GunzipStays i ↔ HeaderInside i.src ∧
      ∀ offset, gunzipHeader i.src = some (some offset) → i.init = Z_OK → Keeps i offset i.again → Fresh i offset := by
  rw [← gunzipHeader_isSome_iff]
  unfold GunzipStays gunzip
  cases hheader : gunzipHeader i.src with
  | none => exact iff_of_false (fun h => (h ⟨Z_OK, 0, []⟩ nofun).1 rfl) fun h => Bool.false_ne_true h.1
  | some header =>
    cases header with
    | none => exact iff_of_true (fun _ _ => ⟨nofun, nofun⟩) ⟨rfl, nofun⟩
    | some offset =>
      have hiff := zunzipStays_iff i 1 (Nat.lt_trans (gunzipHeader_lt hheader) i.src_lt)
      constructor
      · intro h
        refine ⟨rfl, fun offset' heq => ?_⟩
        obtain rfl : offset = offset' := some.inj (some.inj heq)
        exact hiff.mp fun last hkeeps => h last fun _ heq' => some.inj (some.inj heq') ▸ hkeeps
      · intro h last hkeeps
        exact hiff.mpr (h.2 offset rfl) last (hkeeps offset rfl)

/-- When `zunzip` and `gunzip` stay inside the buffers, whatever the next call of `inflate` does. -/
theorem decompression_inside_iff (i : Input) : (∀ stoponerr offset : Int, ZunzipStays i stoponerr (offset % 2 ^ 32).toNat ↔
      (i.init = Z_OK → Keeps i (offset % 2 ^ 32).toNat i.again → Fresh i (offset % 2 ^ 32).toNat)) ∧
    (GunzipStays i ↔ HeaderInside i.src ∧
      ∀ offset, gunzipHeader i.src = some (some offset) → i.init = Z_OK → Keeps i offset i.again → Fresh i offset) :=
  ⟨fun stoponerr offset => zunzipStays_iff i stoponerr (by omega), gunzipStays_iff i⟩

/-! ## Data that do not fit -/

/-- A source of ten bytes of a header and two bytes of data, for one byte, where the first call fills the destination. -/
def tooLarge : Input where
  src := [0x1f, 0x8b, 8, 0, 0, 0, 0, 0, 0, 0, 0x73, 0x04]
  dst := [0]
  dstlen := 1
  init := Z_OK
  again := [⟨Z_BUF_ERROR, 1, [0x41]⟩]
  src_lt := by decide
  dstlen_int := by decide
  room := rfl
  again_error := by decide

/-- The second call has room for one byte again, and writes it behind the destination. -/
theorem gunzip_writes_behind : ¬GunzipStays tooLarge := by
  intro h
  have hkeeps : Keeps tooLarge 10 (tooLarge.again ++ [⟨Z_STREAM_END, 0, [0x42]⟩]) :=
    ⟨by decide, by decide, by decide, by decide, trivial⟩
  have hheader : gunzipHeader tooLarge.src = some (some 10) := by decide
  have hstays := h ⟨Z_STREAM_END, 0, [0x42]⟩ fun offset heq => by
    obtain rfl : 10 = offset := some.inj (some.inj (hheader.symm.trans heq))
    exact hkeeps
  exact hstays.1 (by decide)

end Gunzip

end UBoot
