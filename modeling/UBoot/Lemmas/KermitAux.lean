import UBoot.Kermit

/-!
# One Kermit packet

The characters of a packet that arrives whole lead the receiver through its places to the end character, with the data of the packet
behind the saved address. Whatever characters arrive, a packet changes nothing below the saved address.
-/

namespace UBoot

open Lib List

namespace KermitAux

/-! ## Characters -/

variable {p : KPacket} {x : Nat} {q c : UInt8} {s : KRecv} {cs : List UInt8}

theorem forall_uint8 {p : UInt8 → Prop} (h : ∀ n : Fin 256, p (UInt8.ofNat n)) (c : UInt8) : p c := by
  simpa using h ⟨c.toNat, c.toNat_lt⟩

theorem not_belowSpace_tochar (h : x ≤ 94) : ¬belowSpace (tochar x) := by
  have hall : ∀ x < 95, ¬belowSpace (tochar x) := by decide
  exact hall x (Nat.lt_succ_of_le h)

theorem untochar_tochar (h : x ≤ 94) : untochar (tochar x) = x := by
  have hall : ∀ x < 95, untochar (tochar x) = x := by decide
  exact hall x (Nat.lt_succ_of_le h)

theorem not_belowSpace_checkChar (sum : Nat) : ¬belowSpace (checkChar sum) :=
  not_belowSpace_tochar (Nat.le_of_lt_succ (Nat.lt_of_lt_of_le (Nat.mod_lt _ (by decide)) (by decide)))

theorem untochar_seq (j : Nat) : untochar (tochar (j % 64)) = j % 64 :=
  untochar_tochar (Nat.le_of_lt_succ (Nat.lt_of_lt_of_le (Nat.mod_lt _ (by decide)) (by decide)))

theorem not_belowSpace_seq (j : Nat) : ¬belowSpace (tochar (j % 64)) :=
  not_belowSpace_tochar (Nat.le_of_lt_succ (Nat.lt_of_lt_of_le (Nat.mod_lt _ (by decide)) (by decide)))

theorem ktrans_control (b : UInt8) (h : b &&& 0x7f < 0x20 ∨ b &&& 0x7f = 0x7f) : ktrans (b ^^^ 0x40) = b ∧ ¬belowSpace (b ^^^ 0x40) := by
  revert h
  exact forall_uint8 (p := fun b => b &&& 0x7f < 0x20 ∨ b &&& 0x7f = 0x7f → ktrans (b ^^^ 0x40) = b ∧ ¬belowSpace (b ^^^ 0x40))
    (by decide +kernel) b

theorem not_belowSpace_of_not_control (b : UInt8) (h : ¬(b &&& 0x7f < 0x20 ∨ b &&& 0x7f = 0x7f)) : ¬belowSpace b := by
  revert h
  exact forall_uint8 (p := fun b => ¬(b &&& 0x7f < 0x20 ∨ b &&& 0x7f = 0x7f) → ¬belowSpace b) (by decide +kernel) b

theorem ktrans_eq_of_low (b : UInt8) (h : ktrans (b &&& 0x7f) = b &&& 0x7f) : ktrans b = b := by
  revert h
  exact forall_uint8 (p := fun b => ktrans (b &&& 0x7f) = b &&& 0x7f → ktrans b = b) (by decide +kernel) b

theorem low_eq_of_lt (b : UInt8) (h : b < 0x80) : b &&& 0x7f = b := by
  revert h
  exact forall_uint8 (p := fun b => b < 0x80 → b &&& 0x7f = b) (by decide +kernel) b

/-- A quote character that a sender may use. -/
def QuoteOk (q : UInt8) : Prop := ¬belowSpace q ∧ q < 0x80 ∧ ktrans q = q

/-- The characters of a quoted byte can be sent. -/
theorem not_belowSpace_kQuote (hq : QuoteOk q) (b : UInt8) : ∀ c ∈ kQuote q b, ¬belowSpace c := by
  intro c hc
  unfold kQuote at hc
  dsimp only at hc
  split at hc
  · rename_i hctl
    simp only [mem_cons, not_mem_nil, or_false] at hc
    rcases hc with rfl | rfl
    · exact hq.1
    · exact (ktrans_control b hctl).2
  · rename_i hctl
    split at hc
    · simp only [mem_cons, not_mem_nil, or_false] at hc
      rcases hc with rfl | rfl
      · exact hq.1
      · exact not_belowSpace_of_not_control c hctl
    · obtain rfl := mem_singleton.1 hc
      exact not_belowSpace_of_not_control c hctl

/-! ## The data field -/

/-- The receiver after the bytes were stored. -/
def dataStored (s : KRecv) (bs : List UInt8) : KRecv := { s with mem := store s.mem s.addr bs, addr := s.addr + bs.length }

theorem foldl_kDataChar_kQuote (hq : QuoteOk q) (b : UInt8) (he : s.escape = false) (hs : s.hisQuote = q) :
    (kQuote q b).foldl KRecv.kDataChar s = dataStored s [b] := by
  obtain ⟨place, sum, length, n, lastN, lenHi, kState, kStateSaved, escape, escapeSaved, addr, addrSaved, hisQuote, parms, start, mem⟩ := s
  simp only at he hs
  subst he hs
  unfold kQuote
  dsimp only
  split
  · rename_i hctl
    simp [KRecv.kDataChar, KRecv.binDataChar, dataStored, (ktrans_control b hctl).1]
  · split
    · rename_i hctl hlow
      have hb : ktrans b = b := by
        apply ktrans_eq_of_low
        rw [hlow]
        exact hq.2.2
      simp [KRecv.kDataChar, KRecv.binDataChar, dataStored, hb]
    · rename_i hctl hlow
      have hb : b ≠ hisQuote := by
        rintro rfl
        exact hlow (low_eq_of_lt b hq.2.1)
      simp [KRecv.kDataChar, KRecv.binDataChar, dataStored, hb]

/-- What a character of the data field does, by the type of the packet. -/
def kChar (s : KRecv) (c : UInt8) : KRecv :=
  if s.kState = DATA_TYPE then s.kDataChar c
  else if s.kState = SEND_TYPE then s.saveParm c
  else s

/-- The variables that only count the characters. -/
def counted (s : KRecv) (sum : Nat) (length : Int) (place : KPlace) : KRecv :=
  { s with sum := sum, length := length, place := place }

theorem kChar_counted (s : KRecv) (c : UInt8) (sum : Nat) (length : Int) (place : KPlace) :
    kChar (counted s sum length place) c = counted (kChar s c) sum length place := by
  simp only [kChar, KRecv.kDataChar, apply_ite (counted · sum length place)]
  rfl

theorem foldl_kChar_counted (cs : List UInt8) (s : KRecv) (sum : Nat) (length : Int) (place : KPlace) :
    cs.foldl kChar (counted s sum length place) = counted (cs.foldl kChar s) sum length place := by
  induction cs generalizing s with
  | nil => rfl
  | cons c cs ih => rw [foldl_cons, kChar_counted, ih, foldl_cons]

/-- The receiver after some characters. -/
def feed (s : KRecv) (cs : List UInt8) : KRecv := cs.foldl (fun s c => (s.step c).1) s

theorem feed_append (s : KRecv) (cs ds : List UInt8) : feed s (cs ++ ds) = feed (feed s cs) ds := foldl_append

theorem feed_cons (s : KRecv) (c : UInt8) (cs : List UInt8) : feed s (c :: cs) = feed (s.step c).1 cs := rfl

theorem feed_data (hcs : ∀ c ∈ cs, ¬belowSpace c) (hplace : s.place = KRecv.restPlace s.length)
    (hlen : s.length = cs.length + 1) :
    feed s cs = counted (cs.foldl kChar s) (s.sum + KPacket.charSum cs) 1 .check := by
  induction cs generalizing s with
  | nil =>
    have hone : s.length = 1 := by simpa using hlen
    rw [hone] at hplace
    have hcheck : s.place = .check := hplace
    rw [counted, ← hone, ← hcheck]
    rfl
  | cons c cs ih =>
    rw [length_cons] at hlen
    have hdata : s.place = .data := by
      rw [hplace, KRecv.restPlace, if_pos (by omega)]
    have hstep : (s.step c).1 = counted (kChar s c) (s.sum + c.toNat) (s.length - 1) (KRecv.restPlace (s.length - 1)) := by
      rw [← kChar_counted, KRecv.step, hdata]
      simp only [if_neg (hcs c (mem_cons_self ..))]
      rfl
    rw [feed_cons, hstep, ih (fun d hd => hcs d (mem_cons_of_mem _ hd)) rfl (by simp only [counted]; omega), foldl_kChar_counted, foldl_cons]
    simp only [counted, KPacket.charSum, map_cons, sum_cons, Nat.add_assoc]

theorem foldl_kChar_eq (hk : s.kState = DATA_TYPE) : cs.foldl kChar s = cs.foldl KRecv.kDataChar s := by
  induction cs generalizing s with
  | nil => rfl
  | cons c cs ih =>
    have hkeep : (s.kDataChar c).kState = s.kState := by
      simp only [KRecv.kDataChar, apply_ite KRecv.kState]
      simp [KRecv.binDataChar]
    rw [foldl_cons, foldl_cons, kChar, if_pos hk, ih (hkeep.trans hk)]

theorem foldl_kChar_data (hq : QuoteOk q) (bs : List UInt8) (hk : s.kState = DATA_TYPE)
    (he : s.escape = false) (hs : s.hisQuote = q) : (bs.flatMap (kQuote q)).foldl kChar s = dataStored s bs := by
  rw [foldl_kChar_eq hk]
  induction bs generalizing s with
  | nil => simp [dataStored, store_nil]
  | cons b bs ih =>
    rw [flatMap_cons, foldl_append, foldl_kDataChar_kQuote hq b he hs, ih (s := dataStored s [b]) hk he hs]
    simp only [dataStored, length_cons, length_nil, store_cons, store_nil, Nat.zero_add]
    rw [Nat.add_assoc, Nat.add_comm 1]

theorem foldl_kChar_send (cs : List UInt8) (hk : s.kState = SEND_TYPE) (hs : s.sendParms.length ≤ SEND_DATA_SIZE - 1) :
    cs.foldl kChar s = { s with sendParms := (s.sendParms ++ cs).take (SEND_DATA_SIZE - 1) } := by
  induction cs generalizing s with
  | nil => simp [take_of_length_le hs]
  | cons c cs ih =>
    have hc : kChar s c = s.saveParm c := by
      simp [kChar, hk, SEND_TYPE, DATA_TYPE]
    have hle : (s.saveParm c).sendParms.length ≤ SEND_DATA_SIZE - 1 := length_take_le _ _
    have htake (xs : List UInt8) (n : Nat) : (xs.take n ++ cs).take n = (xs ++ cs).take n := by
      rw [take_append, take_append, take_take, Nat.min_self, length_take]
      congr 2
      omega
    rw [foldl_cons, hc, ih (s := s.saveParm c) hk hle]
    simp only [KRecv.saveParm, htake, append_assoc, singleton_append]

theorem foldl_kChar_other (cs : List UInt8) (hd : s.kState ≠ DATA_TYPE) (hs : s.kState ≠ SEND_TYPE) : cs.foldl kChar s = s := by
  induction cs with
  | nil => rfl
  | cons c cs ih => rwa [foldl_cons, kChar, if_neg hd, if_neg hs]

/-! ## A whole packet -/

theorem takeSeq_counted (s : KRecv) (n sum : Nat) (length : Int) (place : KPlace) :
    (counted s sum length place).takeSeq n = counted (s.takeSeq n) sum (length - 1) .type := by
  simp only [KRecv.takeSeq, apply_ite (counted · sum (length - 1) .type)]
  rfl

theorem feed_lengthSeq (hs : s.place = .length) (h0 : s.sum = 0) (hx : x ≤ 94) (j : Nat) :
    feed s [tochar x, tochar (j % 64)] = counted (s.takeSeq (j % 64)) (KPacket.charSum [tochar x, tochar (j % 64)]) (x - 1) .type := by
  have hone : (s.step (tochar x)).1 = counted s (tochar x).toNat x .seq := by
    rw [KRecv.step, hs]
    simp [not_belowSpace_tochar hx, untochar_tochar hx, KRecv.addSum, h0, counted]
  have htwo (sum : Nat) (length : Int) : ((counted s sum length .seq).step (tochar (j % 64))).1 =
        counted (s.takeSeq (j % 64)) (sum + (tochar (j % 64)).toNat) (length - 1) .type := by
    rw [← takeSeq_counted s _ _ _ .seq]
    simp [KRecv.step, counted, not_belowSpace_seq, untochar_seq, KRecv.addSum]
  rw [feed_cons, hone, feed_cons, htwo]
  simp [feed, KPacket.charSum]

theorem feed_shortHeader (hs : s.place = .length) (h0 : s.sum = 0) {k : Nat} (hk : k + 3 ≤ 94) (j : Nat)
    (hc : ¬belowSpace c) :
    feed s [tochar (k + 3), tochar (j % 64), c] =
      counted { s.takeSeq (j % 64) with kState := c } (KPacket.charSum [tochar (k + 3), tochar (j % 64), c]) (k + 1)
        (KRecv.restPlace (k + 1)) := by
  have htype (r : KRecv) (sum : Nat) : ((counted r sum (↑(k + 3) - 1) .type).step c).1 =
        counted { r with kState := c } (sum + c.toNat) (k + 1) (KRecv.restPlace (k + 1)) := by
    rw [show ((↑(k + 3) : Int) - 1) = k + 2 by omega]
    have hlen : (k + 2 : Int) - 1 = k + 1 := by omega
    have hne : (k + 1 : Int) ≠ -2 := by omega
    simp [KRecv.step, counted, hc, KRecv.addSum, KRecv.takeType, hlen, hne]
  rw [show [tochar (k + 3), tochar (j % 64), c] = [tochar (k + 3), tochar (j % 64)] ++ [c] from rfl, feed_append,
    feed_lengthSeq hs h0 hk j, feed_cons, htype]
  simp [feed, KPacket.charSum, Nat.add_assoc]

theorem feed_longHeader (hs : s.place = .length) (h0 : s.sum = 0) {hi lo : Nat} (hhi : hi ≤ 94) (hlo : lo ≤ 94) (j : Nat) (hc : ¬belowSpace c) {fields : List UInt8} (hf : fields = [tochar 0, tochar (j % 64), c, tochar hi, tochar lo]) :
    feed s (fields ++ [checkChar (KPacket.charSum fields)]) = counted { s.takeSeq (j % 64) with kState := c, lenHi := hi }
        (KPacket.charSum (fields ++ [checkChar (KPacket.charSum fields)])) (hi * 95 + lo) (KRecv.restPlace (hi * 95 + lo)) := by
  have htype (r : KRecv) (sum : Nat) :
      ((counted r sum (↑(0 : Nat) - 1) .type).step c).1 = counted { r with kState := c } (sum + c.toNat) (-2) .lenHi := by
    simp [KRecv.step, counted, hc, KRecv.addSum, KRecv.takeType]
  have hhigh (r : KRecv) (sum : Nat) :
      ((counted r sum (-2) .lenHi).step (tochar hi)).1 = counted { r with lenHi := hi } (sum + (tochar hi).toNat) (-2) .lenLo := by
    simp [KRecv.step, counted, not_belowSpace_tochar hhi, untochar_tochar hhi, KRecv.addSum]
  have hlow (r : KRecv) (sum : Nat) : ((counted { r with lenHi := hi } sum (-2) .lenLo).step (tochar lo)).1 =
        counted { r with lenHi := hi } (sum + (tochar lo).toNat) (hi * 95 + lo) .headerCheck := by
    simp [KRecv.step, counted, not_belowSpace_tochar hlo, untochar_tochar hlo, KRecv.addSum]
  have hcheck (r : KRecv) (sum : Nat) (length : Int) : ((counted r sum length .headerCheck).step (checkChar sum)).1 =
        counted r (sum + (checkChar sum).toNat) length (KRecv.restPlace length) := by
    simp [KRecv.step, counted, not_belowSpace_checkChar, KRecv.addSum]
  have hfive : feed s fields = counted { s.takeSeq (j % 64) with kState := c, lenHi := hi } (KPacket.charSum fields) (hi * 95 + lo)
      .headerCheck := by
    rw [hf, show [tochar 0, tochar (j % 64), c, tochar hi, tochar lo] =
      [tochar 0, tochar (j % 64)] ++ [c, tochar hi, tochar lo] from rfl, feed_append, feed_lengthSeq hs h0 (by decide) j, feed_cons, htype,
      feed_cons, hhigh, feed_cons, hlow]
    simp [feed, KPacket.charSum, Nat.add_assoc]
  rw [feed_append, hfive, feed_cons, hcheck]
  simp [feed, KPacket.charSum]

theorem feed_header (hp : p.Ok q) (hs : s.place = .length) (h0 : s.sum = 0) (j : Nat) :
    ∃ lenHi, feed s (p.header q j) = counted { s.takeSeq (j % 64) with kState := p.type, lenHi := lenHi } (KPacket.charSum (p.header q j))
        ((p.text q).length + 1) (KRecv.restPlace ((p.text q).length + 1)) := by
  have hlen := hp.length_ok
  unfold KPacket.header
  split at hlen
  · rename_i hlong
    rw [if_pos hlong]
    refine ⟨((p.text q).length + 1) / 95, ?_⟩
    have heq : ((((p.text q).length + 1) / 95 : Nat) : Int) * 95 + (((p.text q).length + 1) % 95 : Nat) = (p.text q).length + 1 := by
      omega
    rw [← heq]
    exact feed_longHeader hs h0 (by omega) (by omega) j hp.type_ok rfl
  · rename_i hlong
    rw [if_neg hlong]
    exact ⟨(s.takeSeq (j % 64)).lenHi, feed_shortHeader hs h0 hlen j hp.type_ok⟩

/-- The receiver has read the header of a packet. -/
structure Begun (j : Nat) (type : UInt8) (s r : KRecv) : Prop where
  n : r.n = j % 64
  lastN : r.lastN = some (j % 64)
  kState : r.kState = type
  addr : r.addr = r.addrSaved
  escape : r.escape = false
  mem : r.mem = s.mem
  hisQuote : r.hisQuote = s.hisQuote
  sendParms : r.sendParms = s.sendParms
  binStart : r.binStart = s.binStart

/-- The receiver has read all of a packet but the end character. -/
structure Arrived (q : UInt8) (j : Nat) (p : KPacket) (s r : KRecv) : Prop where
  place : r.place = .end_
  n : r.n = j % 64
  lastN : r.lastN = some (j % 64)
  kState : r.kState = p.type
  escape : r.escape = false
  addr : r.addr = r.addrSaved + p.content.length
  mem : r.mem = store s.mem r.addrSaved p.content
  binStart : r.binStart = s.binStart
  hisQuote : r.hisQuote = s.hisQuote
  sendParms : p.type = SEND_TYPE → r.sendParms = (p.text q).take (SEND_DATA_SIZE - 1)

theorem begun_takeSeq (he : s.escape = false) (hes : s.escapeSaved = false) (j : Nat) (type : UInt8) (lenHi : Nat) :
    Begun j type s { s.takeSeq (j % 64) with kState := type, lenHi := lenHi } := by
  unfold KRecv.takeSeq
  dsimp only
  split
  · rename_i h
    exact ⟨rfl, h, rfl, rfl, hes, rfl, rfl, rfl, rfl⟩
  · exact ⟨rfl, rfl, rfl, rfl, he, rfl, rfl, rfl, rfl⟩

theorem not_belowSpace_text (hq : QuoteOk q) (hp : p.Ok q) : ∀ c ∈ p.text q, ¬belowSpace c := by
  cases p with
  | data chunk long =>
    intro c hc
    obtain ⟨b, -, hb⟩ := mem_flatMap.1 hc
    exact not_belowSpace_kQuote hq b c hb
  | other type text long => exact hp.text_ok type text long rfl

/-- The data field completes a packet that has begun. -/
theorem arrived_text (hq : QuoteOk q) (htext : ∀ text long, p ≠ .other DATA_TYPE text long) {r : KRecv}
    (hparms : s.sendParms = []) (hquote : ∀ chunk long, p = .data chunk long → s.hisQuote = q) {j : Nat} (h : Begun j p.type s r)
    (sum : Nat) (length : Int) : Arrived q j p s (counted ((p.text q).foldl kChar r) sum length .end_) := by
  cases p with
  | data chunk long =>
    rw [KPacket.text, foldl_kChar_data hq chunk h.kState h.escape (h.hisQuote.trans (hquote chunk long rfl))]
    have hmem : store r.mem r.addr chunk = store s.mem r.addrSaved chunk := by rw [h.mem, h.addr]
    exact ⟨rfl, h.n, h.lastN, h.kState, h.escape, congrArg (· + chunk.length) h.addr, hmem, h.binStart, h.hisQuote,
      fun hsend => absurd hsend (show DATA_TYPE ≠ SEND_TYPE by decide)⟩
  | other type text long =>
    have hdata : r.kState ≠ DATA_TYPE := by
      rw [h.kState]
      rintro rfl
      exact htext text long rfl
    have hmem : r.mem = store s.mem r.addrSaved [] := h.mem.trans (store_nil _ _).symm
    by_cases hsend : type = SEND_TYPE
    · have hnil : r.sendParms = [] := h.sendParms.trans hparms
      rw [foldl_kChar_send _ (h.kState.trans hsend) (by simp [hnil])]
      refine ⟨rfl, h.n, h.lastN, h.kState, h.escape, h.addr, hmem, h.binStart, h.hisQuote, ?_⟩
      simp [counted, hnil]
    · have hsend' : r.kState ≠ SEND_TYPE := by rwa [h.kState]
      rw [foldl_kChar_other _ hdata hsend']
      exact ⟨rfl, h.n, h.lastN, h.kState, h.escape, h.addr, hmem, h.binStart, h.hisQuote, fun h => absurd h hsend⟩

theorem arrived (hq : QuoteOk q) (hp : p.Ok q) (htext : ∀ text long, p ≠ .other DATA_TYPE text long) (hs : s.place = .length) (h0 : s.sum = 0) (he : s.escape = false) (hes : s.escapeSaved = false)
    (hparms : s.sendParms = []) (hquote : ∀ chunk long, p = .data chunk long → s.hisQuote = q) (j : Nat) :
    Arrived q j p s (feed s (p.header q j ++ p.text q ++ [checkChar (KPacket.charSum (p.header q j ++ p.text q))])) := by
  obtain ⟨lenHi, hheader⟩ := feed_header hp hs h0 j
  have hbegun := begun_takeSeq he hes j p.type lenHi
  have hcheck (r : KRecv) (sum sum' : Nat) (length : Int) (heq : sum = sum') :
      feed (counted r sum length .check) [checkChar sum'] = counted r sum length .end_ := by
    subst heq
    simp [feed, KRecv.step, counted, not_belowSpace_checkChar]
  rw [feed_append, feed_append, hheader, feed_data (not_belowSpace_text hq hp) rfl rfl, foldl_kChar_counted,
    hcheck _ _ _ _ (by simp [counted, KPacket.charSum])]
  exact arrived_text hq htext hparms hquote hbegun _ _

/-! ## Any characters -/

/-- Places behind the sequence number, inside a packet. -/
def Inside : KPlace → Prop
  | .start | .length | .seq | .returned _ => False
  | _ => True

/-- Nothing that is saved has changed, and nothing in front of the address. -/
def Beyond (s r : KRecv) : Prop :=
  (r.lastN = s.lastN ∧ r.addrSaved = s.addrSaved ∧ r.escapeSaved = s.escapeSaved ∧ r.hisQuote = s.hisQuote ∧ r.binStart = s.binStart) ∧
    s.addr ≤ r.addr ∧ ∀ a < s.addr, r.mem a = s.mem a

theorem Beyond.refl (s : KRecv) : Beyond s s := ⟨⟨rfl, rfl, rfl, rfl, rfl⟩, Nat.le_refl _, fun _ _ => rfl⟩

theorem beyond_binDataChar (s : KRecv) (c : UInt8) : Beyond s (s.binDataChar c) :=
  ⟨⟨rfl, rfl, rfl, rfl, rfl⟩, Nat.le_succ _, fun _ ha => store_of_outside (Or.inl ha)⟩

theorem beyond_kChar (s : KRecv) (c : UInt8) : Beyond s (kChar s c) := by
  unfold kChar KRecv.kDataChar
  split
  · split
    · exact beyond_binDataChar s (ktrans c)
    · split
      · exact Beyond.refl s
      · exact beyond_binDataChar s c
  · split
    · exact Beyond.refl s
    · exact Beyond.refl s

theorem inside_restPlace (length : Int) : Inside (KRecv.restPlace length) := by
  unfold KRecv.restPlace
  split
  · trivial
  · trivial

/-- A character behind the sequence number. -/
theorem step_inside (hs : Inside s.place) (c : UInt8) :
    s.step c = s.packetError ∨ (∃ r, s.step c = (r, none) ∧ Beyond s r ∧ Inside r.place) ∨
      (s.place = .end_ ∧ c = END_CHAR ∧ s.step c = s.accept) := by
  unfold KRecv.step
  split
  all_goals rename_i hplace
  all_goals rw [hplace] at hs
  · cases hs
  · cases hs
  · cases hs
  · split
    · exact Or.inl rfl
    · refine Or.inr (Or.inl ⟨_, rfl, Beyond.refl s, ?_⟩)
      simp only [KRecv.takeType]
      split
      · trivial
      · exact inside_restPlace _
  · split
    · exact Or.inl rfl
    · exact Or.inr (Or.inl ⟨_, rfl, Beyond.refl s, trivial⟩)
  · split
    · exact Or.inl rfl
    · exact Or.inr (Or.inl ⟨_, rfl, Beyond.refl s, trivial⟩)
  · split
    · exact Or.inl rfl
    · exact Or.inr (Or.inl ⟨_, rfl, Beyond.refl s, inside_restPlace _⟩)
  · split
    · exact Or.inl rfl
    · have hkChar : (s.addSum c).takeData c = counted (kChar s c) (s.sum + c.toNat) (s.length - 1) (KRecv.restPlace (s.length - 1)) :=
        kChar_counted s c _ _ _
      rw [hkChar]
      exact Or.inr (Or.inl ⟨_, rfl, beyond_kChar s c, inside_restPlace _⟩)
  · split
    · exact Or.inl rfl
    · exact Or.inr (Or.inl ⟨_, rfl, Beyond.refl s, trivial⟩)
  · split
    · exact Or.inl rfl
    · rename_i hc
      exact Or.inr (Or.inr ⟨hplace, not_not.1 hc, rfl⟩)
  · cases hs

end KermitAux

end UBoot
