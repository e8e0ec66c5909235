import UBoot.Dns

/-!
# Which answers of a name server are read inside their packet

The loops of `DnsHandler` end and stay inside the payload; the header and the address of a record are not tested.
-/

namespace UBoot

open List Option

/-- Where the record of the answer at `p` starts, for the handler: at a pointer, or at the last byte before the end of the name. -/
def dnsRecordAt (pkt : List UInt8) (p : Nat) : Nat :=
  if pkt[p]? = some 0xc0 then p else min (p + ((pkt.drop p).takeWhile (· != 0)).length) (pkt.length - 12) - 1

/-- Where the host name of the query ends. -/
def dnsHostEnd (pkt : List UInt8) : Nat := 12 + ((pkt.drop 12).takeWhile (· != 0)).length

/-- The answers that are looked at: the first one, and the one behind each canonical name. -/
inductive DnsAnswer (pkt : List UInt8) : Nat → Prop where
  | first (hlen : dnsHostEnd pkt + 5 ≤ pkt.length) (htype : be16At pkt (dnsHostEnd pkt + 1) = some DNS_A_RECORD) :
      DnsAnswer pkt (dnsHostEnd pkt + 5)
  | cname {p dlen : Nat} (h : DnsAnswer pkt p) (hroom : p + 12 < pkt.length)
      (htype : be16At pkt (dnsRecordAt pkt p + 2) = some DNS_CNAME_RECORD) (hdlen : be16At pkt (dnsRecordAt pkt p + 10) = some dlen) :
      DnsAnswer pkt (dnsRecordAt pkt p + (12 + dlen))

/-- The record of an answer that is an address. -/
def DnsAddressRecord (pkt : List UInt8) (r : Nat) : Prop :=
  ∃ p, DnsAnswer pkt p ∧ p + 12 < pkt.length ∧ r = dnsRecordAt pkt p ∧ be16At pkt (r + 2) = some DNS_A_RECORD

/-- The handler ends and reads only the payload, and sets the variable only to the four data bytes of an address record inside it. -/
def DnsSafe (dnsOurPort : Nat) (envvar : Bool) (pkt : List UInt8) (dest : Nat) : Prop :=
  ∃ done, dnsHandler dnsOurPort envvar pkt dest = some done ∧ ∀ r v, done.setenv = some (r, v) →
    r + 12 + 4 ≤ pkt.length ∧ be16At pkt (r + 2) = some DNS_A_RECORD ∧ be16At pkt (r + 10) = some 4 ∧ v = ipToString ((pkt.drop (r + 12)).take 4)

/-- The packet has the header fields that are looked at, and an address record that is reached has its four bytes, and no other data
length if the variable is set from it. -/
structure DnsWhole (envvar : Bool) (pkt : List UInt8) : Prop where
  dump : pkt.length ≤ 65532
  nqueries : 6 ≤ pkt.length
  nanswers : be16At pkt 4 = some 1 → 8 ≤ pkt.length
  record : be16At pkt 4 = some 1 → be16At pkt 6 ≠ some 0 → ∀ r, DnsAddressRecord pkt r → r + 12 + 4 ≤ pkt.length ∧
    (envvar = true → ∀ dlen, be16At pkt (r + 10) = some dlen → r + 12 + dlen ≤ pkt.length → dlen = 4)

namespace DnsAux

variable {pkt : List UInt8}
variable {i rounds p r : Nat}

theorem be16At_some (pkt : List UInt8) (i : Nat) (h : i + 1 < pkt.length) : ∃ w, be16At pkt i = some w := by
  refine ⟨256 * (pkt.get ⟨i, by omega⟩).toNat + (pkt.get ⟨i + 1, h⟩).toNat, ?_⟩
  simp only [be16At, getElem?_eq_getElem (Nat.lt_of_succ_lt h), getElem?_eq_getElem h]
  rfl

theorem be16At_none (h : pkt.length ≤ i + 1) : be16At pkt i = none := by
  unfold be16At
  rw [getElem?_eq_none h]
  cases pkt[i]? with
  | none => rfl
  | some hi => rfl

/-! ### The loops -/

theorem dumpLoop_some {len : Nat} (hlen : len ≤ 65532) (h4 : 4 ∣ i) (hi : i ≤ 65532) (hrounds : 65536 ≤ i + 4 * rounds)
    (hpos : 0 < rounds) : dnsDumpLoop len rounds i = some () := by
  induction rounds generalizing i with
  | zero => exact absurd hpos (Nat.lt_irrefl 0)
  | succ rounds ih =>
    rw [dnsDumpLoop]
    split
    next hlt =>
      rw [Nat.mod_eq_of_lt (by omega)]
      exact ih (by omega) (by omega) (by omega) (by omega)
    next => rfl

theorem dumpLoop_none {len : Nat} (hlen : 65532 < len) (rounds : Nat) (h4 : 4 ∣ i) (hi : i ≤ 65532) :
    dnsDumpLoop len rounds i = none := by
  induction rounds generalizing i with
  | zero => rfl
  | succ rounds ih =>
    rw [dnsDumpLoop, if_pos (by omega)]
    exact ih (by omega) (by omega)

theorem hostLoop_eq (h : pkt.length - p < rounds) :
    dnsHostLoop pkt rounds p = some (p + ((pkt.drop p).takeWhile (· != 0)).length) := by
  induction rounds generalizing p with
  | zero => exact absurd h (Nat.not_lt_zero _)
  | succ rounds ih =>
    rw [dnsHostLoop]
    by_cases hp : p < pkt.length
    · rw [if_pos hp, getElem?_eq_getElem hp, bind_some, drop_eq_getElem_cons hp, takeWhile_cons]
      by_cases hc : pkt[p] = 0
      · simp [hc]
      · rw [if_pos hc, if_pos (by simpa using hc), ih (by omega), length_cons, Nat.add_assoc, Nat.add_comm 1]
    · rw [if_neg hp, drop_eq_nil_of_le (Nat.le_of_not_lt hp)]
      rfl

/-- The name of an answer is skipped up to its NUL, or until twelve bytes are left. -/
theorem nameLoop_eq (hroom : p + 12 ≤ pkt.length) (h : pkt.length - p < rounds) :
    dnsNameLoop pkt rounds p = some (min (p + ((pkt.drop p).takeWhile (· != 0)).length) (pkt.length - 12)) := by
  induction rounds generalizing p with
  | zero => exact absurd h (Nat.not_lt_zero _)
  | succ rounds ih =>
    have hp : p < pkt.length := by omega
    rw [dnsNameLoop, getElem?_eq_getElem hp, bind_some, drop_eq_getElem_cons hp, takeWhile_cons]
    by_cases hc : pkt[p] = 0
    · rw [if_neg fun hno => hno.1 hc, if_neg (by simpa using hc), length_nil, Nat.add_zero, Nat.min_eq_left (by omega)]
    · rw [if_pos (show (pkt[p] != 0) = true by simpa using hc), length_cons]
      by_cases hmore : p + 12 < pkt.length
      · rw [if_pos ⟨hc, hmore⟩, ih (by omega) (by omega), Nat.add_assoc, Nat.add_comm 1]
      · rw [if_neg fun hno => hmore hno.2]
        congr 1
        omega

theorem recordAt_bounds (hroom : p + 12 < pkt.length) (hpos : 0 < p) :
    p ≤ dnsRecordAt pkt p + 1 ∧ dnsRecordAt pkt p + 12 < pkt.length := by
  unfold dnsRecordAt
  split
  · exact ⟨Nat.le_succ p, hroom⟩
  · omega

/-- One answer: a canonical name leads to the next one, and every other record ends the loop. -/
theorem answerLoop_step (rounds : Nat) (hroom : p + 12 < pkt.length) (hpos : 0 < p) :
    ∃ type, be16At pkt (dnsRecordAt pkt p + 2) = some type ∧ (type = DNS_CNAME_RECORD → ∃ dlen, be16At pkt (dnsRecordAt pkt p + 10) = some dlen ∧
        dnsAnswerLoop pkt (rounds + 1) p = dnsAnswerLoop pkt rounds (dnsRecordAt pkt p + (12 + dlen))) ∧
      (type ≠ DNS_CNAME_RECORD → dnsAnswerLoop pkt (rounds + 1) p = some (dnsRecordAt pkt p, decide (type = DNS_A_RECORD))) := by
  obtain ⟨hge, hlt⟩ := recordAt_bounds hroom hpos
  obtain ⟨type, htype⟩ := be16At_some pkt (dnsRecordAt pkt p + 2) (by omega)
  obtain ⟨dlen, hdlen⟩ := be16At_some pkt (dnsRecordAt pkt p + 10) (by omega)
  have hp : p < pkt.length := by omega
  have hskip : dnsSkipName pkt p = some (dnsRecordAt pkt p) := by
    rw [dnsSkipName, dnsRecordAt, getElem?_eq_getElem hp, bind_some, nameLoop_eq (by omega) (by omega), map_some]
    by_cases hc : pkt[p] = 0xc0
    · rw [if_neg fun hno => hno hc, if_pos (congrArg some hc)]
    · rw [if_pos hc, if_neg fun hno => hc (some.inj hno)]
  have hloop : dnsAnswerLoop pkt (rounds + 1) p =
      if type = DNS_CNAME_RECORD then dnsAnswerLoop pkt rounds (dnsRecordAt pkt p + (12 + dlen))
      else some (dnsRecordAt pkt p, decide (type = DNS_A_RECORD)) := by
    rw [dnsAnswerLoop, if_pos hroom]
    simp only [bind_eq_bind, bind_some, hskip, htype, hdlen]
  refine ⟨type, htype, fun h => ⟨dlen, hdlen, ?_⟩, fun h => ?_⟩
  · rw [hloop, if_pos h]
  · rw [hloop, if_neg h]

theorem DnsAnswer.pos (h : DnsAnswer pkt p) : 0 < p := by
  cases h with
  | first => omega
  | cname => omega

theorem answerLoop_reaches (h : DnsAnswer pkt p) : ∃ rounds, pkt.length - p < rounds ∧
      dnsAnswerLoop pkt (pkt.length + 1) (dnsHostEnd pkt + 5) = dnsAnswerLoop pkt rounds p := by
  induction h with
  | first hlen htype => exact ⟨pkt.length + 1, by omega, rfl⟩
  | @cname p dlen h hroom htype hdlen ih =>
    obtain ⟨rounds, hrounds, hloop⟩ := ih
    obtain ⟨rounds, rfl⟩ : ∃ k, rounds = k + 1 := ⟨rounds - 1, by omega⟩
    obtain ⟨type, htype', hcname, -⟩ := answerLoop_step rounds hroom (DnsAnswer.pos h)
    obtain rfl : type = DNS_CNAME_RECORD := some.inj (htype'.symm.trans htype)
    obtain ⟨dlen', hdlen', hnext⟩ := hcname rfl
    obtain rfl : dlen' = dlen := some.inj (hdlen'.symm.trans hdlen)
    have hge := (recordAt_bounds hroom (DnsAnswer.pos h)).1
    exact ⟨rounds, by omega, hloop.trans hnext⟩

theorem answerLoop_ends (rounds : Nat) (h : DnsAnswer pkt p) (hrounds : pkt.length - p < rounds) :
    ∃ r found, dnsAnswerLoop pkt rounds p = some (r, found) ∧ (found = true → DnsAddressRecord pkt r) := by
  induction rounds generalizing p with
  | zero => exact absurd hrounds (Nat.not_lt_zero _)
  | succ rounds ih =>
    by_cases hroom : p + 12 < pkt.length
    · obtain ⟨type, htype, hcname, hother⟩ := answerLoop_step rounds hroom (DnsAnswer.pos h)
      by_cases hc : type = DNS_CNAME_RECORD
      · obtain ⟨dlen, hdlen, hnext⟩ := hcname hc
        have hge := (recordAt_bounds hroom (DnsAnswer.pos h)).1
        rw [hnext]
        exact ih (DnsAnswer.cname h hroom (hc ▸ htype) hdlen) (by omega)
      · refine ⟨_, _, hother hc, fun hfound => ⟨p, h, hroom, rfl, ?_⟩⟩
        rw [htype, of_decide_eq_true hfound]
    · refine ⟨p, false, ?_, fun hfound => nomatch hfound⟩
      rw [dnsAnswerLoop, if_neg hroom]

theorem answerLoop_found (h : DnsAddressRecord pkt r) :
    dnsAnswerLoop pkt (pkt.length + 1) (dnsHostEnd pkt + 5) = some (r, true) ∧ r + 12 < pkt.length := by
  obtain ⟨p, hp, hroom, rfl, htype⟩ := h
  obtain ⟨rounds, hrounds, hloop⟩ := answerLoop_reaches hp
  obtain ⟨rounds, rfl⟩ : ∃ k, rounds = k + 1 := ⟨rounds - 1, by omega⟩
  obtain ⟨type, htype', -, hother⟩ := answerLoop_step rounds hroom (DnsAnswer.pos hp)
  obtain rfl : type = DNS_A_RECORD := some.inj (htype'.symm.trans htype)
  refine ⟨?_, (recordAt_bounds hroom (DnsAnswer.pos hp)).2⟩
  rw [hloop, hother (by decide)]
  rfl

/-! ### The handler -/

theorem dnsAnswer_first (h : DnsAnswer pkt p) :
    dnsHostEnd pkt + 5 ≤ pkt.length ∧ be16At pkt (dnsHostEnd pkt + 1) = some DNS_A_RECORD := by
  induction h with
  | first hlen htype => exact ⟨hlen, htype⟩
  | cname _ _ _ _ ih => exact ih

/-- What the handler does with an address record: it must have its four bytes, and a data length of four if the variable is set. -/
theorem dnsAddress_safe_iff {envvar : Bool} (hroom : r + 12 < pkt.length) (htype : be16At pkt (r + 2) = some DNS_A_RECORD) :
    (∃ done, dnsAddress envvar pkt r = some done ∧ ∀ r' v, done.setenv = some (r', v) →
      r' + 12 + 4 ≤ pkt.length ∧ be16At pkt (r' + 2) = some DNS_A_RECORD ∧ be16At pkt (r' + 10) = some 4 ∧
        v = ipToString ((pkt.drop (r' + 12)).take 4)) ↔
      r + 12 + 4 ≤ pkt.length ∧ (envvar = true → ∀ dlen, be16At pkt (r + 10) = some dlen → r + 12 + dlen ≤ pkt.length → dlen = 4) := by
  obtain ⟨dlen, hdlen⟩ := be16At_some pkt (r + 10) (by omega)
  have hrun : dnsAddress envvar pkt r =
      if r + 12 + 4 ≤ pkt.length then
        if r + 12 + dlen ≤ pkt.length then
          some ⟨true, if envvar then some (r, ipToString ((pkt.drop (r + 12)).take 4)) else none⟩
        else some ⟨true, none⟩
      else none := by
    rw [dnsAddress, hdlen]
    rfl
  rw [hrun]
  by_cases h4 : r + 12 + 4 ≤ pkt.length
  · rw [if_pos h4, and_iff_right h4]
    by_cases hfits : r + 12 + dlen ≤ pkt.length
    · rw [if_pos hfits]
      constructor
      · rintro ⟨done, hdone, hset⟩ henv dlen' hdlen' -
        obtain rfl := some.inj hdone
        dsimp only at hset
        rw [henv, if_pos rfl] at hset
        have h10 := (hset r _ rfl).2.2.1
        exact some.inj (hdlen'.symm.trans h10)
      · intro h
        refine ⟨_, rfl, fun r' v hset => ?_⟩
        cases envvar with
        | false => cases hset
        | true =>
          obtain ⟨rfl, rfl⟩ := Prod.mk.inj (some.inj hset)
          exact ⟨h4, htype, (h rfl dlen hdlen hfits) ▸ hdlen, rfl⟩
    · rw [if_neg hfits]
      refine iff_of_true ⟨_, rfl, fun _ _ hset => nomatch hset⟩ fun _ dlen' hdlen' hle => ?_
      obtain rfl : dlen' = dlen := some.inj (hdlen'.symm.trans hdlen)
      exact absurd hle hfits
  · rw [if_neg h4]
    refine iff_of_false ?_ fun hno => h4 hno.1
    rintro ⟨done, hdone, -⟩
    cases hdone

theorem safe_none {b : Bool} : ∃ done, (some ⟨b, none⟩ : Option DnsDone) = some done ∧ ∀ r v, done.setenv = some (r, v) →
    r + 12 + 4 ≤ pkt.length ∧ be16At pkt (r + 2) = some DNS_A_RECORD ∧ be16At pkt (r + 10) = some 4 ∧
      v = ipToString ((pkt.drop (r + 12)).take 4) :=
  ⟨_, rfl, fun _ _ h => nomatch h⟩

/-- The response is handled safely when the address record that is reached is whole. -/
theorem dnsResponse_safe_iff (envvar : Bool) (pkt : List UInt8) :
    (∃ done, dnsResponse envvar pkt = some done ∧ ∀ r v, done.setenv = some (r, v) →
      r + 12 + 4 ≤ pkt.length ∧ be16At pkt (r + 2) = some DNS_A_RECORD ∧ be16At pkt (r + 10) = some 4 ∧
        v = ipToString ((pkt.drop (r + 12)).take 4)) ↔
      ∀ r, DnsAddressRecord pkt r → r + 12 + 4 ≤ pkt.length ∧
        (envvar = true → ∀ dlen, be16At pkt (r + 10) = some dlen → r + 12 + dlen ≤ pkt.length → dlen = 4) := by
  unfold dnsResponse
  rw [hostLoop_eq (by omega)]
  simp only [bind_eq_bind, bind_some]
  rw [← dnsHostEnd]
  by_cases hlen : dnsHostEnd pkt + 5 ≤ pkt.length
  · obtain ⟨type, htype⟩ := be16At_some pkt (dnsHostEnd pkt + 1) (by omega)
    rw [if_neg (Nat.not_lt.2 hlen), htype, bind_some]
    by_cases hA : type = DNS_A_RECORD
    · subst hA
      obtain ⟨r, found, hloop, hrecord⟩ := answerLoop_ends (pkt.length + 1) (DnsAnswer.first hlen htype) (by omega)
      rw [if_neg (not_not.2 rfl), hloop, bind_some]
      dsimp only
      cases found with
      | true =>
        have hr := hrecord rfl
        have hroom := (answerLoop_found hr).2
        obtain ⟨-, -, -, -, hrtype⟩ := id hr
        rw [if_pos ⟨rfl, hroom⟩, dnsAddress_safe_iff hroom hrtype]
        constructor
        · intro h r' hr'
          have := hloop.symm.trans (answerLoop_found hr').1
          obtain rfl := (Prod.mk.inj (some.inj this)).1
          exact h
        · intro h
          exact h r hr
      | false =>
        rw [if_neg fun hno => nomatch hno.1]
        refine iff_of_true safe_none fun r' hr' => ?_
        have := hloop.symm.trans (answerLoop_found hr').1
        exact nomatch (Prod.mk.inj (some.inj this)).2
    · rw [if_pos hA]
      refine iff_of_true safe_none fun r hr => ?_
      obtain ⟨p, hp, -⟩ := hr
      exact absurd (some.inj (htype.symm.trans (dnsAnswer_first hp).2)) hA
  · rw [if_pos (Nat.lt_of_not_le hlen)]
    refine iff_of_true safe_none fun r hr => ?_
    obtain ⟨p, hp, -⟩ := hr
    exact absurd (dnsAnswer_first hp).1 hlen

theorem not_safe {P : DnsDone → Prop} : ¬∃ done, (none : Option DnsDone) = some done ∧ P done := by
  rintro ⟨done, h, -⟩
  cases h

end DnsAux

open DnsAux

/-- A packet for the port of the query is handled safely exactly when it is whole. -/
theorem dnsHandler_safe_iff (dnsOurPort : Nat) (envvar : Bool) (pkt : List UInt8) (dest : Nat) :
    DnsSafe dnsOurPort envvar pkt dest ↔ dest ≠ dnsOurPort ∨ DnsWhole envvar pkt := by
  unfold DnsSafe dnsHandler
  by_cases hdest : dest = dnsOurPort
  · rw [if_neg (not_not.2 hdest), or_iff_right (not_not.2 hdest)]
    by_cases hdump : pkt.length ≤ 65532
    · rw [dumpLoop_some hdump (by decide) (by decide) (by decide) (by decide)]
      by_cases h6 : 6 ≤ pkt.length
      · obtain ⟨nqueries, hq⟩ := be16At_some pkt 4 (by omega)
        simp only [bind_eq_bind, bind_some, hq]
        by_cases hone : nqueries = 1
        · subst hone
          rw [if_neg (not_not.2 rfl)]
          by_cases h8 : 8 ≤ pkt.length
          · obtain ⟨nanswers, ha⟩ := be16At_some pkt 6 (by omega)
            simp only [bind_some, ha]
            by_cases hzero : nanswers = 0
            · subst hzero
              rw [if_pos rfl]
              exact iff_of_true safe_none ⟨hdump, h6, fun _ => h8, fun _ hno => absurd ha hno⟩
            · have hans : be16At pkt 6 ≠ some 0 := fun h => hzero (some.inj (ha.symm.trans h))
              rw [if_neg hzero, dnsResponse_safe_iff]
              exact ⟨fun h => ⟨hdump, h6, fun _ => h8, fun _ _ => h⟩, fun h => h.record hq hans⟩
          · rw [be16At_none (i := 6) (by omega), bind_none]
            exact iff_of_false not_safe fun h => h8 (h.nanswers hq)
        · rw [if_pos hone]
          have hno : be16At pkt 4 ≠ some 1 := fun h => hone (some.inj (hq.symm.trans h))
          exact iff_of_true safe_none ⟨hdump, h6, fun h => absurd h hno, fun h => absurd h hno⟩
      · rw [bind_eq_bind, bind_some, be16At_none (i := 4) (by omega)]
        exact iff_of_false not_safe fun h => h6 h.nqueries
    · rw [dumpLoop_none (Nat.lt_of_not_le hdump) _ (by decide) (by decide)]
      exact iff_of_false not_safe fun h => hdump h.dump
  · rw [if_pos hdest]
    exact iff_of_true safe_none (Or.inl hdest)

/-- A response to a query for `a` whose answer is an address record without data, with one byte behind it. -/
def shortAnswer : List UInt8 :=
  [0, 1, 0x81, 0x80, 0, 1, 0, 1, 0, 0, 0, 0, 1, 0x61, 0, 0, 1, 0, 1, 0xc0, 12, 0, 1, 0, 1, 0, 0, 0, 9, 0, 0, 7]

theorem dnsHandler_unsafe : ¬∀ (dnsOurPort : Nat) (envvar : Bool) (pkt : List UInt8) (dest : Nat),
    pkt.length ≤ 65527 → DnsSafe dnsOurPort envvar pkt dest := by
  intro h
  obtain ⟨done, hdone, -⟩ := h 1024 true shortAnswer 1024 (by decide)
  have hnone : dnsHandler 1024 true shortAnswer 1024 = none := by decide
  rw [hnone] at hdone
  cases hdone

end UBoot
