import UBoot.Bootp

/-!
# Which replies the DHCP scanners are right on

`DhcpMessageType` and `DhcpOptionsProcess` step from option to option by the length bytes and test neither the length of the packet nor
for pads, so each pad is taken for an option of the code 0. `BootpVendorProcess` does know pads.
-/

namespace UBoot

open Lib List Option

structure DhcpOption where
  code : UInt8
  data : List UInt8
  code_ne : code ≠ 0 ∧ code ≠ optEnd
  length_lt : data.length < 256

/-- What an option field is made of. -/
inductive OptionItem where
  | pad
  | option (o : DhcpOption)

def OptionItem.bytes : OptionItem → List UInt8
  | .pad => [0]
  | .option o => o.code :: UInt8.ofNat o.data.length :: o.data

/-- The bytes of some items. -/
def itemBytes (items : List OptionItem) : List UInt8 := items.flatMap OptionItem.bytes

/-- The options of a field, each with its code and its data. -/
def itemOptions : List OptionItem → List (UInt8 × List UInt8)
  | [] => []
  | .pad :: items => itemOptions items
  | .option o :: items => (o.code, o.data) :: itemOptions items

/-- A well-formed option field: the cookie, the items and the end. -/
def OptionField (items : List OptionItem) (vend : List UInt8) : Prop :=
  ∃ rest, vend = BOOTP_VENDOR_MAGIC ++ (itemBytes items ++ optEnd :: rest)

/-- The first message type of a field. -/
def firstType (items : List OptionItem) : Option (UInt8 × List UInt8) := (itemOptions items).find? fun o => o.1 = optMessageType

/-- Both scanners read the packet only, and on a well-formed field `DhcpMessageType` gives the first message type, and
`DhcpOptionsProcess` processes just the options. -/
structure DhcpScansRight (cfg : BootpConfig) (vars : BootpVars) (pkt : List UInt8) : Prop where
  typeInside : (dhcpMessageType (pkt.drop bpVendAt)).isSome
  optionsInside : (dhcpOptions cfg vars pkt).isSome
  type : ∀ items, OptionField items (pkt.drop bpVendAt) → ∀ code d ds, firstType items = some (code, d :: ds) →
    dhcpMessageType (pkt.drop bpVendAt) = some d.toNat
  noType : ∀ items, OptionField items (pkt.drop bpVendAt) → firstType items = none → dhcpMessageType (pkt.drop bpVendAt) = some (-1)
  options : ∀ items, OptionField items (pkt.drop bpVendAt) → ∀ vars' seen, dhcpOptions cfg vars pkt = some (vars', seen) →
    seen = itemOptions items

/-! ## Where the scanners come to -/

/-- The places that `DhcpMessageType` comes to in the bytes behind the cookie. -/
inductive TypeAt (b : List UInt8) : Nat → Prop where
  | first : TypeAt b 0
  | next {p : Nat} {code oplen : UInt8} : TypeAt b p → b[p]? = some code → code ≠ optEnd → code ≠ optMessageType →
      b[p + 1]? = some oplen → TypeAt b (p + (oplen.toNat + 2))

/-- What is read at such a place is there. -/
def TypeFits (b : List UInt8) (p : Nat) : Prop :=
  ∃ code, b[p]? = some code ∧ (code = optEnd ∨ if code = optMessageType then p + 2 < b.length else p + 1 < b.length)

/-- Whether `bp_file` is still empty behind an option. -/
def unnamedAfter (unnamed : Bool) (code oplen : UInt8) (first : Option UInt8) : Bool :=
  if code = 67 ∧ unnamed = true ∧ oplen ≠ 0 then decide (first = some 0) else unnamed

/-- The places that `DhcpOptionsProcess` comes to, and whether `bp_file` is empty there. -/
inductive OptionAt (b : List UInt8) (unnamed : Bool) : Nat → Bool → Prop where
  | first : OptionAt b unnamed 0 unnamed
  | next {p : Nat} {e : Bool} {code oplen : UInt8} : OptionAt b unnamed p e → p < BOOTP_HDR_SIZE → b[p]? = some code →
      code ≠ optEnd → b[p + 1]? = some oplen →
      OptionAt b unnamed (p + (oplen.toNat + 2)) (unnamedAfter e code oplen b[p + 2]?)

/-- How many bytes behind its length are read for an option. -/
def optionReads (cfg : BootpConfig) (unnamed : Bool) (code oplen : UInt8) : Nat :=
  match code with
  | 1 => 4
  | 2 => if cfg.timeOffset then 4 else 0
  | 3 => 4
  | 6 => if cfg.dns2 ∧ 4 < oplen then 8 else 4
  | 12 => min oplen.toNat (hostNameSize - 1)
  | 17 => min oplen.toNat (rootPathSize - 1)
  | 42 => if cfg.ntpServer then 4 else 0
  | 51 => 4
  | 54 => 4
  | 67 => if unnamed then min oplen.toNat (bpFileSize - 1) else 0
  | _ => 0

/-- What is read at such a place is there. -/
def OptionFits (cfg : BootpConfig) (b : List UInt8) (p : Nat) (e : Bool) : Prop :=
  ∃ code, b[p]? = some code ∧ (code = optEnd ∨ ∃ oplen, b[p + 1]? = some oplen ∧ optionReads cfg e code oplen ≤ b.length - (p + 2))

/-- The options of a field come before its pads, start before the end that `DhcpOptionsProcess` sets, and the pads behind it. -/
def PadsBehind (items : List OptionItem) : Prop :=
  ∀ pre it post, items = pre ++ it :: post → (it = .pad ↔ BOOTP_HDR_SIZE ≤ (itemBytes pre).length)

/-- The packets that the scanners are right on. -/
structure DhcpFits (cfg : BootpConfig) (pkt : List UInt8) : Prop where
  cookie : bpVendAt + 4 ≤ pkt.length
  type : (pkt.drop bpVendAt).take 4 = BOOTP_VENDOR_MAGIC → ∀ p, TypeAt (pkt.drop (bpVendAt + 4)) p → TypeFits (pkt.drop (bpVendAt + 4)) p
  options : (pkt.drop bpVendAt).take 4 = BOOTP_VENDOR_MAGIC → ∀ p e,
    OptionAt (pkt.drop (bpVendAt + 4)) (decide (pkt[bpFileAt]? = some 0)) p e → p < BOOTP_HDR_SIZE → OptionFits cfg (pkt.drop (bpVendAt + 4)) p e
  pads : ∀ items, OptionField items (pkt.drop bpVendAt) → PadsBehind items
  noType : ∀ items, OptionField items (pkt.drop bpVendAt) → firstType items = none →
    ∀ p, TypeAt (pkt.drop (bpVendAt + 4)) p → (pkt.drop (bpVendAt + 4))[p]? ≠ some optMessageType

namespace DhcpOptionsAux

variable {b : List UInt8} {p : Nat}
variable {popt data : List UInt8} {maxlen curlen : Nat} {cfg : BootpConfig} {vars vars' : BootpVars} {code oplen : UInt8}

/-! ### The message type -/

theorem typeRound_goes_iff : messageTypeLoop.round (b.drop p) = some (.inr popt) ↔
    ∃ code oplen : UInt8, b[p]? = some code ∧ code ≠ optEnd ∧ code ≠ optMessageType ∧ b[p + 1]? = some oplen ∧
      popt = b.drop (p + (oplen.toNat + 2)) := by
  show messageTypeRound (b.drop p) = some (.inr popt) ↔ _
  simp only [messageTypeRound, getElem?_drop, Nat.add_zero, bind_eq_some_iff]
  refine exists_congr fun code => ?_
  by_cases hend : code = optEnd
  · simp [hend]
  · by_cases htype : code = optMessageType
    · simp [htype, optMessageType, optEnd]
    · simp only [if_neg hend, if_neg htype, map_eq_some_iff, drop_drop]
      constructor
      · rintro ⟨hcode, oplen, hoplen, h⟩
        exact ⟨oplen, hcode, hend, htype, hoplen, (Sum.inr.inj h).symm⟩
      · rintro ⟨oplen, hcode, -, -, hoplen, rfl⟩
        exact ⟨hcode, oplen, hoplen, rfl⟩

theorem typeRound_isSome_iff : (messageTypeLoop.round (b.drop p)).isSome ↔ TypeFits b p := by
  show (messageTypeRound (b.drop p)).isSome ↔ _
  unfold messageTypeRound TypeFits
  simp only [getElem?_drop, Nat.add_zero]
  cases hcode : b[p]? with
  | none => simp
  | some code =>
    simp only [bind_some, some.injEq, exists_eq_left']
    split
    next h => exact iff_of_true rfl (Or.inl h)
    next h =>
      rw [or_iff_right h]
      split
      · rw [isSome_map, isSome_getElem?]
      · rw [isSome_map, isSome_getElem?]

theorem reaches_type_iff : messageTypeLoop.Reaches b popt ↔ ∃ p, TypeAt b p ∧ popt = b.drop p := by
  constructor
  · intro h
    induction h with
    | refl => exact ⟨0, TypeAt.first, rfl⟩
    | tail _ hround ih =>
      obtain ⟨p, hp, rfl⟩ := ih
      obtain ⟨code, oplen, hcode, hend, htype, hoplen, rfl⟩ := typeRound_goes_iff.1 hround
      exact ⟨_, hp.next hcode hend htype hoplen, rfl⟩
  · rintro ⟨p, hp, rfl⟩
    induction hp with
    | first => exact Relation.ReflTransGen.refl
    | next _ hcode hend htype hoplen ih =>
      exact ih.tail (typeRound_goes_iff.2 ⟨_, _, hcode, hend, htype, hoplen, rfl⟩)

theorem typeRun_isSome_iff : (messageTypeLoop.run b).isSome ↔ ∀ p, TypeAt b p → TypeFits b p := by
  rw [Loop.run_isSome_iff]
  constructor
  · exact fun h p hp => typeRound_isSome_iff.1 (h _ (reaches_type_iff.2 ⟨p, hp, rfl⟩))
  · intro h popt hreach
    obtain ⟨p, hp, rfl⟩ := reaches_type_iff.1 hreach
    exact typeRound_isSome_iff.2 (h p hp)

theorem typeRun_type (hp : TypeAt b p) (htype : b[p]? = some optMessageType) :
    messageTypeLoop.run b = (b[p + 2]?).map fun t => (t.toNat : Int) := by
  rw [Loop.run_of_reaches (reaches_type_iff.2 ⟨p, hp, rfl⟩)]
  have hround : messageTypeLoop.round (b.drop p) = (b[p + 2]?).map fun t => .inl (t.toNat : Int) := by
    show messageTypeRound (b.drop p) = _
    simp [messageTypeRound, htype, optMessageType, optEnd]
  cases ht : b[p + 2]? with
  | none =>
    rw [ht] at hround
    exact Loop.run_none hround
  | some t =>
    rw [ht] at hround
    exact Loop.run_ends hround

theorem typeRun_none_iff (hinside : (messageTypeLoop.run b).isSome) :
    messageTypeLoop.run b = some (-1) ↔ ∀ p, TypeAt b p → b[p]? ≠ some optMessageType := by
  constructor
  · intro h p hp htype
    rw [typeRun_type hp htype] at h
    obtain ⟨t, -, ht⟩ := map_eq_some_iff.1 h
    omega
  · intro h
    obtain ⟨r, hr⟩ := isSome_iff_exists.1 hinside
    obtain ⟨popt, hreach, hend⟩ := Loop.run_eq_some_iff.1 hr
    obtain ⟨p, hp, rfl⟩ := reaches_type_iff.1 hreach
    rw [hr]
    have hround : messageTypeRound (b.drop p) = some (.inl r) := hend
    simp only [messageTypeRound, getElem?_drop, Nat.add_zero, bind_eq_some_iff] at hround
    obtain ⟨code, hcode, hround⟩ := hround
    split at hround
    · cases hround
      rfl
    · split at hround
      next htype => exact absurd (htype ▸ hcode) (h p hp)
      · obtain ⟨oplen, -, hno⟩ := map_eq_some_iff.1 hround
        cases hno

/-! ### One option -/

theorem truncateSz_eq (h : 0 < maxlen) : truncateSz maxlen curlen = min curlen (maxlen - 1) := by
  unfold truncateSz
  split
  · omega
  · omega

theorem copyName_isSome_iff {name src : List UInt8} (h : 0 < maxlen) :
    (copyName name maxlen curlen src).isSome ↔ min curlen (maxlen - 1) ≤ src.length := by
  rw [copyName, isSome_map, takeBytes_isSome_iff, truncateSz_eq h]

theorem dhcpOption_isSome_iff :
    (dhcpOption cfg vars code oplen data).isSome ↔ optionReads cfg (decide (vars.bpFile[0]? = some 0)) code oplen ≤ data.length := by
  unfold dhcpOption
  split
  · rw [isSome_map, takeBytes_isSome_iff]
    exact Iff.rfl
  · cases htime : cfg.timeOffset with
    | false => simp [optionReads, htime]
    | true => simp [optionReads, htime, takeBytes_isSome_iff]
  · rw [isSome_map, takeBytes_isSome_iff]
    exact Iff.rfl
  · by_cases hdns2 : cfg.dns2 ∧ 4 < oplen
    · have hreads : optionReads cfg (decide (vars.bpFile[0]? = some 0)) 6 oplen = 8 := if_pos hdns2
      simp only [if_pos hdns2, hreads]
      by_cases hlen : 4 ≤ data.length
      · have htake : takeBytes 4 data = some (data.take 4) := if_pos hlen
        rw [htake, bind_some, isSome_map, takeBytes_isSome_iff, length_drop]
        omega
      · have htake : takeBytes 4 data = none := if_neg hlen
        rw [htake]
        exact iff_of_false Bool.false_ne_true (by omega)
    · have hreads : optionReads cfg (decide (vars.bpFile[0]? = some 0)) 6 oplen = 4 := if_neg hdns2
      simp only [if_neg hdns2, hreads]
      rw [← takeBytes_isSome_iff]
      cases takeBytes 4 data with
      | none => exact Iff.rfl
      | some ip => exact Iff.rfl
  · rw [isSome_map, copyName_isSome_iff (by decide)]
    exact Iff.rfl
  · rw [isSome_map, copyName_isSome_iff (by decide)]
    exact Iff.rfl
  · cases hntp : cfg.ntpServer with
    | false => simp [optionReads, hntp]
    | true => simp [optionReads, hntp, takeBytes_isSome_iff]
  · rw [isSome_map, takeBytes_isSome_iff]
    exact Iff.rfl
  · rw [isSome_map, takeBytes_isSome_iff]
    exact Iff.rfl
  · rw [truncateSz_eq (by decide)]
    by_cases hname : vars.bpFile[0]? = some 0
    · have hreads : optionReads cfg (decide (vars.bpFile[0]? = some 0)) 67 oplen = min oplen.toNat (bpFileSize - 1) :=
        if_pos (decide_eq_true hname)
      rw [hreads]
      split
      · rw [isSome_map, copyName_isSome_iff (by decide)]
      next hno => exact iff_of_true rfl (by rw [Nat.eq_zero_of_not_pos fun hpos => hno ⟨hname, hpos⟩]; exact Nat.zero_le _)
    · have hreads : optionReads cfg (decide (vars.bpFile[0]? = some 0)) 67 oplen = 0 := if_neg (by simpa using hname)
      rw [hreads, if_neg fun h => hname h.1]
      exact iff_of_true rfl (Nat.zero_le _)
  next h1 h2 h3 h6 h12 h17 h42 h51 h54 h67 =>
    have hreads : optionReads cfg (decide (vars.bpFile[0]? = some 0)) code oplen = 0 := by
      unfold optionReads
      split
      · exact absurd rfl h1
      · exact absurd rfl h2
      · exact absurd rfl h3
      · exact absurd rfl h6
      · exact absurd rfl h12
      · exact absurd rfl h17
      · exact absurd rfl h42
      · exact absurd rfl h51
      · exact absurd rfl h54
      · exact absurd rfl h67
      · rfl
    rw [hreads]
    exact iff_of_true rfl (Nat.zero_le _)

theorem bpFile_of_map {α : Type} {o : Option α} {f : α → BootpVars}
    (h : o.map f = some vars') (hf : ∀ a, (f a).bpFile = vars.bpFile) : vars'.bpFile = vars.bpFile := by
  obtain ⟨a, -, rfl⟩ := map_eq_some_iff.1 h
  exact hf a

theorem dhcpOption_bpFile_of_ne (hcode : code ≠ 67) (h : dhcpOption cfg vars code oplen data = some vars') : vars'.bpFile = vars.bpFile := by
  unfold dhcpOption at h
  split at h
  · exact bpFile_of_map h fun _ => rfl
  · split at h
    · exact bpFile_of_map h fun _ => rfl
    · cases h
      rfl
  · exact bpFile_of_map h fun _ => rfl
  · obtain ⟨ip, -, h⟩ := bind_eq_some_iff.1 h
    split at h
    · obtain ⟨ip2, -, rfl⟩ := map_eq_some_iff.1 h
      rfl
    · cases h
      rfl
  · exact bpFile_of_map h fun _ => rfl
  · exact bpFile_of_map h fun _ => rfl
  · split at h
    · exact bpFile_of_map h fun _ => rfl
    · cases h
      rfl
  · exact bpFile_of_map h fun _ => rfl
  · exact bpFile_of_map h fun _ => rfl
  · exact absurd rfl hcode
  · cases h
    rfl

theorem copyName_first {name src name' : List UInt8} (hlen : 0 < min curlen (maxlen - 1)) (hmax : 0 < maxlen)
    (h : copyName name maxlen curlen src = some name') : name'[0]? = src[0]? := by
  obtain ⟨bytes, htake, rfl⟩ := map_eq_some_iff.1 h
  rw [truncateSz_eq hmax] at htake
  unfold takeBytes at htake
  split at htake
  next hfits =>
    obtain rfl := some.inj htake
    have hne : 0 < (src.take (min curlen (maxlen - 1))).length := by
      rw [length_take_of_le hfits]
      exact hlen
    rw [getElem?_append_left hne, getElem?_take_of_lt hlen]
  next => cases htake

theorem dhcpOption_bpFile (h : dhcpOption cfg vars code oplen data = some vars') :
    decide (vars'.bpFile[0]? = some 0) = unnamedAfter (decide (vars.bpFile[0]? = some 0)) code oplen data[0]? := by
  by_cases hcode : code = 67
  · subst hcode
    have hzero : oplen ≠ 0 ↔ 0 < min oplen.toNat (bpFileSize - 1) := by
      rw [Ne, ← UInt8.toNat_inj]
      show ¬oplen.toNat = 0 ↔ 0 < min oplen.toNat 127
      omega
    have hfile : dhcpOption cfg vars 67 oplen data =
        if vars.bpFile[0]? = some 0 ∧ 0 < truncateSz bpFileSize oplen.toNat then
          (copyName vars.bpFile bpFileSize oplen.toNat data).map fun name => { vars with bpFile := name }
        else some vars := rfl
    rw [hfile, truncateSz_eq (by decide)] at h
    split at h
    next hname =>
      obtain ⟨name, hcopy, rfl⟩ := map_eq_some_iff.1 h
      rw [unnamedAfter, if_pos ⟨rfl, decide_eq_true hname.1, hzero.2 hname.2⟩]
      dsimp only
      rw [copyName_first hname.2 (by decide) hcopy]
    next hname =>
      cases h
      rw [unnamedAfter, if_neg]
      rintro ⟨-, he, h0⟩
      exact hname ⟨of_decide_eq_true he, hzero.1 h0⟩
  · rw [unnamedAfter, if_neg fun hno => hcode hno.1, dhcpOption_bpFile_of_ne hcode h]

/-! ### The options -/

section Options

variable {cfg : BootpConfig} {vars : BootpVars} {s s' : OptionScan} {e unnamed : Bool}
variable {done : Scanned}

/-- The scanner is at a place, with `bp_file` empty or not. -/
structure ScanAt (b : List UInt8) (p : Nat) (e : Bool) (s : OptionScan) : Prop where
  popt : s.popt = b.drop p
  left : s.left = BOOTP_HDR_SIZE - p
  unnamed : decide (s.vars.bpFile[0]? = some 0) = e

theorem optionsRound_isSome_iff (h : ScanAt b p e s) : ((dhcpOptionsLoop cfg).round s).isSome ↔ (p < BOOTP_HDR_SIZE → OptionFits cfg b p e) := by
  show (dhcpOptionsRound cfg s).isSome ↔ _
  unfold dhcpOptionsRound OptionFits
  rw [h.left, h.popt]
  simp only [getElem?_drop, drop_drop, Nat.add_zero]
  split
  next hleft => exact iff_of_true rfl fun hlt => by omega
  next hleft =>
    rw [forall_prop_of_true (by omega)]
    cases hcode : b[p]? with
    | none => simp
    | some code =>
      simp only [bind_some, some.injEq, exists_eq_left']
      split
      next hend => exact iff_of_true rfl (Or.inl hend)
      next hend =>
        rw [or_iff_right hend]
        cases hoplen : b[p + 1]? with
        | none => simp
        | some oplen =>
          simp only [bind_some, some.injEq, exists_eq_left', isSome_map, dhcpOption_isSome_iff, h.unnamed, length_drop]

theorem optionsRound_ends (h : ScanAt b p e s) (hround : (dhcpOptionsLoop cfg).round s = some (.inl done)) :
    done = (s.vars, s.seen) ∧ (p < BOOTP_HDR_SIZE → b[p]? = some optEnd) := by
  have hround : dhcpOptionsRound cfg s = some (.inl done) := hround
  unfold dhcpOptionsRound at hround
  rw [h.left, h.popt] at hround
  simp only [getElem?_drop, Nat.add_zero] at hround
  split at hround
  next hleft =>
    cases hround
    exact ⟨rfl, fun hlt => by omega⟩
  next hleft =>
    obtain ⟨code, hcode, hround⟩ := bind_eq_some_iff.1 hround
    split at hround
    next hend =>
      cases hround
      exact ⟨rfl, fun _ => hend ▸ hcode⟩
    next hend =>
      obtain ⟨oplen, -, hround⟩ := bind_eq_some_iff.1 hround
      obtain ⟨vars', -, hno⟩ := map_eq_some_iff.1 hround
      cases hno

/-- The scanner goes on to the next place. -/
theorem optionsRound_goes (h : ScanAt b p e s) (hround : (dhcpOptionsLoop cfg).round s = some (.inr s')) :
    ∃ code oplen : UInt8, p < BOOTP_HDR_SIZE ∧ b[p]? = some code ∧ code ≠ optEnd ∧ b[p + 1]? = some oplen ∧
      s'.seen = s.seen ++ [(code, (b.drop (p + 2)).take oplen.toNat)] ∧
      ScanAt b (p + (oplen.toNat + 2)) (unnamedAfter e code oplen b[p + 2]?) s' := by
  have hround : dhcpOptionsRound cfg s = some (.inr s') := hround
  unfold dhcpOptionsRound at hround
  rw [h.left, h.popt] at hround
  simp only [getElem?_drop, drop_drop, Nat.add_zero] at hround
  split at hround
  · cases hround
  next hleft =>
    obtain ⟨code, hcode, hround⟩ := bind_eq_some_iff.1 hround
    split at hround
    · cases hround
    next hend =>
      obtain ⟨oplen, hoplen, hround⟩ := bind_eq_some_iff.1 hround
      obtain ⟨vars', hvars, hround⟩ := map_eq_some_iff.1 hround
      obtain rfl := Sum.inr.inj hround
      refine ⟨code, oplen, by omega, hcode, hend, hoplen, ?_, ?_, ?_, ?_⟩
      · show s.seen ++ [(code, (s.popt.drop 2).take oplen.toNat)] = _
        rw [h.popt, drop_drop]
      · show s.popt.drop (oplen.toNat + 2) = _
        rw [h.popt, drop_drop]
      · show s.left - (oplen.toNat + 2) = _
        rw [h.left]
        omega
      · have hfile := dhcpOption_bpFile hvars
        rw [h.unnamed, getElem?_drop, Nat.add_zero] at hfile
        exact hfile

theorem reaches_options (hs : ScanAt b 0 unnamed s) (hreach : (dhcpOptionsLoop cfg).Reaches s s') :
    ∃ p e, OptionAt b unnamed p e ∧ ScanAt b p e s' := by
  induction hreach with
  | refl => exact ⟨0, unnamed, OptionAt.first, hs⟩
  | tail _ hround ih =>
    obtain ⟨p, e, hp, hat⟩ := ih
    obtain ⟨code, oplen, hlt, hcode, hend, hoplen, -, hat'⟩ := optionsRound_goes hat hround
    exact ⟨_, _, hp.next hlt hcode hend hoplen, hat'⟩

/-- It comes to all of them when it goes right. -/
theorem options_reach (hs : ScanAt b 0 unnamed s) (hinside : ((dhcpOptionsLoop cfg).run s).isSome) (hp : OptionAt b unnamed p e) :
    ∃ s', (dhcpOptionsLoop cfg).Reaches s s' ∧ ScanAt b p e s' := by
  induction hp with
  | first => exact ⟨s, Relation.ReflTransGen.refl, hs⟩
  | @next p e code oplen _ hlt hcode hend hoplen ih =>
    obtain ⟨s', hreach, hat⟩ := ih
    have hsome := Loop.run_isSome_iff.1 hinside s' hreach
    obtain ⟨r, hr⟩ := isSome_iff_exists.1 hsome
    cases r with
    | inl done =>
      have hat_end := (optionsRound_ends hat hr).2 hlt
      exact absurd (some.inj (hcode.symm.trans hat_end)) hend
    | inr s'' =>
      obtain ⟨code', oplen', -, hcode', -, hoplen', -, hat'⟩ := optionsRound_goes hat hr
      obtain rfl : code' = code := some.inj (hcode'.symm.trans hcode)
      obtain rfl : oplen' = oplen := some.inj (hoplen'.symm.trans hoplen)
      exact ⟨s'', hreach.tail hr, hat'⟩

theorem optionsRun_isSome_iff (hs : ScanAt b 0 unnamed s) : ((dhcpOptionsLoop cfg).run s).isSome ↔
    ∀ p e, OptionAt b unnamed p e → p < BOOTP_HDR_SIZE → OptionFits cfg b p e := by
  constructor
  · intro h p e hp
    obtain ⟨s', hreach, hat⟩ := options_reach hs h hp
    exact (optionsRound_isSome_iff hat).1 (Loop.run_isSome_iff.1 h s' hreach)
  · intro h
    refine Loop.run_isSome_iff.2 fun s' hreach => ?_
    obtain ⟨p, e, hp, hat⟩ := reaches_options hs hreach
    exact (optionsRound_isSome_iff hat).2 (h p e hp)

theorem seen_prefix (hs : ScanAt b p e s) (hrun : (dhcpOptionsLoop cfg).run s = some done) : s.seen <+: done.2 := by
  obtain ⟨s', hreach, hend⟩ := Loop.run_eq_some_iff.1 hrun
  have hkeep : s.seen <+: s'.seen ∧ ∃ p e, ScanAt b p e s' := by
    clear hend hrun
    induction hreach with
    | refl => exact ⟨prefix_rfl, p, e, hs⟩
    | tail _ hround ih =>
      obtain ⟨hpre, p', e', hat⟩ := ih
      obtain ⟨code, oplen, -, -, -, -, hseen, hat'⟩ := optionsRound_goes hat hround
      exact ⟨hpre.trans (hseen ▸ prefix_append _ _), _, _, hat'⟩
  obtain ⟨hpre, p', e', hat⟩ := hkeep
  rw [(optionsRound_ends hat hend).1]
  exact hpre

end Options

/-! ### Fields -/

variable {it : OptionItem} {items : List OptionItem} {o : DhcpOption} {rest pkt : List UInt8} {cfg : BootpConfig} {done : Scanned}
    {vars : BootpVars} {seen : List (UInt8 × List UInt8)}

/-- `PadsBehind` for the items from a place on. -/
def PadsFrom (p : Nat) (items : List OptionItem) : Prop :=
  ∀ pre it post, items = pre ++ it :: post → (it = .pad ↔ BOOTP_HDR_SIZE ≤ p + (itemBytes pre).length)

theorem padsFrom_nil : PadsFrom p [] := fun _ _ _ h => absurd h.symm (by simp)

theorem padsFrom_cons : PadsFrom p (it :: items) ↔ (it = .pad ↔ BOOTP_HDR_SIZE ≤ p) ∧ PadsFrom (p + it.bytes.length) items := by
  have hbytes (pre : List OptionItem) : (itemBytes (it :: pre)).length = it.bytes.length + (itemBytes pre).length := by
    rw [itemBytes, flatMap_cons, length_append, itemBytes]
  constructor
  · intro h
    refine ⟨h [] it items rfl, fun pre it' post hitems => ?_⟩
    have h' := h (it :: pre) it' post (congrArg (it :: ·) hitems)
    rwa [hbytes, ← Nat.add_assoc] at h'
  · rintro ⟨hfirst, hrest⟩ pre it' post hitems
    cases pre with
    | nil =>
      obtain ⟨rfl, -⟩ := List.cons.inj hitems
      exact hfirst
    | cons it₁ pre =>
      obtain ⟨rfl, hpost⟩ := List.cons.inj hitems
      rw [hbytes, ← Nat.add_assoc]
      exact hrest pre it' post hpost

theorem padsFrom_past (h : BOOTP_HDR_SIZE ≤ p) : PadsFrom p items ↔ itemOptions items = [] := by
  induction items generalizing p with
  | nil => exact iff_of_true padsFrom_nil rfl
  | cons it items ih =>
    rw [padsFrom_cons, ih (Nat.le_add_right_of_le h)]
    cases it with
    | pad => exact and_iff_right (iff_of_true rfl h)
    | option o => exact iff_of_false (fun hno => nomatch hno.1.2 h) fun hno => nomatch hno

theorem code_ne_zero {o : UInt8 × List UInt8} (h : o ∈ itemOptions items) : o.1 ≠ 0 := by
  induction items with
  | nil => cases h
  | cons it items ih =>
    cases it with
    | pad => exact ih h
    | option o' =>
      rcases mem_cons.1 h with rfl | h
      · exact o'.code_ne.1
      · exact ih h

theorem oplen_toNat (o : DhcpOption) : (UInt8.ofNat o.data.length).toNat = o.data.length := by
  rw [UInt8.toNat_ofNat']
  exact Nat.mod_eq_of_lt o.length_lt

theorem option_at {t : List UInt8} (h : b.drop p = (OptionItem.option o).bytes ++ t) :
    b[p]? = some o.code ∧ b[p + 1]? = some (UInt8.ofNat o.data.length) ∧ (b.drop (p + 2)).take o.data.length = o.data ∧
      b.drop (p + (o.data.length + 2)) = t := by
  have hget (i : Nat) : b[p + i]? = (o.code :: UInt8.ofNat o.data.length :: (o.data ++ t))[i]? := by
    rw [← getElem?_drop, h]
    rfl
  have hdrop (i : Nat) : b.drop (p + i) = (o.code :: UInt8.ofNat o.data.length :: (o.data ++ t)).drop i := by
    rw [← drop_drop, h]
    rfl
  refine ⟨hget 0, hget 1, ?_, ?_⟩
  · rw [hdrop 2]
    exact take_left
  · rw [hdrop (o.data.length + 2)]
    exact drop_left

theorem field_option (hfield : b.drop p = itemBytes (.option o :: items) ++ optEnd :: rest) :
    b[p]? = some o.code ∧ b[p + 1]? = some (UInt8.ofNat o.data.length) ∧ (b.drop (p + 2)).take o.data.length = o.data ∧
      b.drop (p + (o.data.length + 2)) = itemBytes items ++ optEnd :: rest := by
  rw [itemBytes, flatMap_cons, append_assoc] at hfield
  exact option_at hfield

theorem past_of_ends
    (hfield : b.drop p = itemBytes (it :: items) ++ rest) (hends : p < BOOTP_HDR_SIZE → b[p]? = some optEnd) : BOOTP_HDR_SIZE ≤ p := by
  refine Nat.not_lt.1 fun hlt => ?_
  have hhead : b[p + 0]? = (itemBytes (it :: items) ++ rest)[0]? := by rw [← getElem?_drop, hfield]
  have hcode := hhead.symm.trans (hends hlt)
  cases it with
  | pad => exact absurd (some.inj hcode) (by decide)
  | option o => exact o.code_ne.2 (some.inj hcode)

/-- Exactly the options of a field are processed when its pads are behind the end. -/
theorem seen_iff {s : OptionScan} {e : Bool}
    (hs : ScanAt b p e s) (hfield : b.drop p = itemBytes items ++ optEnd :: rest)
    (hrun : (dhcpOptionsLoop cfg).run s = some done) : done.2 = s.seen ++ itemOptions items ↔ PadsFrom p items := by
  induction items generalizing p s e with
  | nil =>
    have hhead : b[p + 0]? = some optEnd := by
      rw [← getElem?_drop, hfield]
      rfl
    refine iff_of_true ?_ padsFrom_nil
    obtain ⟨r, hround⟩ := Loop.exists_round hrun
    cases r with
    | inl done' =>
      obtain rfl := some.inj ((Loop.run_ends hround).symm.trans hrun)
      rw [(optionsRound_ends hs hround).1]
      exact (append_nil _).symm
    | inr s' =>
      obtain ⟨code, -, -, hcode, hend, -⟩ := optionsRound_goes hs hround
      exact absurd (some.inj (hcode.symm.trans hhead)) hend
  | cons it items ih =>
    obtain ⟨r, hround⟩ := Loop.exists_round hrun
    cases r with
    | inl done' =>
      obtain rfl := some.inj ((Loop.run_ends hround).symm.trans hrun)
      obtain ⟨hdone, hends⟩ := optionsRound_ends hs hround
      rw [hdone, padsFrom_past (past_of_ends hfield hends)]
      exact self_eq_append_right
    | inr s' =>
      obtain ⟨code, oplen, hlt, hcode, -, hoplen, hseen, hs'⟩ := optionsRound_goes hs hround
      have hrun' := (Loop.run_goes hround).symm.trans hrun
      cases it with
      | pad =>
        -- the pad is processed as an option
        have hhead : b[p + 0]? = some 0 := by
          rw [← getElem?_drop, hfield]
          rfl
        have hzero : code = 0 := some.inj (hcode.symm.trans hhead)
        refine iff_of_false (fun h => ?_) fun h => absurd ((padsFrom_cons.1 h).1.1 rfl) (Nat.not_le.2 hlt)
        obtain ⟨tail, htail⟩ := seen_prefix hs' hrun'
        rw [h, hseen, append_assoc, append_cancel_left_eq] at htail
        have hmem : (code, (b.drop (p + 2)).take oplen.toNat) ∈ itemOptions (.pad :: items) := by
          rw [← htail]
          exact mem_cons_self
        exact code_ne_zero hmem hzero
      | option o =>
        obtain ⟨hcode', hoplen', hdata, hrest⟩ := field_option hfield
        obtain rfl : code = o.code := some.inj (hcode.symm.trans hcode')
        obtain rfl : oplen = UInt8.ofNat o.data.length := some.inj (hoplen.symm.trans hoplen')
        rw [oplen_toNat] at hseen hs'
        have ih' := ih hs' hrest hrun'
        have hlen : (OptionItem.option o).bytes.length = o.data.length + 2 := rfl
        rw [padsFrom_cons, hlen, ← ih', hseen, hdata, append_assoc]
        exact (and_iff_right (iff_of_false (fun hno => nomatch hno) (Nat.not_le.2 hlt))).symm

theorem typeRun_field {code d : UInt8} {ds : List UInt8}
    (hfield : b.drop p = itemBytes items ++ optEnd :: rest) (hpads : PadsFrom p items) (htype : firstType items = some (code, d :: ds)) :
    messageTypeLoop.run (b.drop p) = some (d.toNat : Int) := by
  induction items generalizing p with
  | nil => cases htype
  | cons it items ih =>
    obtain ⟨hfirst, hpads⟩ := padsFrom_cons.1 hpads
    cases it with
    | pad =>
      -- there are pads only
      have hpast : BOOTP_HDR_SIZE ≤ p := hfirst.1 rfl
      have hnil := (padsFrom_past (Nat.le_add_right_of_le hpast)).1 hpads
      have hno : firstType (.pad :: items) = none := by
        rw [firstType, itemOptions, hnil]
        rfl
      rw [hno] at htype
      cases htype
    | option o =>
      obtain ⟨hcode, hoplen, hdata, hrest⟩ := field_option hfield
      by_cases ho : o.code = optMessageType
      · have hfound : firstType (.option o :: items) = some (o.code, o.data) := find?_cons_of_pos (decide_eq_true ho)
        obtain ⟨-, hd⟩ := Prod.mk.inj (some.inj (hfound.symm.trans htype))
        have hbyte : b[p + 2]? = some d := by
          have hget : ((b.drop (p + 2)).take o.data.length)[0]? = some d := by
            rw [hdata, hd]
            rfl
          have hpos : 0 < o.data.length := by
            rw [hd]
            exact Nat.succ_pos _
          rwa [getElem?_take_of_lt hpos, getElem?_drop, Nat.add_zero] at hget
        have hround : messageTypeLoop.round (b.drop p) = some (.inl (d.toNat : Int)) := by
          show messageTypeRound (b.drop p) = _
          simp [messageTypeRound, hcode, ho, hbyte, optMessageType, optEnd]
        exact Loop.run_ends hround
      · have hround : messageTypeLoop.round (b.drop p) = some (.inr (b.drop (p + (o.data.length + 2)))) := by
          refine typeRound_goes_iff.2 ⟨_, _, hcode, o.code_ne.2, ho, hoplen, ?_⟩
          rw [oplen_toNat]
        rw [Loop.run_goes hround]
        refine ih hrest hpads ?_
        have hskip : firstType (.option o :: items) = firstType items :=
          find?_cons_of_neg fun hno => ho (of_decide_eq_true hno)
        rw [← hskip, htype]

/-! ### BOOTP -/

/-- `BootpVendorProcess` processes exactly the options of a field. -/
theorem bootp_seen {left : Nat} (hleft : (itemBytes items).length ≤ left)
    (hrun : (bootpVendorLoop cfg).run ⟨itemBytes items ++ optEnd :: rest, left, vars, seen⟩ = some done) :
    done.2 = seen ++ itemOptions items := by
  induction items generalizing left vars seen with
  | nil =>
    have hround : (bootpVendorLoop cfg).round ⟨optEnd :: rest, left, vars, seen⟩ = some (.inl (vars, seen)) := by
      show bootpVendorRound cfg _ = _
      unfold bootpVendorRound
      split
      · rfl
      · rfl
    obtain rfl := some.inj ((Loop.run_ends hround).symm.trans hrun)
    exact (append_nil _).symm
  | cons it items ih =>
    have hsplit : itemBytes (it :: items) = it.bytes ++ itemBytes items := flatMap_cons
    rw [hsplit, length_append] at hleft
    rw [hsplit, append_assoc] at hrun
    obtain ⟨r, hround⟩ := Loop.exists_round hrun
    have hround' : bootpVendorRound cfg ⟨it.bytes ++ (itemBytes items ++ optEnd :: rest), left, vars, seen⟩ = some r := hround
    unfold bootpVendorRound at hround'
    cases it with
    | pad =>
      have hone : OptionItem.pad.bytes.length = 1 := rfl
      have hleft' : (itemBytes items).length ≤ left - 1 := by omega
      rw [if_neg (by dsimp only; omega)] at hround'
      obtain rfl := some.inj hround'
      exact ih hleft' ((Loop.run_goes hround).symm.trans hrun)
    | option o =>
      have hlen : (OptionItem.option o).bytes.length = o.data.length + 2 := rfl
      have hfits : (UInt8.ofNat o.data.length).toNat + 2 ≤ left := by
        rw [oplen_toNat]
        omega
      rw [if_neg (by dsimp only; omega)] at hround'
      obtain ⟨code, hcode, hround'⟩ := bind_eq_some_iff.1 hround'
      obtain rfl : o.code = code := some.inj hcode
      rw [if_neg o.code_ne.2, if_neg o.code_ne.1] at hround'
      obtain ⟨size, hsize, hround'⟩ := bind_eq_some_iff.1 hround'
      obtain rfl : UInt8.ofNat o.data.length = size := some.inj hsize
      rw [if_pos hfits] at hround'
      obtain ⟨vars', -, hround'⟩ := map_eq_some_iff.1 hround'
      subst hround'
      have hrun' := (Loop.run_goes hround).symm.trans hrun
      rw [OptionScan.behind, oplen_toNat] at hrun'
      dsimp only at hrun'
      have hdrop : ((OptionItem.option o).bytes ++ (itemBytes items ++ optEnd :: rest)).drop (o.data.length + 2) =
          itemBytes items ++ optEnd :: rest := drop_left
      have hdata : (((OptionItem.option o).bytes ++ (itemBytes items ++ optEnd :: rest)).drop 2).take o.data.length = o.data :=
        take_left
      rw [hdrop, hdata] at hrun'
      rw [ih (by omega) hrun', append_assoc]
      rfl

/-! ### A packet -/

theorem takeBytes_cookie (hlen : bpVendAt + 4 ≤ pkt.length) :
    takeBytes 4 (pkt.drop bpVendAt) = some ((pkt.drop bpVendAt).take 4) := by
  refine if_pos ?_
  rw [length_drop]
  omega

theorem messageType_eq (hlen : bpVendAt + 4 ≤ pkt.length) : dhcpMessageType (pkt.drop bpVendAt) =
    if (pkt.drop bpVendAt).take 4 ≠ BOOTP_VENDOR_MAGIC then some (-1) else messageTypeLoop.run (pkt.drop (bpVendAt + 4)) := by
  rw [dhcpMessageType, takeBytes_cookie hlen, bind_some, drop_drop]

theorem dhcpOptions_eq (cfg : BootpConfig) (vars : BootpVars) (hlen : bpVendAt + 4 ≤ pkt.length) :
    ∃ s : OptionScan, ScanAt (pkt.drop (bpVendAt + 4)) 0 (decide (pkt[bpFileAt]? = some 0)) s ∧ s.seen = [] ∧ dhcpOptions cfg vars pkt =
        if (pkt.drop bpVendAt).take 4 ≠ BOOTP_VENDOR_MAGIC then some (s.vars, []) else (dhcpOptionsLoop cfg).run s := by
  refine ⟨⟨pkt.drop (bpVendAt + 4), BOOTP_HDR_SIZE, { vars with bpFile := (pkt.drop bpFileAt).take bpFileSize }, []⟩, ⟨rfl, rfl, ?_⟩, rfl, ?_⟩
  · dsimp only
    rw [getElem?_take_of_lt (by decide), getElem?_drop, Nat.add_zero]
  · rw [dhcpOptions, takeBytes_cookie hlen]
    rfl

theorem OptionField.cookie (h : OptionField items (pkt.drop bpVendAt)) :
    bpVendAt + 4 ≤ pkt.length ∧ (pkt.drop bpVendAt).take 4 = BOOTP_VENDOR_MAGIC ∧
      ∃ rest, pkt.drop (bpVendAt + 4) = itemBytes items ++ optEnd :: rest := by
  obtain ⟨rest, h⟩ := h
  refine ⟨?_, ?_, rest, ?_⟩
  · have hlen := congrArg List.length h
    rw [length_drop, length_append, length_append, length_cons] at hlen
    have hmagic : BOOTP_VENDOR_MAGIC.length = 4 := rfl
    omega
  · rw [h]
    rfl
  · rw [← drop_drop, h]
    rfl

theorem fits_of_scansRight (h : DhcpScansRight cfg vars pkt) :
    DhcpFits cfg pkt := by
  have hcookie : bpVendAt + 4 ≤ pkt.length := by
    obtain ⟨t, ht⟩ := isSome_iff_exists.1 h.typeInside
    obtain ⟨cookie, hcookie, -⟩ := bind_eq_some_iff.1 ht
    have hlen : 4 ≤ (pkt.drop bpVendAt).length := takeBytes_isSome_iff.1 (isSome_iff_exists.2 ⟨_, hcookie⟩)
    rw [length_drop] at hlen
    omega
  obtain ⟨s, hs, hseen, hrun⟩ := dhcpOptions_eq cfg vars hcookie
  have htype := messageType_eq hcookie
  refine ⟨hcookie, fun hmagic => ?_, fun hmagic => ?_, fun items hfield => ?_, fun items hfield hnone => ?_⟩
  · rw [if_neg (not_not.2 hmagic)] at htype
    exact typeRun_isSome_iff.1 (htype ▸ h.typeInside)
  · rw [if_neg (not_not.2 hmagic)] at hrun
    exact (optionsRun_isSome_iff hs).1 (hrun ▸ h.optionsInside)
  · obtain ⟨-, hmagic, rest, hrest⟩ := OptionField.cookie hfield
    rw [if_neg (not_not.2 hmagic)] at hrun
    obtain ⟨⟨vars', seen⟩, hdone⟩ := isSome_iff_exists.1 h.optionsInside
    have hall := h.options items hfield vars' seen hdone
    have hpads := (seen_iff hs hrest (hrun.symm.trans hdone)).1 (by rw [hseen]; exact hall)
    exact fun pre it post hitems => by simpa using hpads pre it post hitems
  · obtain ⟨-, hmagic, -⟩ := OptionField.cookie hfield
    rw [if_neg (not_not.2 hmagic)] at htype
    exact (typeRun_none_iff (htype ▸ h.typeInside)).1 (htype.symm.trans (h.noType items hfield hnone))

theorem scansRight_of_fits (h : DhcpFits cfg pkt) :
    DhcpScansRight cfg vars pkt := by
  obtain ⟨s, hs, hseen, hrun⟩ := dhcpOptions_eq cfg vars h.cookie
  have htype := messageType_eq h.cookie
  have hpads {items : List OptionItem} (hfield : OptionField items (pkt.drop bpVendAt)) : PadsFrom 0 items :=
    fun pre it post hitems => by simpa using h.pads items hfield pre it post hitems
  refine ⟨?_, ?_, fun items hfield code d ds hfirst => ?_, fun items hfield hnone => ?_, fun items hfield vars' seen hdone => ?_⟩
  · rw [htype]
    split
    · rfl
    next hmagic => exact typeRun_isSome_iff.2 (h.type (not_not.1 hmagic))
  · rw [hrun]
    split
    · rfl
    next hmagic => exact (optionsRun_isSome_iff hs).2 (h.options (not_not.1 hmagic))
  · obtain ⟨-, hmagic, rest, hrest⟩ := OptionField.cookie hfield
    rw [htype, if_neg (not_not.2 hmagic)]
    exact typeRun_field (p := 0) hrest (hpads hfield) hfirst
  · obtain ⟨-, hmagic, -⟩ := OptionField.cookie hfield
    rw [htype, if_neg (not_not.2 hmagic)]
    exact (typeRun_none_iff (typeRun_isSome_iff.2 (h.type hmagic))).2 (h.noType items hfield hnone)
  · obtain ⟨-, hmagic, rest, hrest⟩ := OptionField.cookie hfield
    rw [if_neg (not_not.2 hmagic)] at hrun
    have hall := (seen_iff hs hrest (hrun.symm.trans hdone)).2 (hpads hfield)
    rwa [hseen] at hall

theorem bootpVendorFields_seen
    (hfield : OptionField items (pkt.drop bpVendAt)) (hrun : bootpVendorFields cfg vars pkt = some done) : done.2 = itemOptions items := by
  obtain ⟨hlen, hmagic, rest, hrest⟩ := OptionField.cookie hfield
  rw [bootpVendorFields, takeBytes_cookie hlen, bind_some, if_neg (not_not.2 hmagic), bootpVendorProcess, hrest] at hrun
  refine bootp_seen ?_ hrun
  have hle := congrArg List.length hrest
  rw [length_drop, length_append] at hle
  omega

/-! ### Packets -/

/-- A configuration, and variables that are not set. -/
def plainBootp : BootpConfig := ⟨false, false, false⟩

def unsetVars : BootpVars where
  subnetMask := [0, 0, 0, 0]
  gatewayIP := [0, 0, 0, 0]
  dnsIP := [0, 0, 0, 0]
  dns2IP := [0, 0, 0, 0]
  ntpServerIP := [0, 0, 0, 0]
  dhcpServerIP := [0, 0, 0, 0]
  leasetime := [0, 0, 0, 0]
  timeOffset := 0
  bootFileSize := 0
  hostName := List.replicate hostNameSize 0
  rootPath := List.replicate rootPathSize 0
  nisDomain := List.replicate nisDomainSize 0
  bpFile := List.replicate bpFileSize 0

/-- A reply with the id 1, 2, 3, 4 and the cookie. -/
def replyWith (options : List UInt8) : List UInt8 :=
  [2, 1, 6, 0, 1, 2, 3, 4] ++ List.replicate 228 0 ++ BOOTP_VENDOR_MAGIC ++ options

/-- The message type of an acknowledgement. -/
def ackType : DhcpOption := ⟨53, [5], by decide, by decide⟩

/-- A pad before the message type, and bytes behind the end. -/
def paddedAck : List UInt8 := replyWith ([0, 53, 1, 5, optEnd] ++ List.replicate 50 0 ++ [optEnd])

theorem paddedAck_field : OptionField [.pad, .option ackType] (paddedAck.drop bpVendAt) := ⟨List.replicate 50 0 ++ [optEnd], rfl⟩

end DhcpOptionsAux

open DhcpOptionsAux

/-- For every packet: the DHCP scanners are right exactly if the packet fits. And the BOOTP scanner processes exactly the options of
every field. -/
theorem dhcp_scans_right_iff (cfg : BootpConfig) (vars : BootpVars) (pkt : List UInt8) : (DhcpScansRight cfg vars pkt ↔ DhcpFits cfg pkt) ∧
    ∀ (items : List OptionItem) (done : Scanned),
      OptionField items (pkt.drop bpVendAt) → bootpVendorFields cfg vars pkt = some done → done.2 = itemOptions items :=
  ⟨⟨fits_of_scansRight, scansRight_of_fits⟩, fun _ _ => bootpVendorFields_seen⟩

/-- The BOOTP scanner passes over a pad. -/
theorem dhcp_scans_right_padded : ∃ done, bootpVendorFields plainBootp unsetVars paddedAck = some done ∧ done.2 = [(53, [5])] := by
  obtain ⟨done, hdone⟩ : ∃ done, bootpVendorFields plainBootp unsetVars paddedAck = some done :=
    isSome_iff_exists.1 (by decide +kernel)
  exact ⟨done, hdone, (dhcp_scans_right_iff plainBootp unsetVars paddedAck).2 _ _ paddedAck_field hdone⟩

/-- `DhcpMessageType` does not: it takes the message type for the length of the pad, and finds none in an acknowledgement. -/
theorem dhcp_scans_wrong : ¬∀ (cfg : BootpConfig) (vars : BootpVars) (bootpID pkt : List UInt8) (dest src : Nat),
      bootpCheckPkt bootpID pkt dest src = 0 → DhcpScansRight cfg vars pkt := by
  intro h
  have hright := h plainBootp unsetVars [1, 2, 3, 4] paddedAck 68 67 (by decide +kernel)
  have htype := hright.type _ paddedAck_field 53 5 [] rfl
  have hnone : dhcpMessageType (paddedAck.drop bpVendAt) = some (-1) := by decide
  exact absurd (htype.symm.trans hnone) (by decide)

end UBoot
