import UBoot.CString
import UBoot.Lib.Memory
import Mathlib.Algebra.Group.Int.Defs
import Mathlib.Algebra.GroupWithZero.Nat

/-!
# The Kermit receiver

`k_recv` of common/cmd_load.c as an automaton that takes one character at a time: a place where the source calls `getc` is a `KPlace`,
and a step runs from there to the next call. The local variables and the variables of the `k_data_` and `os_data_` functions are
the fields of `KRecv`; addresses are numbers. `os_data_state` is always 0. Of a reply the kind and the sequence number are kept.
-/

namespace UBoot

section

open Lib

def START_CHAR : UInt8 := 0x01
/-- `ETX_CHAR` -/
def ETX_CHAR : UInt8 := 0x03
/-- `END_CHAR` -/
def END_CHAR : UInt8 := 0x0d
/-- `K_ESCAPE` -/
def K_ESCAPE : UInt8 := 0x23
/-- `SEND_TYPE` -/
def SEND_TYPE : UInt8 := 0x53
/-- `DATA_TYPE` -/
def DATA_TYPE : UInt8 := 0x44
/-- `BREAK_TYPE` -/
def BREAK_TYPE : UInt8 := 0x42
/-- `SEND_DATA_SIZE` -/
def SEND_DATA_SIZE : Nat := 20

def tochar (x : Nat) : UInt8 := UInt8.ofNat (x + 0x20)
/-- `untochar` -/
def untochar (c : UInt8) : Nat := (c - 0x20).toNat

def ktrans (c : UInt8) : UInt8 :=
  if c &&& 0x60 = 0x40 then c &&& ~~~0x40
  else if c &&& 0x7f = 0x3f then c ||| 0x40
  else c

/-- The check character for a sum. -/
def checkChar (sum : Nat) : UInt8 := tochar ((sum + sum / 64 % 4) % 64)

/-- A character less than a space. -/
def belowSpace (c : UInt8) : Prop := c &&& 0xE0 = 0

instance (c : UInt8) : Decidable (belowSpace c) := inferInstanceAs (Decidable (_ = _))

/-- Where the next character is read. -/
inductive KPlace where
  | start | length | seq | type | lenHi | lenLo | headerCheck | data | check | end_ | returned (size : Nat)
  deriving DecidableEq

/-- The variables of `k_recv`. -/
structure KRecv where
  place : KPlace
  sum : Nat
  length : Int
  n : Nat
  lastN : Option Nat
  lenHi : Nat
  kState : UInt8
  kStateSaved : UInt8
  escape : Bool
  escapeSaved : Bool
  addr : Nat
  addrSaved : Nat
  hisQuote : UInt8
  sendParms : List UInt8
  binStart : Nat
  mem : Nat → UInt8

/-- `send_ack` or `send_nack` with its sequence number. -/
inductive KReply where
  | ack (n : Nat)
  | nack (n : Nat)
  deriving DecidableEq

namespace KRecv

/-- The state in which `k_recv` waits for the first packet. -/
def init (binStart : Nat) (mem : Nat → UInt8) : KRecv where
  place := .start
  sum := 0
  length := 0
  n := 0
  lastN := none
  lenHi := 0
  kState := 0
  kStateSaved := 0
  escape := false
  escapeSaved := false
  addr := binStart
  addrSaved := binStart
  hisQuote := K_ESCAPE
  sendParms := []
  binStart := binStart
  mem := mem

/-- `k_data_save`, with the state of `k_recv` -/
def save (s : KRecv) : KRecv := { s with kStateSaved := s.kState, escapeSaved := s.escape, addrSaved := s.addr }

/-- `k_data_restore`, with the state of `k_recv` -/
def restore (s : KRecv) : KRecv := { s with kState := s.kStateSaved, escape := s.escapeSaved, addr := s.addrSaved }

def binDataChar (s : KRecv) (c : UInt8) : KRecv := { s with mem := store s.mem s.addr [c], addr := s.addr + 1 }

def kDataChar (s : KRecv) (c : UInt8) : KRecv :=
  if s.escape then { s.binDataChar (ktrans c) with escape := false }
  else if c = s.hisQuote then { s with escape := true }
  else s.binDataChar c

/-- A character of a send packet is saved; the last place of the buffer is used again and again. -/
def saveParm (s : KRecv) (c : UInt8) : KRecv := { s with sendParms := (s.sendParms ++ [c]).take (SEND_DATA_SIZE - 1) }

/-- The parameters `handle_send_packet` looks at. -/
def sendBytes (parms : List UInt8) : Nat := if parms.length = SEND_DATA_SIZE - 1 then SEND_DATA_SIZE - 2 else parms.length

/-- The quote character that `handle_send_packet` takes from the parameters. -/
def parmQuote (parms : List UInt8) : UInt8 := if 6 ≤ sendBytes parms then parms.getD 5 K_ESCAPE else K_ESCAPE

/-- `packet_error`, up to the next packet. -/
def packetError (s : KRecv) : KRecv × Option KReply :=
  ({ s.restore with place := .start, sendParms := [] }, some (.nack s.n))

/-- The character is added to the sum. -/
def addSum (s : KRecv) (c : UInt8) : KRecv := { s with sum := s.sum + c.toNat }

/-- Where the rest of the packet is read. -/
def restPlace (length : Int) : KPlace := if 1 < length then .data else .check

/-- The sequence number: a repeated one restores the state, a new one saves it. -/
def takeSeq (s : KRecv) (n : Nat) : KRecv :=
  let s := { s with n := n, length := s.length - 1, place := .type }
  if s.lastN = some n then s.restore else ({ s with lastN := some n }).save

/-- The type, with the test for an extended length. -/
def takeType (s : KRecv) (c : UInt8) : KRecv :=
  { s with kState := c, length := s.length - 1, place := if s.length - 1 = -2 then .lenHi else restPlace (s.length - 1) }

/-- A character of the rest of the packet. -/
def takeData (s : KRecv) (c : UInt8) : KRecv :=
  let s := { s with length := s.length - 1, place := restPlace (s.length - 1) }
  if s.kState = DATA_TYPE then s.kDataChar c
  else if s.kState = SEND_TYPE then s.saveParm c
  else s

/-- The packet is good. -/
def accept (s : KRecv) : KRecv × Option KReply :=
  if s.kState = SEND_TYPE then
    ({ s with hisQuote := parmQuote s.sendParms, place := .start, sendParms := [] }, some (.ack s.n))
  else if s.kState = BREAK_TYPE then ({ s with place := .returned (s.addr - s.binStart) }, some (.ack s.n))
  else ({ s with place := .start, sendParms := [] }, some (.ack s.n))

/-- One character, and the reply that is sent before the next is read. -/
def step (s : KRecv) (c : UInt8) : KRecv × Option KReply :=
  match s.place with
  | .start =>
    if c = START_CHAR then ({ s with place := .length, sum := 0 }, none)
    else if c = ETX_CHAR then ({ s with place := .returned 0 }, none)
    else (s, none)
  | .length =>
    if belowSpace c then s.packetError else ({ s.addSum c with length := untochar c, place := .seq }, none)
  | .seq => if belowSpace c then s.packetError else ((s.addSum c).takeSeq (untochar c), none)
  | .type => if belowSpace c then s.packetError else ((s.addSum c).takeType c, none)
  | .lenHi => if belowSpace c then s.packetError else ({ s.addSum c with lenHi := untochar c, place := .lenLo }, none)
  | .lenLo =>
    if belowSpace c then s.packetError
    else ({ s.addSum c with length := s.lenHi * 95 + untochar c, place := .headerCheck }, none)
  | .headerCheck =>
    if belowSpace c ∨ c ≠ checkChar s.sum then s.packetError else ({ s.addSum c with place := restPlace s.length }, none)
  | .data => if belowSpace c then s.packetError else ((s.addSum c).takeData c, none)
  | .check => if belowSpace c ∨ c ≠ checkChar s.sum then s.packetError else ({ s with place := .end_ }, none)
  | .end_ => if c ≠ END_CHAR then s.packetError else s.accept
  | .returned _ => (s, none)

end KRecv

end

/-!
## A Kermit transfer

A stop-and-wait sender, the line and the receiver. The sender transmits its current packet whenever it likes, and goes to the next one
when it takes an acknowledgement with the packet's sequence number. The line delivers any characters in place of a packet, in
order, and may lose replies. Each character and each reply carries the number of the packet it belongs to, which neither side sees.
-/

/-! ## The sender -/

/-- A packet: data of the file, or another type with its text. `long` asks for an extended length. -/
inductive KPacket where
  | data (chunk : List UInt8) (long : Bool)
  | other (type : UInt8) (text : List UInt8) (long : Bool)

/-- A byte in a data packet: control characters and the quote character are quoted. -/
def kQuote (q b : UInt8) : List UInt8 :=
  let b7 := b &&& 0x7f
  if b7 < 0x20 ∨ b7 = 0x7f then [q, b ^^^ 0x40] else if b7 = q then [q, b] else [b]

namespace KPacket

/-- The type character. -/
def type : KPacket → UInt8
  | data _ _ => DATA_TYPE
  | other type _ _ => type

/-- The characters of the data field. -/
def text (q : UInt8) : KPacket → List UInt8
  | data chunk _ => chunk.flatMap (kQuote q)
  | other _ text _ => text

/-- The bytes of the file in the packet. -/
def content : KPacket → List UInt8
  | data chunk _ => chunk
  | other _ _ _ => []

/-- Whether the length is extended. -/
def long : KPacket → Bool
  | data _ long => long
  | other _ _ long => long

/-- The sum of characters. -/
def charSum (cs : List UInt8) : Nat := (cs.map UInt8.toNat).sum

/-- The fields before the data field, for the packet with the number `j`. -/
def header (q : UInt8) (j : Nat) (p : KPacket) : List UInt8 :=
  if p.long then
    let fields := [tochar 0, tochar (j % 64), p.type, tochar (((p.text q).length + 1) / 95), tochar (((p.text q).length + 1) % 95)]
    fields ++ [checkChar (charSum fields)]
  else [tochar ((p.text q).length + 3), tochar (j % 64), p.type]

/-- The characters of a packet behind its start character. -/
def body (q : UInt8) (j : Nat) (p : KPacket) : List UInt8 :=
  p.header q j ++ p.text q ++ [checkChar (charSum (p.header q j ++ p.text q)), END_CHAR]

/-- A packet that can be sent: printable characters, and a length that its field can hold. -/
structure Ok (q : UInt8) (p : KPacket) : Prop where
  type_ok : ¬belowSpace p.type
  text_ok : ∀ type text long, p = .other type text long → ∀ c ∈ text, ¬belowSpace c
  length_ok : if p.long then (p.text q).length + 1 ≤ 94 * 95 + 94 else (p.text q).length + 3 ≤ 94

end KPacket

/-- The packets of a transfer: a send packet whose parameters set the quote character, then packets that are neither send nor break
packets, and a break packet. -/
structure KTransfer where
  quote : UInt8
  quote_ok : ¬belowSpace quote ∧ quote < 0x80 ∧ ktrans quote = quote
  parms : List UInt8
  parms_quote : KRecv.parmQuote (parms.take (SEND_DATA_SIZE - 1)) = quote
  middle : List KPacket
  middle_ok : ∀ p ∈ middle, p.Ok quote ∧ p.type ≠ SEND_TYPE ∧ p.type ≠ BREAK_TYPE ∧ ∀ text long, p ≠ .other DATA_TYPE text long
  parms_ok : (KPacket.other SEND_TYPE parms false).Ok quote

namespace KTransfer

def packets (t : KTransfer) : List KPacket :=
  .other SEND_TYPE t.parms false :: t.middle ++ [.other BREAK_TYPE [] false]

def file (t : KTransfer) : List UInt8 := t.packets.flatMap KPacket.content

end KTransfer

/-! ## The system -/

/-- The sender's packet, what is on the line, and the receiver. `consumed` is what the receiver has read of a packet; `accepted` counts
the packets it has acknowledged for the first time, and `damaged` says that a packet error came after the last acknowledgement. -/
structure KSys where
  cur : Nat
  line : List (Nat × UInt8)
  recv : KRecv
  replies : List (Nat × KReply)
  consumed : List UInt8
  accepted : Nat
  damaged : Bool

/-- The system at the start. -/
def KSys.init (binStart : Nat) (mem : Nat → UInt8) : KSys := ⟨0, [], KRecv.init binStart mem, [], [], 0, false⟩

/-- What can happen: the sender transmits its packet and the line delivers some characters for it; the receiver reads a character; a
reply is lost; the sender takes a reply. -/
inductive KEvent where
  | send (delivered : List UInt8)
  | read
  | lose
  | take

/-- The packet that a transmission begins anew is forgotten. -/
def consume (place : KPlace) (consumed : List UInt8) (c : UInt8) : List UInt8 :=
  if place = .start then [] else consumed ++ [c]

/-- The receiver reads a character of packet `j`. -/
def KSys.read (s : KSys) (j : Nat) (c : UInt8) (line : List (Nat × UInt8)) : KSys :=
  let s' := { s with line := line, recv := (s.recv.step c).1, consumed := consume s.recv.place s.consumed c }
  match (s.recv.step c).2 with
  | none => s'
  | some (.ack n) => { s' with replies := s.replies ++ [(j, .ack n)], accepted := max s.accepted (j + 1), damaged := false }
  | some (.nack n) => { s' with replies := s.replies ++ [(j, .nack n)], damaged := true }

/-- The sender takes a reply. -/
def KSys.take (s : KSys) (reply : KReply) (replies : List (Nat × KReply)) : KSys :=
  { s with replies := replies, cur := if reply = .ack (s.cur % 64) then s.cur + 1 else s.cur }

def kStep (t : KTransfer) (s : KSys) : KEvent → Option KSys
  | .send delivered =>
    if s.cur < t.packets.length then some { s with line := s.line ++ delivered.map (s.cur, ·) } else none
  | .read =>
    match s.line with
    | [] => none
    | (j, c) :: line => some (s.read j c line)
  | .lose =>
    match s.replies with
    | [] => none
    | _ :: replies => some { s with replies := replies }
  | .take =>
    match s.replies with
    | [] => none
    | (_, reply) :: replies => some (s.take reply replies)

/-- The condition: where the receiver reads a new sequence number, no packet error has come since the last packet was acknowledged, or
that packet carried no data of the file. -/
def NothingUndone (t : KTransfer) (s : KSys) : KEvent → Prop
  | .read => ∀ x ∈ s.line.head?, s.recv.place = .seq → ¬belowSpace x.2 → s.recv.lastN ≠ some (untochar x.2) → s.damaged = true →
    ∀ p ∈ t.packets[s.accepted - 1]?, p.content = []
  | _ => True

/-- The line: a sequence character that is read is that of the packet it belongs to, and a damaged packet is detected, so that what
is accepted are the characters of the packet. -/
def LineOk (t : KTransfer) (s : KSys) : KEvent → Prop
  | .read => ∀ x ∈ s.line.head?, (s.recv.place = .seq → ¬belowSpace x.2 → x.2 = tochar (x.1 % 64)) ∧
    (s.recv.place = .end_ → x.2 = END_CHAR → ∃ p ∈ t.packets[x.1]?, s.consumed ++ [x.2] = p.body t.quote x.1)
  | _ => True

instance (t : KTransfer) (s : KSys) : (e : KEvent) → Decidable (NothingUndone t s e)
  | .read => inferInstanceAs (Decidable (∀ x ∈ s.line.head?, _ → ¬_ → ¬_ → _ → ∀ p ∈ t.packets[s.accepted - 1]?, p.content = []))
  | .send _ | .lose | .take => inferInstanceAs (Decidable True)

instance (t : KTransfer) (s : KSys) : (e : KEvent) → Decidable (LineOk t s e)
  | .read => inferInstanceAs (Decidable (∀ x ∈ s.line.head?, (_ → ¬_ → x.2 = tochar (x.1 % 64)) ∧
      (_ → x.2 = END_CHAR → ∃ p ∈ t.packets[x.1]?, s.consumed ++ [x.2] = p.body t.quote x.1)))
  | .send _ | .lose | .take => inferInstanceAs (Decidable True)

end UBoot
