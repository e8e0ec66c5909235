import UBoot.Mtdparts

/-!
# The answer of a name server

`DnsHandler` of net/dns.c on the payload of a UDP packet. A result of `none` is a read outside the payload, or a loop that does not end.
The messages are left out, and so are the reads for them: `debug` is compiled to nothing.
-/

namespace UBoot

def DNS_A_RECORD : Nat := 0x01
/-- `DNS_CNAME_RECORD` -/
def DNS_CNAME_RECORD : Nat := 0x05

/-- `get_unaligned_be16`, and `ntohs` of a 16-bit field. -/
def be16At (pkt : List UInt8) (i : Nat) : Option Nat :=
  match pkt[i]?, pkt[i + 1]? with
  | some hi, some lo => some (256 * hi.toNat + lo.toNat)
  | _, _ => none

/-- `ip_to_string` of an address in the order of the network. -/
def ipToString : List UInt8 → List UInt8
  | [] => []
  | [b] => decText b.toNat
  | b :: bs => decText b.toNat ++ 0x2e :: ipToString bs

/-- What the handler does: the state of the network loop set to success, and the call of `setenv` with the place of its record. -/
structure DnsDone where
  success : Bool
  setenv : Option (Nat × List UInt8)
  deriving DecidableEq

/-- The loop that dumps the packet, of which its counter of 16 bits is left. -/
def dnsDumpLoop (len : Nat) : Nat → Nat → Option Unit
  | 0, _ => none
  | rounds + 1, i => if i < len then dnsDumpLoop len rounds ((i + 4) % 2 ^ 16) else some ()

/-- The loop that skips the host name of the query. -/
def dnsHostLoop (pkt : List UInt8) : Nat → Nat → Option Nat
  | 0, _ => none
  | rounds + 1, p =>
    if p < pkt.length then (pkt[p]?).bind fun c => if c ≠ 0 then dnsHostLoop pkt rounds (p + 1) else some p else some p

/-- The loop that skips the name of an answer. -/
def dnsNameLoop (pkt : List UInt8) : Nat → Nat → Option Nat
  | 0, _ => none
  | rounds + 1, p =>
    (pkt[p]?).bind fun c => if c ≠ 0 ∧ p + 12 < pkt.length then dnsNameLoop pkt rounds (p + 1) else some p

/-- Skip the possible name of an answer. -/
def dnsSkipName (pkt : List UInt8) (p : Nat) : Option Nat :=
  (pkt[p]?).bind fun c => if c ≠ 0xc0 then (dnsNameLoop pkt (pkt.length + 1) p).map fun p => p - 1 else some p

/-- The loop over the answers: `p` and `found` at its end. -/
def dnsAnswerLoop (pkt : List UInt8) : Nat → Nat → Option (Nat × Bool)
  | 0, _ => none
  | rounds + 1, p =>
    if p + 12 < pkt.length then do
      let p ← dnsSkipName pkt p
      let type ← be16At pkt (p + 2)
      if type = DNS_CNAME_RECORD then (be16At pkt (p + 10)).bind fun dlen => dnsAnswerLoop pkt rounds (p + (12 + dlen))
      else some (p, decide (type = DNS_A_RECORD))
    else some (p, false)

/-- The end of `DnsHandler`: the address of the record at `p`. -/
def dnsAddress (envvar : Bool) (pkt : List UInt8) (p : Nat) : Option DnsDone := do
  let dlen ← be16At pkt (p + 10)
  if p + 12 + 4 ≤ pkt.length then
    let IPAddress := (pkt.drop (p + 12)).take 4
    if p + 12 + dlen ≤ pkt.length then some ⟨true, if envvar then some (p, ipToString IPAddress) else none⟩ else some ⟨true, none⟩
  else none

/-- `DnsHandler` from the host name on. -/
def dnsResponse (envvar : Bool) (pkt : List UInt8) : Option DnsDone := do
  let p ← dnsHostLoop pkt (pkt.length + 1) 12
  if p + 5 > pkt.length then some ⟨true, none⟩
  else
    let type ← be16At pkt (p + 1)
    if type ≠ DNS_A_RECORD then some ⟨true, none⟩
    else
      let (p, found) ← dnsAnswerLoop pkt (pkt.length + 1) (p + 5)
      if found ∧ p + 12 < pkt.length then dnsAddress envvar pkt p else some ⟨true, none⟩

/-- `DnsHandler`, where `envvar` says whether `NetDNSenvvar` is set. -/
def dnsHandler (dnsOurPort : Nat) (envvar : Bool) (pkt : List UInt8) (dest : Nat) : Option DnsDone :=
  if dest ≠ dnsOurPort then some ⟨false, none⟩
  else do
    dnsDumpLoop pkt.length (2 ^ 14 + 1) 0
    let nqueries ← be16At pkt 4
    if nqueries ≠ 1 then some ⟨false, none⟩
    else
      let nanswers ← be16At pkt 6
      if nanswers = 0 then some ⟨true, none⟩ else dnsResponse envvar pkt

end UBoot
