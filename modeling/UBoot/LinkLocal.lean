import UBoot.Nfs

/-!
# Link-local addresses

net/link_local.c: an address of 169.254/16 is picked, probed with ARP requests, announced and then taken. The static variables
of the file are the fields of `LinkLocal`, with `NetOurIP`, `NetOurSubnetMask` and the state of `NetLoop` beside them. `get_timer` is
given with each call, in milliseconds (`CONFIG_SYS_HZ` is 1000). An `IPaddr_t` is the word the board reads at an address in network
order; the board is little-endian. What a handler sends, chooses, assigns and arms is noted in `log`, the latest first.
-/

namespace UBoot

/-- `htonl` of a little-endian board. -/
def htonl (x : UInt32) : UInt32 :=
  UInt32.ofNat (x.toNat % 256 * 16777216 + x.toNat / 256 % 256 * 65536 + x.toNat / 65536 % 256 * 256 + x.toNat / 16777216)

/-- `getenv_IPaddr`: the octets that `string_to_ip` reads, as the word of memory they make; 0 if there is no variable. -/
def getenvIPaddr : Option CString → UInt32
  | none => 0
  | some s =>
    match stringToIp 4 s.bytes with
    | [a, b, c, d] => htonl (ntohl a b c d)
    | _ => 0

/-! ## ARP packets -/

/-- A hardware address. -/
abbrev Ether := Vector UInt8 6

def netEtherNullAddr : Ether := Vector.replicate 6 0

def arpopRequest : UInt16 := 1
/-- `ARPOP_REPLY` -/
def arpopReply : UInt16 := 2

/-- `struct arp_hdr`, with the operation in host order. The formats and lengths are never looked at. -/
structure ArpHdr where
  op : UInt16
  sha : Ether
  spa : UInt32
  tha : Ether
  tpa : UInt32
  deriving DecidableEq

/-- What `arp_raw_request` of net/arp.c sends. -/
def arpRawRequest (netOurEther : Ether) (sourceIP : UInt32) (targetEther : Ether) (targetIP : UInt32) : ArpHdr where
  op := arpopRequest
  sha := netOurEther
  spa := sourceIP
  tha := targetEther
  tpa := targetIP

/-! ## Random numbers -/

/-- `rand_r` of lib/rand.c. The number is the new seed. -/
def randR (seed : UInt32) : UInt32 :=
  let seed := seed ^^^ (seed <<< 13)
  let seed := seed ^^^ (seed >>> 17)
  seed ^^^ (seed <<< 5)

/-- `seed_mac` of net/net_rand.h, on the hardware address of the environment. -/
def seedMac (enetaddr : Ether) : UInt32 :=
  enetaddr[5].toUInt32 ^^^ (enetaddr[4].toUInt32 <<< 8) ^^^ (enetaddr[3].toUInt32 <<< 16) ^^^ (enetaddr[2].toUInt32 <<< 24) ^^^
    enetaddr[1].toUInt32 ^^^ (enetaddr[0].toUInt32 <<< 8)

def linklocalAddr : UInt32 := 0xa9fe0000
/-- `IN_CLASSB_NET` -/
def inClassbNet : UInt32 := 0xffff0000
/-- `IN_CLASSB_HOST` -/
def inClassbHost : UInt32 := 0x0000ffff

/-- The condition under which the loop of `pick` draws again. -/
def drawsAgain (draw : UInt32) : Prop := inClassbHost - 0x0200 < draw &&& inClassbHost

instance (draw : UInt32) : Decidable (drawsAgain draw) := inferInstanceAs (Decidable (_ < _))

/-- The loop of `pick`, with at most `n` further draws: the seed it ends with. -/
def pickLoop : Nat → UInt32 → UInt32
  | 0, seed => randR seed
  | n + 1, seed => if drawsAgain (randR seed) then pickLoop n (randR seed) else randR seed

/-- The seed `pick` leaves. No five draws in a row are out of range (`pickSeed_eq`). -/
def pickSeed (seed : UInt32) : UInt32 := pickLoop 4 seed

def pick (seed : UInt32) : UInt32 := htonl (linklocalAddr + 0x0100 + (pickSeed seed &&& inClassbHost))

def randomDelayMs (secs : UInt32) (seed : UInt32) : UInt32 := randR seed % (secs * 1000)

/-! ## The states -/

/-- `PROBE_WAIT`, in seconds as the other times -/
def probeWait : UInt32 := 1
/-- `PROBE_MIN` -/
def probeMin : UInt32 := 1
/-- `PROBE_MAX` -/
def probeMax : UInt32 := 2
/-- `PROBE_NUM` -/
def probeNum : UInt32 := 3
/-- `MAX_CONFLICTS` -/
def maxConflicts : UInt32 := 10
/-- `RATE_LIMIT_INTERVAL` -/
def rateLimitInterval : Int := 60
/-- `ANNOUNCE_NUM` -/
def announceNum : UInt32 := 2
/-- `ANNOUNCE_INTERVAL` -/
def announceInterval : Int := 2
/-- `DEFEND_INTERVAL` -/
def defendInterval : Int := 10

/-- `enum ll_state_t` -/
inductive LlState where
  | probe | rateLimitProbe | announce | monitor | defend | disabled
  deriving DecidableEq, Repr

/-- What can be observed of a run: packets received and sent, `ip` getting a new address, `NetOurIP` being set to one, and
`NetSetTimeout`. -/
inductive LlObs where
  | received (arp : ArpHdr)
  | sent (arp : ArpHdr)
  | chosen (a : UInt32)
  | assigned (a : UInt32)
  | timeoutSet (ms : Int)
  deriving DecidableEq

/-- The variables of net/link_local.c. -/
structure LinkLocal where
  state : LlState
  ip : UInt32
  timeoutMs : Int
  deadlineMs : UInt32
  conflicts : UInt32
  nprobes : UInt32
  nclaims : UInt32
  ready : Bool
  seed : UInt32
  netOurIP : UInt32
  netOurSubnetMask : UInt32
  net : NetState
  log : List LlObs

/-- The variables before the first call. -/
def LinkLocal.powerOn (netOurIP netOurSubnetMask : UInt32) : LinkLocal where
  state := .disabled
  ip := 0
  timeoutMs := -1
  deadlineMs := 0
  conflicts := 0
  nprobes := 0
  nclaims := 0
  ready := false
  seed := 0
  netOurIP := netOurIP
  netOurSubnetMask := netOurSubnetMask
  net := .running
  log := []

namespace LinkLocal

/-- Something is observed. -/
def note (s : LinkLocal) (o : LlObs) : LinkLocal := { s with log := o :: s.log }

def configureWait (now : UInt32) (s : LinkLocal) : LinkLocal :=
  if s.timeoutMs = -1 then s
  else
    let s := if s.timeoutMs = 0 then
        { s with timeoutMs := (randomDelayMs probeWait s.seed).toNat, seed := randR s.seed }
      else s
    ({ s with deadlineMs := now + UInt32.ofInt s.timeoutMs }).note (.timeoutSet s.timeoutMs)

/-- The lines that restart the protocol with a new address. -/
def restart (s : LinkLocal) : LinkLocal :=
  ({ s with ip := pick s.seed, seed := pickSeed s.seed, timeoutMs := 0, nprobes := 0, nclaims := 0 }).note (.chosen (pick s.seed))

/-- The lines that switch to the announce state. -/
def announce (netOurEther : Ether) (s : LinkLocal) : LinkLocal :=
  ({ s with state := .announce, nclaims := 0, timeoutMs := announceInterval * 1000 }).note
    (.sent (arpRawRequest netOurEther s.ip netOurEther s.ip))

end LinkLocal

/-- `link_local_start`, on the value of `llipaddr` and the hardware address of the environment. -/
def linkLocalStart (ethaddr : Ether) (llipaddr : Option CString) (now : UInt32) (s : LinkLocal) : LinkLocal :=
  let ip := getenvIPaddr llipaddr
  -- the comparison is made on the word in network order
  if ip ≠ 0 ∧ ip &&& inClassbNet ≠ linklocalAddr then { s with ip := ip, net := .fail }
  else
    let s := { s with netOurSubnetMask := inClassbNet, seed := seedMac ethaddr }
    let s := if ip = 0 then ({ s with ip := pick s.seed, seed := pickSeed s.seed }).note (.chosen (pick s.seed))
      else ({ s with ip := ip }).note (.chosen ip)
    LinkLocal.configureWait now { s with state := .probe, timeoutMs := 0, conflicts := 0, nprobes := 0, nclaims := 0, ready := false }

def linkLocalTimeout (netOurEther : Ether) (now : UInt32) (s : LinkLocal) : LinkLocal :=
  match s.state with
  | .probe =>
    if s.nprobes < probeNum then
      LinkLocal.configureWait now
        (({ s with
            nprobes := s.nprobes + 1
            timeoutMs := (probeMin * 1000 + randomDelayMs (probeMax - probeMin) s.seed).toNat
            seed := randR s.seed }).note (.sent (arpRawRequest netOurEther 0 netEtherNullAddr s.ip)))
    else LinkLocal.configureWait now (s.announce netOurEther)
  | .rateLimitProbe => LinkLocal.configureWait now (s.announce netOurEther)
  | .announce =>
    if s.nclaims < announceNum then
      LinkLocal.configureWait now (({ s with nclaims := s.nclaims + 1, timeoutMs := announceInterval * 1000 }).note
          (.sent (arpRawRequest netOurEther s.ip netOurEther s.ip)))
    else
      (({ s with
          state := .monitor
          netOurIP := s.ip
          ready := true
          conflicts := 0
          timeoutMs := -1
          net := .success }).note (.assigned s.ip)).note (.timeoutSet 0)
  | .defend => LinkLocal.configureWait now { s with state := .monitor, timeoutMs := -1, conflicts := 0 }
  | .monitor | .disabled => LinkLocal.configureWait now ({ s with state := .probe }).restart

/-- The timeout `link_local_receive_arp` goes on with when nothing conflicts. -/
def LinkLocal.adjustTimeout (now : UInt32) (s : LinkLocal) : LinkLocal :=
  if 0 < s.timeoutMs then
    let diff := s.deadlineMs - now
    if 0x80000000 ≤ diff then { s with timeoutMs := 0 } else { s with timeoutMs := ((diff ||| 1).toNat : Int) }
  else s

def sourceIpConflict (netOurEther : Ether) (ip : UInt32) (arp : ArpHdr) : Bool := arp.spa = ip ∧ arp.sha ≠ netOurEther

def targetIpConflict (netOurEther : Ether) (ip : UInt32) (arp : ArpHdr) : Bool :=
  arp.op = arpopRequest ∧ arp.tpa = ip ∧ arp.tha ≠ netOurEther

def linkLocalReceiveArp (netOurEther : Ether) (now : UInt32) (arp : ArpHdr) (s : LinkLocal) : LinkLocal :=
  let s := s.note (.received arp)
  if s.state = .disabled then s
  else
    let s := s.adjustTimeout now
    if arp.op ≠ arpopRequest ∧ arp.op ≠ arpopReply then s.configureWait now
    else
      let source := sourceIpConflict netOurEther s.ip arp
      let target := targetIpConflict netOurEther s.ip arp
      match s.state with
      | .probe | .announce =>
        if source || target then
          let s := { s with conflicts := s.conflicts + 1, state := .probe }
          let s := if maxConflicts ≤ s.conflicts then
              { s with timeoutMs := rateLimitInterval * 1000, state := .rateLimitProbe }
            else s
          s.restart.configureWait now
        else s.configureWait now
      | .monitor =>
        if source then
          LinkLocal.configureWait now (({ s with state := .defend, timeoutMs := defendInterval * 1000 }).note
              (.sent (arpRawRequest netOurEther s.ip netOurEther s.ip)))
        else s.configureWait now
      | .defend =>
        if source then LinkLocal.configureWait now ({ s with state := .probe, ready := false, netOurIP := 0 }).restart
        else s.configureWait now
      | .rateLimitProbe | .disabled => LinkLocal.configureWait now ({ s with state := .probe }).restart

/-- What happens after the start: a timeout, or an ARP packet. -/
inductive LlEvent where
  | timeout (now : UInt32)
  | arp (now : UInt32) (arp : ArpHdr)

def linkLocalStep (netOurEther : Ether) (s : LinkLocal) : LlEvent → LinkLocal
  | .timeout now => linkLocalTimeout netOurEther now s
  | .arp now arp => linkLocalReceiveArp netOurEther now arp s

end UBoot
