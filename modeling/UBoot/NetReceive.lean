import UBoot.Word
import UBoot.Defrag

/-!
# Receiving a packet

net/net.c, net/arp.c, net/ping.c: `NetReceive` with `ArpReceive`, `receive_icmp`, `ping_receive` and `net_update_ether`. The memory is that
from the first byte of the frame on; whatever follows the frame is there too. Each read and write of the packet is noted in
`log`, with its place and length, and so is what is handed over or sent. `int` and `unsigned` have 32 bits, and a `ushort` has its
low byte first. The build options are a parameter. A fragment is passed to `__NetDefragment`, and that is where this model ends.
-/

namespace UBoot

open Lib

def ETHER_HDR_SIZE : Nat := 14
def E802_HDR_SIZE : Nat := 22
def VLAN_ETHER_HDR_SIZE : Nat := 18
def ARP_HDR_SIZE : Nat := 28
def UDP_HDR_SIZE : Nat := 8

def PROT_IP : Nat := 0x0800
def PROT_ARP : Nat := 0x0806
def PROT_RARP : Nat := 0x8035
def PROT_VLAN : Nat := 0x8100

def VLAN_NONE : Nat := 4095

/-- The build options that the code depends on. -/
structure NetConfig where
  cdp : Bool
  rarp : Bool
  ping : Bool
  tftpput : Bool
  udpChecksum : Bool
  netconsole : Bool
  mcastTftp : Bool
  keepServeraddr : Bool
  linkLocal : Bool

/-- The variables that the code reads and writes. An `IPaddr_t` is the word read at the address, the VLANs are in host order. -/
structure NetVars where
  ourIP : Nat
  ourEther : Vector UInt8 6
  ourVLAN : Nat
  ourNativeVLAN : Nat
  mcastAddr : Nat
  serverIP : Nat
  pingIP : Nat
  arpWaitPacketIP : Nat
  arpWaitReplyIP : Nat
  arpWaitTxPacketSize : Nat
  /-- `NetArpWaitPacketMAC` is not `NULL`. -/
  arpWaitPacketMAC : Bool
  /-- `packet_icmp_handler` is not `NULL`. -/
  icmpHandler : Bool

/-- What is done with a packet. An `unsigned` length is below `2 ^ 32`. -/
inductive PktEvent where
  | read (off len : Nat)
  | write (off len : Nat)
  | udp (data dport sip sport len : Nat)
  | console (data sip dport sport len : Nat)
  | icmp (type code dport sip sport data len : Nat)
  | redirect (gateway : Nat)
  | arp (data sip len : Nat)
  | rarp (data : Nat) (len : Int)
  | cdp (data : Nat) (len : Int)
  | fragment (data len : Nat)
  | setServeraddr (mac : List UInt8)
  | waitMAC (mac : List UInt8)
  | pingSuccess
  /-- The frame that was received is sent back, with this length. -/
  | reply (len : Nat)
  /-- The packet that waited for an ARP reply is sent. -/
  | sendWaiting (mac : List UInt8) (len : Nat)
  deriving DecidableEq

/-- The state while a packet is received. -/
structure Rx where
  mem : Nat → UInt8
  vars : NetVars
  log : List PktEvent

/-- Some bytes of memory. -/
def bytesAt (mem : Nat → UInt8) (a n : Nat) : List UInt8 := (List.range' a n).map mem

/-- `ntohs` of the `ushort` at an address. -/
def ntohsAt (mem : Nat → UInt8) (a : Nat) : Nat := (mem a).toNat * 256 + (mem (a + 1)).toNat

def netReadIP (mem : Nat → UInt8) (a : Nat) : Nat := get16 mem a + get16 mem (a + 2) * 65536

def Rx.note (s : Rx) (e : PktEvent) : Rx := { s with log := s.log ++ [e] }

def Rx.read (s : Rx) (a n : Nat) : Rx := s.note (.read a n)

def Rx.write (s : Rx) (a : Nat) (bytes : List UInt8) : Rx := { s.note (.write a bytes.length) with mem := store s.mem a bytes }

/-- `memcpy` in the packet. -/
def Rx.copy (s : Rx) (dst src n : Nat) : Rx := (s.read src n).write dst (bytesAt s.mem src n)

/-- Write a `ushort`, in network order. -/
def Rx.writeHtons (s : Rx) (a v : Nat) : Rx := s.write a [UInt8.ofNat (v / 256), UInt8.ofNat v]

/-- Write a `ushort` as it is. -/
def Rx.write16 (s : Rx) (a v : Nat) : Rx := s.write a [UInt8.ofNat v, UInt8.ofNat (v / 256)]

/-- `NetCopyIP` from a variable. -/
def Rx.writeIP (s : Rx) (a ip : Nat) : Rx :=
  s.write a [UInt8.ofNat ip, UInt8.ofNat (ip / 256), UInt8.ofNat (ip / 65536), UInt8.ofNat (ip / 16777216)]

/-- `NetCksum`, with the sum in 32 bits. -/
def netCksumAt (mem : Nat → UInt8) (ptr len : Nat) : Nat :=
  let xsum := ((List.range len).map fun i => get16 mem (ptr + 2 * i)).sum % 2 ^ 32
  let xsum := xsum % 2 ^ 16 + xsum / 2 ^ 16
  let xsum := xsum % 2 ^ 16 + xsum / 2 ^ 16
  xsum % 2 ^ 16

def netCksumOkAt (mem : Nat → UInt8) (ptr len : Nat) : Bool := (netCksumAt mem ptr len + 1) % 2 ^ 16 / 2 = 0

/-! ## Answers -/

/-- `net_update_ether`, with the source address of the frame for `addr`: the size of the header, and the state. -/
def netUpdateEther (s : Rx) (prot : Nat) : Nat × Rx :=
  let s := s.copy 0 6 6
  let s := s.write 6 s.vars.ourEther.toList
  let s := s.read 12 2
  let protlen := ntohsAt s.mem 12
  if protlen = PROT_VLAN then (VLAN_ETHER_HDR_SIZE, s.writeHtons 16 prot)
  else if 1514 < protlen then (ETHER_HDR_SIZE, s.writeHtons 12 prot)
  else (E802_HDR_SIZE, s.writeHtons 20 prot)

/-- The case of `ArpReceive` for a request: the frame is turned into the reply. -/
def arpAnswer (cfg : NetConfig) (s : Rx) (arp : Nat) : Rx :=
  let r := netUpdateEther s PROT_ARP
  let s := r.2.writeHtons (arp + 6) 2
  let s := s.copy (arp + 18) (arp + 8) 6
  let s := s.copy (arp + 24) (arp + 14) 4
  let s := s.write (arp + 8) s.vars.ourEther.toList
  let s := s.writeIP (arp + 14) s.vars.ourIP
  let s := if cfg.linkLocal then (s.read (arp + 24) 4).read (arp + 14) 4 else s
  s.note (.reply (r.1 + ARP_HDR_SIZE))

/-- The case of `ArpReceive` for a reply. -/
def arpReply (cfg : NetConfig) (s : Rx) (arp len : Nat) : Rx :=
  if s.vars.arpWaitPacketIP = 0 then s
  else
    let s := if cfg.keepServeraddr && s.vars.serverIP = s.vars.arpWaitPacketIP then
        (s.read (arp + 8) 6).note (.setServeraddr (bytesAt s.mem (arp + 8) 6))
      else s
    let s := s.read (arp + 14) 4
    let replyIp := netReadIP s.mem (arp + 14)
    if replyIp = s.vars.arpWaitReplyIP then
      let mac := bytesAt s.mem (arp + 8) 6
      let s := if s.vars.arpWaitPacketMAC then (s.read (arp + 8) 6).note (.waitMAC mac) else s
      let s := s.note (.arp arp replyIp len)
      let s := (s.read (arp + 8) 6).note (.sendWaiting mac s.vars.arpWaitTxPacketSize)
      { s with vars := { s.vars with arpWaitPacketIP := 0, arpWaitTxPacketSize := 0, arpWaitPacketMAC := false } }
    else s

/-- `ArpReceive`, with the packet at `arp`. -/
def arpReceive (cfg : NetConfig) (s : Rx) (arp : Nat) (len : Int) : Rx :=
  if len < ARP_HDR_SIZE then s
  else
    let s := s.read arp 2
    if ntohsAt s.mem arp ≠ 1 then s
    else
      let s := s.read (arp + 2) 2
      if ntohsAt s.mem (arp + 2) ≠ PROT_IP then s
      else
        let s := s.read (arp + 4) 1
        if s.mem (arp + 4) ≠ 6 then s
        else
          let s := s.read (arp + 5) 1
          if s.mem (arp + 5) ≠ 4 then s
          else if s.vars.ourIP = 0 then s
          else
            let s := s.read (arp + 24) 4
            if netReadIP s.mem (arp + 24) ≠ s.vars.ourIP then s
            else
              let s := s.read (arp + 6) 2
              if ntohsAt s.mem (arp + 6) = 1 then arpAnswer cfg s arp
              else if ntohsAt s.mem (arp + 6) = 2 then arpReply cfg s arp len.toNat
              else s

/-- The case of `ping_receive` for a request: the frame is turned into the reply. The length of the ICMP message is unsigned. -/
def pingAnswer (s : Rx) (ip len : Nat) : Rx :=
  let r := netUpdateEther s PROT_IP
  let s := r.2.write16 (ip + 10) 0
  let s := s.write16 (ip + 6) 0
  let s := s.copy (ip + 16) (ip + 12) 4
  let s := s.writeIP (ip + 12) s.vars.ourIP
  let s := s.read ip IP_HDR_SIZE
  let s := s.write16 (ip + 10) (2 ^ 16 - 1 - netCksumAt s.mem ip (IP_HDR_SIZE / 2))
  let s := s.write (ip + 20) [0]
  let s := s.write16 (ip + 22) 0
  let words := sub32 len IP_HDR_SIZE / 2
  let s := s.read (ip + 20) (2 * words)
  let s := s.write16 (ip + 22) (2 ^ 16 - 1 - netCksumAt s.mem (ip + 20) words)
  s.note (.reply (r.1 + len))

def pingReceive (s : Rx) (ip len : Nat) : Rx :=
  let s := s.read (ip + 20) 1
  if s.mem (ip + 20) = 0 then
    let s := s.read (ip + 12) 4
    if netReadIP s.mem (ip + 12) = s.vars.pingIP then s.note .pingSuccess else s
  else if s.mem (ip + 20) = 8 then pingAnswer s ip len
  else s

def receiveIcmp (cfg : NetConfig) (s : Rx) (ip len srcIp : Nat) : Rx :=
  let s := s.read (ip + 20) 1
  if s.mem (ip + 20) = 5 then
    let s := s.read (ip + 21) 1
    if s.mem (ip + 21) ≠ 1 then s
    else (s.read (ip + 24) 4).note (.redirect (netReadIP s.mem (ip + 24)))
  else
    let s := if cfg.ping then pingReceive s ip len else s
    if cfg.tftpput && s.vars.icmpHandler then
      let s := (((s.read (ip + 20) 2).read (ip + 22) 2).read (ip + 20) 2).read (ip + 24) 2
      s.note (.icmp (s.mem (ip + 20)).toNat (s.mem (ip + 21)).toNat (ntohsAt s.mem (ip + 22)) srcIp (ntohsAt s.mem (ip + 20)) (ip + 24)
        (ntohsAt s.mem (ip + 24)))
    else s

/-! ## UDP -/

/-- The words of the UDP packet that the checksum loop adds up, for a length of `sumlen`; a last odd byte counts as the high one. -/
def udpSumData (mem : Nat → UInt8) (ptr sumlen : Nat) : Nat :=
  ((List.range (sumlen / 2)).map fun i => ntohsAt mem (ptr + 2 * i)).sum +
    if sumlen % 2 = 1 then (mem (ptr + (sumlen - 1))).toNat * 256 else 0

/-- A round of the loop that folds the sum. -/
def foldSum (xsum : Nat) : Nat := xsum % 2 ^ 16 + xsum / 2 ^ 16 % 2 ^ 16

/-- The loop that folds the sum, which has 32 bits: it ends within three rounds. -/
def udpXsum (mem : Nat → UInt8) (ip : Nat) : Nat :=
  let xsum := (mem (ip + 9)).toNat + ntohsAt mem (ip + 24) + ntohsAt mem (ip + 12) + ntohsAt mem (ip + 14) + ntohsAt mem (ip + 16) +
    ntohsAt mem (ip + 18) + udpSumData mem (ip + 20) (ntohsAt mem (ip + 24))
  foldSum (foldSum (foldSum (xsum % 2 ^ 32)))

/-- The checksum of a UDP packet is right. -/
def udpXsumOk (mem : Nat → UInt8) (ip : Nat) : Bool := udpXsum mem ip = 0 || udpXsum mem ip = 0xffff

/-- The UDP packet is handed over. Its length is unsigned. -/
def udpDeliver (cfg : NetConfig) (s : Rx) (ip srcIp : Nat) : Rx :=
  let s := s.read (ip + 20) 6
  let dport := ntohsAt s.mem (ip + 22)
  let sport := ntohsAt s.mem (ip + 20)
  let len := sub32 (ntohsAt s.mem (ip + 24)) UDP_HDR_SIZE
  let s := if cfg.netconsole then s.note (.console (ip + IP_UDP_HDR_SIZE) srcIp dport sport len) else s
  s.note (.udp (ip + IP_UDP_HDR_SIZE) dport srcIp sport len)

/-- The end of `NetReceive`, for a UDP packet. -/
def udpReceive (cfg : NetConfig) (s : Rx) (ip srcIp : Nat) : Rx :=
  if cfg.udpChecksum then
    let s := s.read (ip + 26) 2
    if ntohsAt s.mem (ip + 26) ≠ 0 then
      let s := ((s.read (ip + 9) 1).read (ip + 12) 14).read (ip + 20) (ntohsAt s.mem (ip + 24))
      if udpXsumOk s.mem ip then udpDeliver cfg s ip srcIp else s
    else udpDeliver cfg s ip srcIp
  else udpDeliver cfg s ip srcIp

/-! ## NetReceive -/

def toUnsigned (n : Int) : Nat := (n % 2 ^ 32).toNat

/-- The part of `NetReceive` for an IP packet. -/
def ipReceive (cfg : NetConfig) (s : Rx) (ip : Nat) (len : Int) : Rx :=
  -- the size of the header is unsigned, so that a negative length is not too small
  if toUnsigned len < IP_UDP_HDR_SIZE then s
  else
    let s := s.read (ip + 2) 2
    if len < ntohsAt s.mem (ip + 2) then s
    else
      let len := ntohsAt s.mem (ip + 2)
      let s := s.read ip 1
      if (s.mem ip).toNat / 16 ≠ 4 then s
      else if 5 < (s.mem ip).toNat % 16 then s
      else
        let s := s.read ip IP_HDR_SIZE
        if !netCksumOkAt s.mem ip (IP_HDR_SIZE / 2) then s
        else
          let s := s.read (ip + 16) 4
          let dstIp := netReadIP s.mem (ip + 16)
          if s.vars.ourIP ≠ 0 ∧ dstIp ≠ s.vars.ourIP ∧ dstIp ≠ 0xffffffff ∧ !(cfg.mcastTftp && s.vars.mcastAddr = dstIp) then s
          else
            let s := s.read (ip + 12) 4
            let srcIp := netReadIP s.mem (ip + 12)
            let s := s.read (ip + 6) 2
            -- `NetDefragment`
            if ntohsAt s.mem (ip + 6) % 0x4000 ≠ 0 then s.note (.fragment ip len)
            else
              let s := s.read (ip + 9) 1
              if s.mem (ip + 9) = 1 then receiveIcmp cfg s ip len srcIp
              else if s.mem (ip + 9) ≠ 17 then s
              else udpReceive cfg s ip srcIp

/-- `myvlanid` and `mynvlanid` -/
def vlanOrNone (vlan : Nat) : Nat := if vlan = 0xffff then VLAN_NONE else vlan

/-- The test of the VLAN, for a frame with the tag `vlanid`. -/
def vlanMatches (v : NetVars) (vlanid : Nat) : Bool :=
  vlanOrNone v.ourVLAN % 0x1000 = VLAN_NONE ||
    (if vlanid = VLAN_NONE then vlanOrNone v.ourNativeVLAN % 0x1000 else vlanid) = vlanOrNone v.ourVLAN % 0x1000

/-- `NetReceive` after the Ethernet header: the protocol, and the packet at `ip` with its length. -/
def netDispatch (cfg : NetConfig) (s : Rx) (iscdp : Bool) (ethProto ip : Nat) (len : Int) (vlanid : Nat) : Rx :=
  if iscdp then s.note (.cdp ip len)
  else if !vlanMatches s.vars vlanid then s
  else if ethProto = PROT_ARP then arpReceive cfg s ip len
  else if cfg.rarp && ethProto = PROT_RARP then s.note (.rarp ip len)
  else if ethProto = PROT_IP then ipReceive cfg s ip len
  else s

def netCDPAddr : List UInt8 := [0x01, 0x00, 0x0c, 0xcc, 0xcc, 0xcc]

/-- `NetReceive` of a frame of `len` bytes. -/
def netReceive (cfg : NetConfig) (s : Rx) (len : Nat) : Rx :=
  if len < ETHER_HDR_SIZE then s
  else
    let s := if cfg.cdp then s.read 0 6 else s
    let iscdp := cfg.cdp && bytesAt s.mem 0 6 = netCDPAddr
    let s := s.read 12 2
    let ethProto := ntohsAt s.mem 12
    if ethProto < 1514 then
      let s := s.read 20 2
      netDispatch cfg s iscdp (ntohsAt s.mem 20) E802_HDR_SIZE ((len : Int) - E802_HDR_SIZE) VLAN_NONE
    else if ethProto ≠ PROT_VLAN then
      netDispatch cfg s iscdp ethProto ETHER_HDR_SIZE ((len : Int) - ETHER_HDR_SIZE) VLAN_NONE
    else if len < VLAN_ETHER_HDR_SIZE then s
    else if s.vars.ourVLAN % 0x1000 = VLAN_NONE ∧ !iscdp then s
    else
      let s := (s.read 14 2).read 16 2
      netDispatch cfg s iscdp (ntohsAt s.mem 16) VLAN_ETHER_HDR_SIZE ((len : Int) - VLAN_ETHER_HDR_SIZE) (ntohsAt s.mem 14 % 0x1000)

/-! ## Headers of the packets that are sent -/

def IP_FLAGS_DFRAG : Nat := 0x4000
def IPPROTO_UDP : UInt8 := 17

/-- Store a `ushort`, in network order. -/
def putHtons (mem : Nat → UInt8) (a v : Nat) : Nat → UInt8 := store mem a [UInt8.ofNat (v / 256), UInt8.ofNat v]

/-- `NetCopyIP` from a variable. -/
def putIP (mem : Nat → UInt8) (a ip : Nat) : Nat → UInt8 :=
  store mem a [UInt8.ofNat ip, UInt8.ofNat (ip / 256), UInt8.ofNat (ip / 65536), UInt8.ofNat (ip / 16777216)]

/-- `net_set_ip_header` at `pkt`: the memory, and `NetIPID`. -/
def netSetIpHeader (mem : Nat → UInt8) (netIPID pkt dest source : Nat) : (Nat → UInt8) × Nat :=
  let mem := store mem pkt [0x45, 0]
  let mem := putHtons mem (pkt + 2) IP_HDR_SIZE
  let mem := putHtons mem (pkt + 4) netIPID
  let mem := putHtons mem (pkt + 6) IP_FLAGS_DFRAG
  let mem := store mem (pkt + 8) [255]
  let mem := put16 mem (pkt + 10) 0
  let mem := putIP mem (pkt + 12) source
  let mem := putIP mem (pkt + 16) dest
  (mem, (netIPID + 1) % 2 ^ 32)

/-- An `int` that `htons` takes. -/
def ushortOf (v : Int) : Nat := (v % 65536).toNat

/-- `net_set_udp_header` at `pkt`: the memory, and `NetIPID`. -/
def netSetUdpHeader (mem : Nat → UInt8) (netIPID netOurIP pkt dest : Nat) (dport sport len : Int) : (Nat → UInt8) × Nat :=
  let mem := if len % 2 ≠ 0 then store mem (pkt + IP_UDP_HDR_SIZE + len).toNat [0] else mem
  let (mem, netIPID) := netSetIpHeader mem netIPID pkt dest netOurIP
  let mem := putHtons mem (pkt + 2) (ushortOf (IP_UDP_HDR_SIZE + len))
  let mem := store mem (pkt + 9) [IPPROTO_UDP]
  let mem := put16 mem (pkt + 10) (2 ^ 16 - 1 - netCksumAt mem pkt (IP_HDR_SIZE / 2))
  let mem := putHtons mem (pkt + 20) (ushortOf sport)
  let mem := putHtons mem (pkt + 22) (ushortOf dport)
  let mem := putHtons mem (pkt + 24) (ushortOf (UDP_HDR_SIZE + len))
  (put16 mem (pkt + 26) 0, netIPID)

end UBoot
