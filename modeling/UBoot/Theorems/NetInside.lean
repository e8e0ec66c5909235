import UBoot.NetReceive
import Mathlib.Tactic.SplitIfs

/-!
# Reception stays inside the packet

The length of the frame, `ip_len`, `udp_len` and the length of an ICMP message are not all compared.
-/

namespace UBoot

open Lib

/-- An event is as it should be: an access is inside the frame, the UDP handler is given no more than the packet holds behind its headers,
and an answer is not longer than the frame. -/
def PktEvent.Ok (mem : Nat → UInt8) (size : Nat) : PktEvent → Prop
  | .read a n => n = 0 ∨ a + n ≤ size
  | .write a n => n = 0 ∨ a + n ≤ size
  | .udp data _ _ _ len => len + IP_UDP_HDR_SIZE ≤ ntohsAt mem (data - IP_UDP_HDR_SIZE + 2) ∧ data + len ≤ size
  | .reply len => len ≤ size
  | _ => True

/-! ## The condition -/

/-- The frame has a packet of protocol `proto` at `ip`, which is for us as far as the Ethernet header goes. -/
def EtherPacket (cfg : NetConfig) (vars : NetVars) (mem : Nat → UInt8) (size proto ip : Nat) : Prop :=
  ETHER_HDR_SIZE ≤ size ∧ ¬(cfg.cdp = true ∧ bytesAt mem 0 6 = netCDPAddr) ∧
    (ntohsAt mem 12 < 1514 ∧ ip = E802_HDR_SIZE ∧ ntohsAt mem 20 = proto ∧ vlanMatches vars VLAN_NONE = true ∨
      1514 ≤ ntohsAt mem 12 ∧ ntohsAt mem 12 ≠ PROT_VLAN ∧ ip = ETHER_HDR_SIZE ∧ ntohsAt mem 12 = proto ∧ vlanMatches vars VLAN_NONE = true ∨
      ntohsAt mem 12 = PROT_VLAN ∧ VLAN_ETHER_HDR_SIZE ≤ size ∧ vars.ourVLAN % 0x1000 ≠ VLAN_NONE ∧ ip = VLAN_ETHER_HDR_SIZE ∧
        ntohsAt mem 16 = proto ∧ vlanMatches vars (ntohsAt mem 14 % 0x1000) = true)

/-- An IP packet of `len` bytes at `ip` passes the checks of `NetReceive`, and is not a fragment. -/
structure IpPacket (cfg : NetConfig) (vars : NetVars) (mem : Nat → UInt8) (ip len : Nat) : Prop where
  header : IP_UDP_HDR_SIZE ≤ len
  length : ntohsAt mem (ip + 2) ≤ len
  version : (mem ip).toNat / 16 = 4
  options : (mem ip).toNat % 16 ≤ 5
  cksum : netCksumOkAt mem ip (IP_HDR_SIZE / 2) = true
  dest : ¬(vars.ourIP ≠ 0 ∧ netReadIP mem (ip + 16) ≠ vars.ourIP ∧ netReadIP mem (ip + 16) ≠ 0xffffffff ∧
    !(cfg.mcastTftp && vars.mcastAddr = netReadIP mem (ip + 16)))
  whole : ntohsAt mem (ip + 6) % 0x4000 = 0

/-- The condition on a UDP packet: if it has a checksum that is to be checked, its length ends in the frame; and if that is right or not
checked, the length is at least that of the header, and ends in the IP packet. -/
def UdpOk (cfg : NetConfig) (mem : Nat → UInt8) (size ip : Nat) : Prop :=
  (cfg.udpChecksum = true ∧ ntohsAt mem (ip + 26) ≠ 0 → ip + 20 + ntohsAt mem (ip + 24) ≤ size) ∧
    ((cfg.udpChecksum = true ∧ ntohsAt mem (ip + 26) ≠ 0 → udpXsumOk mem ip = true) →
      UDP_HDR_SIZE ≤ ntohsAt mem (ip + 24) ∧ IP_HDR_SIZE + ntohsAt mem (ip + 24) ≤ ntohsAt mem (ip + 2))

/-- The condition on a frame: with an 802.2 header it has all of it, an echo request has an `ip_len` of at least an IP header, and a UDP
packet has a good length. -/
def FrameOk (cfg : NetConfig) (vars : NetVars) (mem : Nat → UInt8) (size : Nat) : Prop :=
  (ETHER_HDR_SIZE ≤ size → ntohsAt mem 12 < 1514 → E802_HDR_SIZE ≤ size) ∧
    ∀ ip, EtherPacket cfg vars mem size PROT_IP ip → IpPacket cfg vars mem ip (size - ip) →
      (mem (ip + 9) = 1 → cfg.ping = true → mem (ip + 20) = 8 → IP_HDR_SIZE ≤ ntohsAt mem (ip + 2)) ∧
      (mem (ip + 9) = 17 → UdpOk cfg mem size ip)

namespace NetInsideAux

/-! ## The log -/

variable {a v arp : Nat}

/-- Everything noted so far is as it should be. -/
def Good (mem : Nat → UInt8) (size : Nat) (s : Rx) : Prop := ∀ e ∈ s.log, e.Ok mem size

variable {mem : Nat → UInt8} {size : Nat} {s : Rx}

@[simp] theorem read_mem (a n : Nat) : (s.read a n).mem = s.mem := rfl
@[simp] theorem read_vars (a n : Nat) : (s.read a n).vars = s.vars := rfl

@[simp] theorem good_note (e : PktEvent) : Good mem size (s.note e) ↔ Good mem size s ∧ e.Ok mem size := by
  simp [Good, Rx.note, or_imp, forall_and]

theorem good_read (a n : Nat) : Good mem size (s.read a n) ↔ Good mem size s ∧ (n = 0 ∨ a + n ≤ size) := good_note _

theorem good_read_in {n : Nat} (h : a + n ≤ size) : Good mem size (s.read a n) ↔ Good mem size s :=
  (good_read a n).trans (and_iff_left (Or.inr h))

theorem good_write_in {bytes : List UInt8} (h : a + bytes.length ≤ size) : Good mem size (s.write a bytes) ↔ Good mem size s :=
  (good_note _).trans (and_iff_left (Or.inr h))

theorem good_copy_in {dst src n : Nat} (hs : src + n ≤ size) (hd : dst + n ≤ size) : Good mem size (s.copy dst src n) ↔ Good mem size s := by
  rw [Rx.copy, good_write_in (by simpa [bytesAt] using hd), good_read_in hs]

theorem good_writeHtons_in (h : a + 2 ≤ size) : Good mem size (s.writeHtons a v) ↔ Good mem size s := good_write_in h

theorem good_write16_in (h : a + 2 ≤ size) : Good mem size (s.write16 a v) ↔ Good mem size s := good_write_in h

theorem good_writeIP_in (h : a + 4 ≤ size) : Good mem size (s.writeIP a v) ↔ Good mem size s := good_write_in h

theorem good_writeByte_in {b : UInt8} (h : a + 1 ≤ size) : Good mem size (s.write a [b]) ↔ Good mem size s := good_write_in h

theorem good_writeEther_in {ether : Vector UInt8 6} (h : a + 6 ≤ size) : Good mem size (s.write a ether.toList) ↔ Good mem size s :=
  good_write_in (by simpa using h)

theorem good_vars (v : NetVars) : Good mem size { s with vars := v } ↔ Good mem size s := Iff.rfl

/-! ## Answers -/

/-- The size of the Ethernet header of the frame, as `net_update_ether` sees it. -/
def etherSize (mem : Nat → UInt8) : Nat :=
  if ntohsAt mem 12 = PROT_VLAN then VLAN_ETHER_HDR_SIZE else if 1514 < ntohsAt mem 12 then ETHER_HDR_SIZE else E802_HDR_SIZE

/-- `net_update_ether` after the addresses. -/
def exchanged (s : Rx) : Rx := ((s.copy 0 6 6).write 6 s.vars.ourEther.toList).read 12 2

theorem ntohsAt_exchanged : ntohsAt (exchanged s).mem 12 = ntohsAt s.mem 12 := by
  have h (m : Nat → UInt8) (xs ys : List UInt8) (hx : xs.length = 6) (hy : ys.length = 6) :
      ntohsAt (store (store m 0 xs) 6 ys) 12 = ntohsAt m 12 := by
    unfold ntohsAt
    rw [store_of_outside (by omega), store_of_outside (by omega), store_of_outside (by omega), store_of_outside (by omega)]
  exact h s.mem _ _ (by simp [bytesAt]) (by simp)

theorem netUpdateEther_eq (prot : Nat) : netUpdateEther s prot = (etherSize s.mem, (exchanged s).writeHtons (etherSize s.mem - 2) prot) := by
  have hdef : netUpdateEther s prot =
      if ntohsAt (exchanged s).mem 12 = PROT_VLAN then (VLAN_ETHER_HDR_SIZE, (exchanged s).writeHtons 16 prot)
      else if 1514 < ntohsAt (exchanged s).mem 12 then (ETHER_HDR_SIZE, (exchanged s).writeHtons 12 prot)
      else (E802_HDR_SIZE, (exchanged s).writeHtons 20 prot) := rfl
  rw [hdef, ntohsAt_exchanged, etherSize]
  split_ifs <;> rfl

theorem etherSize_ge (m : Nat → UInt8) : 14 ≤ etherSize m := by
  unfold etherSize
  split_ifs <;> decide

theorem good_netUpdateEther (prot : Nat) (hsize : etherSize s.mem ≤ size) : Good mem size (netUpdateEther s prot).2 ↔ Good mem size s := by
  have hge := etherSize_ge s.mem
  simp (disch := omega) only [netUpdateEther_eq, exchanged, good_writeHtons_in, good_read_in, good_writeEther_in, good_copy_in]

theorem good_arpAnswer (cfg : NetConfig) (hether : etherSize s.mem = arp) (hsize : arp + 28 ≤ size) :
    Good mem size (arpAnswer cfg s arp) ↔ Good mem size s := by
  have hfst : (netUpdateEther s PROT_ARP).1 = arp := by rw [netUpdateEther_eq, hether]
  have hreply : (PktEvent.reply (arp + ARP_HDR_SIZE)).Ok mem size := hsize
  unfold arpAnswer
  simp only [good_note, hfst, hreply, and_true]
  split_ifs <;>
    simp (disch := omega) only [good_read_in, good_writeIP_in, good_writeEther_in, good_copy_in, good_writeHtons_in, good_netUpdateEther]

theorem good_arpReply (cfg : NetConfig) {len : Nat} (hsize : arp + 28 ≤ size) :
    Good mem size (arpReply cfg s arp len) ↔ Good mem size s := by
  unfold arpReply
  simp only
  split_ifs <;> simp (disch := omega) only [good_vars, good_note, good_read_in, PktEvent.Ok, and_true]

theorem good_arpReceive (cfg : NetConfig) {len : Int} (hlen : (arp : Int) + len = size) (hether : etherSize s.mem = arp) :
    Good mem size (arpReceive cfg s arp len) ↔ Good mem size s := by
  unfold arpReceive
  by_cases hshort : len < ARP_HDR_SIZE
  · rw [if_pos hshort]
  rw [if_neg hshort]
  unfold ARP_HDR_SIZE at hshort
  have hanswer (t : Rx) (ht : etherSize t.mem = arp) : Good mem size (arpAnswer cfg t arp) ↔ Good mem size t :=
    good_arpAnswer cfg ht (by omega)
  simp only
  split_ifs
  all_goals try simp only [hanswer, read_mem, hether]
  all_goals simp (disch := omega) only [good_arpReply, good_read_in]

/-! ## ICMP -/

theorem icmp_words (len : Nat) : (IP_HDR_SIZE ≤ len → 2 * (sub32 len IP_HDR_SIZE / 2) ≤ len - IP_HDR_SIZE) ∧
    (len < IP_HDR_SIZE → 2 ^ 31 ≤ 2 * (sub32 len IP_HDR_SIZE / 2)) := by
  unfold sub32 IP_HDR_SIZE
  omega

section Packet

variable {ip len : Nat} (hip : ip + 28 ≤ size) (hlen : ip + len ≤ size) (hsize : size < 2 ^ 31)
include hip hlen hsize

theorem good_pingAnswer (hether : etherSize s.mem = ip) : Good mem size (pingAnswer s ip len) ↔ Good mem size s ∧ IP_HDR_SIZE ≤ len := by
  have hfst : (netUpdateEther s PROT_IP).1 = ip := by rw [netUpdateEther_eq, hether]
  have hreply : (PktEvent.reply (ip + len)).Ok mem size := hlen
  have hhdr : ip + IP_HDR_SIZE ≤ size := by
    unfold IP_HDR_SIZE
    omega
  have hwords : 2 * (sub32 len IP_HDR_SIZE / 2) = 0 ∨ ip + 20 + 2 * (sub32 len IP_HDR_SIZE / 2) ≤ size ↔ IP_HDR_SIZE ≤ len := by
    have := icmp_words len
    unfold IP_HDR_SIZE at this ⊢
    omega
  unfold pingAnswer
  simp only [good_note, hfst, hreply, and_true]
  rw [good_write16_in (by omega), good_read, hwords]
  simp (disch := omega) only [good_read_in, good_writeIP_in, good_writeByte_in, good_write16_in, good_copy_in, good_netUpdateEther]

theorem good_pingReceive (hether : etherSize s.mem = ip) :
    Good mem size (pingReceive s ip len) ↔ Good mem size s ∧ (s.mem (ip + 20) = 8 → IP_HDR_SIZE ≤ len) := by
  have h8 : (0 : UInt8) ≠ 8 := by decide
  unfold pingReceive
  simp only
  split_ifs with h0 hsrc hreq
  · simp (disch := omega) only [good_note, good_read_in, PktEvent.Ok, and_true]
    simp [show s.mem (ip + 20) = 0 from h0, h8]
  · simp (disch := omega) only [good_read_in]
    simp [show s.mem (ip + 20) = 0 from h0, h8]
  · rw [good_pingAnswer (s := s.read (ip + 20) 1) hip hlen hsize hether, good_read_in (by omega)]
    simp [show s.mem (ip + 20) = 8 from hreq]
  · rw [good_read_in (by omega)]
    simp [show s.mem (ip + 20) ≠ 8 from hreq]

theorem good_receiveIcmp (cfg : NetConfig) (srcIp : Nat) (hether : etherSize s.mem = ip) : Good mem size (receiveIcmp cfg s ip len srcIp) ↔
      Good mem size s ∧ (cfg.ping = true → s.mem (ip + 20) = 8 → IP_HDR_SIZE ≤ len) := by
  have h8 : (5 : UInt8) ≠ 8 := by decide
  have hping : Good mem size (if cfg.ping then pingReceive (s.read (ip + 20) 1) ip len else s.read (ip + 20) 1) ↔
      Good mem size s ∧ (cfg.ping = true → s.mem (ip + 20) = 8 → IP_HDR_SIZE ≤ len) := by
    split_ifs with hp
    · rw [good_pingReceive (s := s.read (ip + 20) 1) hip hlen hsize hether, good_read_in (by omega)]
      simp [hp]
    · rw [good_read_in (by omega)]
      simp [hp]
  unfold receiveIcmp
  by_cases h5 : s.mem (ip + 20) = 5
  · simp only [show (s.read (ip + 20) 1).mem (ip + 20) = 5 from h5, if_true]
    split_ifs <;> simp (disch := omega) only [good_note, good_read_in, PktEvent.Ok, and_true] <;> simp [h5, h8]
  · simp only [show (s.read (ip + 20) 1).mem (ip + 20) ≠ 5 from h5, if_false]
    rw [← hping]
    generalize (if cfg.ping then pingReceive (s.read (ip + 20) 1) ip len else s.read (ip + 20) 1) = t
    split_ifs <;> simp (disch := omega) only [good_note, good_read_in, PktEvent.Ok, and_true]

end Packet

/-! ## UDP and IP -/

theorem udp_length {u n : Nat} (hu : u < 2 ^ 16) (hn : n < 2 ^ 16) :
    sub32 u UDP_HDR_SIZE + IP_UDP_HDR_SIZE ≤ n ↔ UDP_HDR_SIZE ≤ u ∧ IP_HDR_SIZE + u ≤ n := by
  unfold sub32 UDP_HDR_SIZE IP_UDP_HDR_SIZE IP_HDR_SIZE
  omega

theorem ntohsAt_lt (m : Nat → UInt8) (a : Nat) : ntohsAt m a < 2 ^ 16 := by
  have h1 := (m a).toNat_lt
  have h2 := (m (a + 1)).toNat_lt
  unfold ntohsAt
  omega

section Udp

variable (cfg : NetConfig) (srcIp : Nat) {ip : Nat} (hip : ip + 28 ≤ size) (hlen : ip + ntohsAt mem (ip + 2) ≤ size)
include hip hlen

theorem good_udpDeliver (hmem : s.mem = mem) : Good mem size (udpDeliver cfg s ip srcIp) ↔
    Good mem size s ∧ UDP_HDR_SIZE ≤ ntohsAt mem (ip + 24) ∧ IP_HDR_SIZE + ntohsAt mem (ip + 24) ≤ ntohsAt mem (ip + 2) := by
  subst hmem
  have hiff := udp_length (ntohsAt_lt s.mem (ip + 24)) (ntohsAt_lt s.mem (ip + 2))
  have hudp (dport sport : Nat) : (PktEvent.udp (ip + IP_UDP_HDR_SIZE) dport srcIp sport
      (sub32 (ntohsAt s.mem (ip + 24)) UDP_HDR_SIZE)).Ok s.mem size ↔
        UDP_HDR_SIZE ≤ ntohsAt s.mem (ip + 24) ∧ IP_HDR_SIZE + ntohsAt s.mem (ip + 24) ≤ ntohsAt s.mem (ip + 2) := by
    simp only [PktEvent.Ok, Nat.add_sub_cancel]
    rw [← hiff, and_iff_left_iff_imp]
    unfold IP_UDP_HDR_SIZE
    omega
  unfold udpDeliver
  simp only [good_note, read_mem, hudp]
  split_ifs <;> simp (disch := omega) only [good_note, good_read_in, PktEvent.Ok, and_true]

/-- A UDP packet is received as it should be exactly when its length is good. -/
theorem good_udpReceive (hmem : s.mem = mem) : Good mem size (udpReceive cfg s ip srcIp) ↔ Good mem size s ∧ UdpOk cfg mem size ip := by
  unfold udpReceive UdpOk
  by_cases hcfg : cfg.udpChecksum = true
  · rw [if_pos hcfg]
    simp only [hcfg, true_and]
    subst hmem
    have hread : ntohsAt s.mem (ip + 24) = 0 ∨ ip + 20 + ntohsAt s.mem (ip + 24) ≤ size ↔ ip + 20 + ntohsAt s.mem (ip + 24) ≤ size := by omega
    split_ifs with hzero hok
    · -- the checksum is checked, and right
      have hzero' : ntohsAt s.mem (ip + 26) ≠ 0 := hzero
      have hok' : udpXsumOk s.mem ip = true := hok
      rw [good_udpDeliver cfg srcIp hip hlen ?_, good_read]
      · simp (disch := omega) only [good_read_in, read_mem, hread, hzero', hok', ne_eq, not_false_eq_true, true_implies, and_assoc]
      · simp only [read_mem]
    · have hzero' : ntohsAt s.mem (ip + 26) ≠ 0 := hzero
      have hok' : ¬udpXsumOk s.mem ip = true := hok
      rw [good_read]
      simp (disch := omega) only [good_read_in, read_mem, hread, hzero', hok', ne_eq, not_false_eq_true, true_implies, false_implies,
        and_true, Bool.false_eq_true]
    · have hzero' : ntohsAt s.mem (ip + 26) = 0 := not_not.1 hzero
      rw [good_udpDeliver (s := s.read (ip + 26) 2) cfg srcIp hip hlen rfl, good_read_in (by omega)]
      simp only [hzero', ne_eq, not_true_eq_false, false_implies, true_implies, true_and]
  · rw [if_neg hcfg, good_udpDeliver cfg srcIp hip hlen hmem]
    simp [hcfg]

end Udp
variable {ip proto vlanid : Nat} {len : Int} {iscdp : Bool}


/-- With a length that is negative, since the frame is too short for its 802.2 header, the IP packet is dropped once `ip_len` was read. -/
theorem ipReceive_negative (cfg : NetConfig) (h : len < 0) (hlo : -2 ^ 31 ≤ len) :
    ipReceive cfg s ip len = s.read (ip + 2) 2 := by
  have hbig : ¬toUnsigned len < IP_UDP_HDR_SIZE := by
    unfold toUnsigned IP_UDP_HDR_SIZE
    omega
  rw [ipReceive, if_neg hbig]
  exact if_pos (by omega)

/-- An IP packet is received as it should be exactly when the condition on what is in it holds. -/
theorem good_ipReceive (cfg : NetConfig) {len : Nat} (hlen : ip + len = size) (hsize : size < 2 ^ 31) (hmem : s.mem = mem)
    (hether : etherSize mem = ip) : Good mem size (ipReceive cfg s ip len) ↔ Good mem size s ∧ (IpPacket cfg s.vars mem ip len →
      (mem (ip + 9) = 1 → cfg.ping = true → mem (ip + 20) = 8 → IP_HDR_SIZE ≤ ntohsAt mem (ip + 2)) ∧
      (mem (ip + 9) = 17 → UdpOk cfg mem size ip)) := by
  subst hmem
  have hlen' : toUnsigned (len : Int) = len := by
    unfold toUnsigned
    omega
  have hsmall : IP_UDP_HDR_SIZE = 28 := rfl
  have hihl : IP_HDR_SIZE = 20 := rfl
  -- a packet that is dropped is none of those that the condition is about
  have hdrop (t : Rx) (ht : Good s.mem size t ↔ Good s.mem size s) {P : Prop} (hno : ¬IpPacket cfg s.vars s.mem ip len) :
      Good s.mem size t ↔ Good s.mem size s ∧ (IpPacket cfg s.vars s.mem ip len → P) :=
    ht.trans (and_iff_left fun h => absurd h hno).symm
  rw [ipReceive, hlen']
  by_cases h1 : len < IP_UDP_HDR_SIZE
  · rw [if_pos h1]
    exact hdrop s Iff.rfl fun h => by have := h.header; omega
  rw [if_neg h1]
  simp only
  split_ifs with h2 h3 h4 h5 h6 h7 h8 h9
  · refine hdrop _ ?_ fun h => ?_
    · simp (disch := omega) only [good_read_in]
    · have h2' : (len : Int) < ntohsAt s.mem (ip + 2) := h2
      have := h.length
      omega
  · refine hdrop _ ?_ fun h => h3 h.version
    simp (disch := omega) only [good_read_in]
  · refine hdrop _ ?_ fun h => ?_
    · simp (disch := omega) only [good_read_in]
    · have h4' : 5 < (s.mem ip).toNat % 16 := h4
      have := h.options
      omega
  · refine hdrop _ ?_ fun h => ?_
    · simp (disch := omega) only [good_read_in]
    · have hok := h.cksum
      rw [show netCksumOkAt s.mem ip (IP_HDR_SIZE / 2) = false by simpa using h5] at hok
      cases hok
  · refine hdrop _ ?_ fun h => h.dest h6
    simp (disch := omega) only [good_read_in]
  · refine hdrop _ ?_ fun h => h7 h.whole
    simp (disch := omega) only [good_note, good_read_in, PktEvent.Ok, and_true]
  all_goals
    have hpacket : IpPacket cfg s.vars s.mem ip len := {
      header := by omega
      length := by
        have h2' : ¬(len : Int) < ntohsAt s.mem (ip + 2) := h2
        omega
      version := not_not.1 h3
      options := Nat.le_of_not_lt h4
      cksum := by simpa using h5
      dest := h6
      whole := not_not.1 h7 }
    have hin : ip + ntohsAt s.mem (ip + 2) ≤ size := by
      have := hpacket.length
      omega
    simp only [hpacket, true_implies]
  · have h8' : s.mem (ip + 9) = 1 := h8
    rw [good_receiveIcmp (by omega) ?_ hsize cfg _ ?_]
    · simp (disch := omega) only [good_read_in, read_mem]
      simp [h8']
    · exact hin
    · simpa only [read_mem] using hether
  · have h8' : s.mem (ip + 9) ≠ 1 := h8
    have h9' : s.mem (ip + 9) ≠ 17 := h9
    simp (disch := omega) only [good_read_in]
    simp [h8', h9']
  · have h9' : s.mem (ip + 9) = 17 := not_not.1 h9
    rw [good_udpReceive cfg _ (by omega) hin ?_]
    · simp (disch := omega) only [good_read_in]
      simp [h9']
    · simp only [read_mem]

/-- After the Ethernet header, with the header in the frame. -/
theorem good_netDispatch (cfg : NetConfig) (hlen : (ip : Int) + len = size)
    (hpos : 0 ≤ len) (hsize : size < 2 ^ 31) (hmem : s.mem = mem) (hether : proto = PROT_ARP ∨ proto = PROT_IP → etherSize mem = ip) :
    Good mem size (netDispatch cfg s iscdp proto ip len vlanid) ↔ Good mem size s ∧
      (iscdp = false → vlanMatches s.vars vlanid = true → proto = PROT_IP → IpPacket cfg s.vars mem ip (size - ip) →
        (mem (ip + 9) = 1 → cfg.ping = true → mem (ip + 20) = 8 → IP_HDR_SIZE ≤ ntohsAt mem (ip + 2)) ∧
        (mem (ip + 9) = 17 → UdpOk cfg mem size ip)) := by
  obtain ⟨n, rfl⟩ := Int.eq_ofNat_of_zero_le hpos
  have hn : size - ip = n := by omega
  have harp : PROT_ARP ≠ PROT_IP := by decide
  have hrarp : PROT_RARP ≠ PROT_IP := by decide
  rw [hn]
  unfold netDispatch
  split_ifs with hcdp hvlan h1 h2 h3
  · simp [hcdp, PktEvent.Ok]
  · have hvlan' : ¬vlanMatches s.vars vlanid = true := by simpa using hvlan
    simp [hvlan']
  · rw [good_arpReceive cfg hlen (by rw [hmem]; exact hether (Or.inl h1))]
    simp [h1, harp]
  · simp [show proto = PROT_RARP from by simpa using (by simpa using h2 : _ ∧ _).2, hrarp, PktEvent.Ok]
  · rw [good_ipReceive cfg (by omega) hsize hmem (hether (Or.inr h3))]
    simp [h3, show iscdp = false by simpa using hcdp, show vlanMatches s.vars vlanid = true by simpa using hvlan]
  · simp [h3]

theorem good_of_netDispatch (cfg : NetConfig) (hlen : len < 0) (hlo : -2 ^ 31 ≤ len)
    (h : Good mem size (netDispatch cfg s iscdp proto ip len vlanid)) : Good mem size s := by
  unfold netDispatch at h
  split_ifs at h with hcdp hvlan h1 h2 h3
  · exact ((good_note _).1 h).1
  · exact h
  · rwa [arpReceive, if_pos (by unfold ARP_HDR_SIZE; omega)] at h
  · exact ((good_note _).1 h).1
  · rw [ipReceive_negative cfg hlen hlo] at h
    exact ((good_read _ _).1 h).1
  · exact h

/-- The frame is one of the Cisco discovery protocol, and is passed on as such. -/
def isCdp (cfg : NetConfig) (mem : Nat → UInt8) : Bool := cfg.cdp && bytesAt mem 0 6 = netCDPAddr

theorem isCdp_eq_false_iff (cfg : NetConfig) (mem : Nat → UInt8) : isCdp cfg mem = false ↔ ¬(cfg.cdp = true ∧ bytesAt mem 0 6 = netCDPAddr) := by
  rw [isCdp, ← Bool.not_eq_true, Bool.and_eq_true, decide_eq_true_eq]

/-- `NetReceive` once the protocol has been read, which notes nothing bad. -/
theorem netReceive_eq (cfg : NetConfig) (s : Rx) (hsize : ¬size < ETHER_HDR_SIZE) :
    ∃ t : Rx, t.mem = s.mem ∧ t.vars = s.vars ∧ (∀ mem, Good mem size t ↔ Good mem size s) ∧ netReceive cfg s size =
        if ntohsAt t.mem 12 < 1514 then
          netDispatch cfg (t.read 20 2) (isCdp cfg s.mem) (ntohsAt t.mem 20) E802_HDR_SIZE ((size : Int) - E802_HDR_SIZE) VLAN_NONE
        else if ntohsAt t.mem 12 ≠ PROT_VLAN then
          netDispatch cfg t (isCdp cfg s.mem) (ntohsAt t.mem 12) ETHER_HDR_SIZE ((size : Int) - ETHER_HDR_SIZE) VLAN_NONE
        else if size < VLAN_ETHER_HDR_SIZE then t
        else if t.vars.ourVLAN % 0x1000 = VLAN_NONE ∧ !isCdp cfg s.mem then t
        else
          netDispatch cfg ((t.read 14 2).read 16 2) (isCdp cfg s.mem) (ntohsAt t.mem 16) VLAN_ETHER_HDR_SIZE
            ((size : Int) - VLAN_ETHER_HDR_SIZE) (ntohsAt t.mem 14 % 0x1000) := by
  have h14 : 14 ≤ size := Nat.le_of_not_lt hsize
  refine ⟨(if cfg.cdp then s.read 0 6 else s).read 12 2, ?_⟩
  cases hcdp : cfg.cdp with
  | false =>
    refine ⟨rfl, rfl, fun mem => good_read_in (by omega), ?_⟩
    rw [netReceive, if_neg hsize]
    simp only [hcdp, isCdp, Bool.false_and]
    rfl
  | true =>
    refine ⟨rfl, rfl, fun mem => ?_, ?_⟩
    · rw [good_read_in (by omega)]
      exact good_read_in (by omega)
    · rw [netReceive, if_neg hsize]
      simp only [hcdp, isCdp, Bool.true_and]
      rfl

theorem good_dispatched {cfg : NetConfig} (hgood : Good mem size s) (hmem : s.mem = mem) (hfits : ip ≤ size)
    (hsize : size < 2 ^ 31) (h802 : ntohsAt mem 12 < 1514 → E802_HDR_SIZE ≤ size)
    (hether : proto = PROT_ARP ∨ proto = PROT_IP → etherSize mem = ip)
    (hpacket : ∀ ip', EtherPacket cfg s.vars mem size PROT_IP ip' ↔
      ip' = ip ∧ isCdp cfg mem = false ∧ vlanMatches s.vars vlanid = true ∧ proto = PROT_IP) :
    Good mem size (netDispatch cfg s (isCdp cfg mem) proto ip ((size : Int) - ip) vlanid) ↔ FrameOk cfg s.vars mem size := by
  rw [good_netDispatch cfg (by omega) (by omega) hsize hmem hether, and_iff_right hgood]
  constructor
  · intro h
    refine ⟨fun _ => h802, fun ip' hip' => ?_⟩
    obtain ⟨rfl, hcdp, hvlan, hproto⟩ := (hpacket ip').1 hip'
    exact h hcdp hvlan hproto
  · intro h hcdp hvlan hproto
    exact h.2 ip ((hpacket ip).2 ⟨rfl, hcdp, hvlan, hproto⟩)

/-- Everything that `NetReceive` notes is as it should be exactly when the condition on the frame holds. -/
theorem good_netReceive (cfg : NetConfig) (vars : NetVars) (hsize : size < 2 ^ 31) :
    Good mem size (netReceive cfg ⟨mem, vars, []⟩ size) ↔ FrameOk cfg vars mem size := by
  have h0 : Good mem size ⟨mem, vars, []⟩ := by
    intro e he
    cases he
  by_cases hether : size < ETHER_HDR_SIZE
  · rw [netReceive, if_pos hether]
    refine iff_of_true h0 ⟨fun h => by omega, fun ip hip => ?_⟩
    have := hip.1
    omega
  obtain ⟨t, hmem, hvars, hgood, heq⟩ := netReceive_eq cfg ⟨mem, vars, []⟩ hether
  have ht : Good mem size t := (hgood mem).2 h0
  rw [heq]
  clear heq hgood h0
  subst hmem hvars
  have h14 : ETHER_HDR_SIZE ≤ size := Nat.le_of_not_lt hether
  have hcdp := isCdp_eq_false_iff cfg t.mem
  have hvl : PROT_VLAN = 0x8100 := rfl
  have h22 : E802_HDR_SIZE = 22 := rfl
  have h18 : VLAN_ETHER_HDR_SIZE = 18 := rfl
  split_ifs with h802 hvlan hshort hnone
  · -- 802.2
    by_cases hfits : E802_HDR_SIZE ≤ size
    · refine good_dispatched (s := t.read 20 2) ((good_read_in hfits).2 ht) rfl hfits hsize (fun _ => hfits) (fun _ => ?_) fun ip => ?_
      · rw [etherSize, if_neg (by omega), if_neg (by omega)]
      · have hne : ntohsAt t.mem 12 ≠ PROT_VLAN := by omega
        simp only [EtherPacket, h14, h802, Nat.not_le.2 h802, hne, true_and, false_and, or_false, ← hcdp, read_vars]
        constructor
        · rintro ⟨h1, h2, h3, h4⟩
          exact ⟨h2, h1, h4, h3⟩
        · rintro ⟨h1, h2, h3, h4⟩
          exact ⟨h2, h1, h4, h3⟩
    · refine iff_of_false (fun h => hfits ?_) fun h => hfits (h.1 h14 h802)
      have := (good_read 20 2).1 (good_of_netDispatch cfg (by omega) (by omega) h)
      omega
  · -- a plain frame
    refine good_dispatched ht rfl h14 hsize (fun h => absurd h h802) (fun h => ?_) fun ip => ?_
    · have : 1514 < ntohsAt t.mem 12 := by
        rcases h with h | h <;> rw [h] <;> decide
      rw [etherSize, if_neg hvlan, if_pos this]
    · simp only [EtherPacket, h14, h802, Nat.not_lt.1 h802, hvlan, true_and, false_and, false_or, or_false, ← hcdp, ne_eq, not_false_eq_true]
      constructor
      · rintro ⟨h1, h2, h3, h4⟩
        exact ⟨h2, h1, h4, h3⟩
      · rintro ⟨h1, h2, h3, h4⟩
        exact ⟨h2, h1, h4, h3⟩
  · -- no packet is looked at
    refine iff_of_true ht ⟨fun _ h => absurd h h802, fun ip hip => ?_⟩
    obtain ⟨-, -, ⟨h, -⟩ | ⟨-, h, -⟩ | ⟨-, h, -⟩⟩ := hip
    · exact absurd h h802
    · exact absurd h hvlan
    · omega
  · refine iff_of_true ht ⟨fun _ h => absurd h h802, fun ip hip => ?_⟩
    obtain ⟨-, -, ⟨h, -⟩ | ⟨-, h, -⟩ | ⟨-, -, h, -⟩⟩ := hip
    · exact absurd h h802
    · exact absurd h hvlan
    · exact absurd hnone.1 h
  · -- a VLAN frame
    have hfits : VLAN_ETHER_HDR_SIZE ≤ size := Nat.le_of_not_lt hshort
    have hvlan' : ntohsAt t.mem 12 = PROT_VLAN := not_not.1 hvlan
    refine good_dispatched (s := (t.read 14 2).read 16 2) ?_ rfl hfits hsize (fun h => absurd h h802) (fun _ => ?_) fun ip => ?_
    · simpa (disch := omega) only [good_read_in] using ht
    · rw [etherSize, if_pos hvlan']
    · have hne : ¬PROT_VLAN < 1514 := by decide
      simp only [EtherPacket, h14, hvlan', hne, hfits, true_and, false_and, false_or, ← hcdp, ne_eq, not_true_eq_false, and_false, read_vars]
      constructor
      · rintro ⟨h1, h2, h3, h4, h5⟩
        exact ⟨h3, h1, h5, h4⟩
      · rintro ⟨h1, h2, h3, h4⟩
        refine ⟨h2, fun hour => hnone ⟨hour, by simpa using h2⟩, h1, h4, h3⟩

end NetInsideAux

open NetInsideAux

/-- For every frame, every build and every setting, `NetReceive` stays inside the frame, gives the UDP handler no more than the packet holds
and answers with no more than it got, exactly when the condition on the frame holds. -/
theorem net_receive_inside_iff (cfg : NetConfig) (vars : NetVars) (mem : Nat → UInt8) (size : Nat) (hsize : size < 2 ^ 31) :
    (∀ e ∈ (netReceive cfg ⟨mem, vars, []⟩ size).log, e.Ok mem size) ↔ FrameOk cfg vars mem size :=
  good_netReceive cfg vars hsize

/-- A build with `ping`, and a board with no address and no VLAN. -/
def pingConfig : NetConfig := ⟨false, false, true, false, false, false, false, false, false⟩

def noAddress : NetVars := ⟨0, Vector.replicate 6 0, 0xffff, 0xffff, 0, 0, 0, 0, 0, 0, false, false⟩

/-- A frame with an echo request, whose `ip_len` is `len`. -/
def echoFrame (len : UInt8) : List UInt8 :=
  [1, 2, 3, 4, 5, 6, 7, 8, 9, 10, 11, 12, 8, 0] ++ [0x45, 0, 0, len, 0, 0, 0, 0, 64, 1, 0x7a, 0xfe - len, 0, 0, 0, 0, 0, 0, 0, 0] ++
    [8, 0, 0, 0, 0, 0, 0, 0]

theorem net_receive_inside_echo : 42 < 2 ^ 31 ∧ ∀ e ∈ (netReceive pingConfig ⟨fun i => (echoFrame 28).getD i 0, noAddress, []⟩ 42).log,
    e.Ok (fun i => (echoFrame 28).getD i 0) 42 := by
  refine ⟨by decide, (net_receive_inside_iff pingConfig noAddress (fun i => (echoFrame 28).getD i 0) 42 (by decide)).2 ⟨by decide, ?_⟩⟩
  rintro ip ⟨-, -, ⟨h, -⟩ | ⟨-, -, rfl, -⟩ | ⟨h, -⟩⟩
  · exact absurd h (by decide)
  · exact fun _ => ⟨fun _ _ _ => by decide, fun h => absurd h (by decide)⟩
  · exact absurd h (by decide)

/-- With an `ip_len` of 0, the checksum of the answer is taken over what is behind the frame. -/
theorem net_receive_inside_false : ¬∀ e ∈ (netReceive pingConfig ⟨fun i => (echoFrame 0).getD i 0, noAddress, []⟩ 42).log,
    e.Ok (fun i => (echoFrame 0).getD i 0) 42 := by
  intro h
  have hok := (good_netReceive pingConfig noAddress (show 42 < 2 ^ 31 by decide)).1 h
  have hether : EtherPacket pingConfig noAddress (fun i => (echoFrame 0).getD i 0) 42 PROT_IP 14 :=
    ⟨by decide, by decide, Or.inr (Or.inl ⟨by decide, by decide, rfl, by decide, by decide⟩)⟩
  have hip : IpPacket pingConfig noAddress (fun i => (echoFrame 0).getD i 0) 14 (42 - 14) :=
    ⟨by decide, by decide, by decide, by decide, by decide, by decide, by decide⟩
  have hlen : IP_HDR_SIZE ≤ 0 := (hok.2 14 hether hip).1 (by decide) rfl (by decide)
  exact absurd hlen (by decide)

end UBoot
