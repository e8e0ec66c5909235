import UBoot.Buffer
import UBoot.Lib.Loop
import UBoot.Word

/-!
# BOOTP and DHCP replies

The three scanners of net/bootp.c over the options of a reply, and its test of a packet. A pointer into the packet is the bytes from there
on, and a result of `none` is a read outside the packet. Beside the variables a scanner gives the options it has processed, each with
its code and the bytes that are its data. `ulong` and `IPaddr_t` have 4 bytes and are kept as these, in the order of the network.
Extensions of a board (`CONFIG_BOOTP_VENDOREX`) and the messages are left out.
-/

namespace UBoot

open Lib Option

variable {cfg : BootpConfig}

/-- The options that `CONFIG_BOOTP_TIMEOFFSET`, `CONFIG_BOOTP_NTPSERVER` and `CONFIG_BOOTP_DNS2` add. -/
structure BootpConfig where
  timeOffset : Bool
  ntpServer : Bool
  dns2 : Bool

def BOOTP_VENDOR_MAGIC : List UInt8 := [0x63, 0x82, 0x53, 0x63]

/-- The size of `struct Bootp_t`, and of its `bp_vend` with DHCP. -/
def BOOTP_HDR_SIZE : Nat := 548
def OPT_FIELD_SIZE : Nat := 312

/-- Where `bp_file` and `bp_vend` are in a `struct Bootp_t`, and the size of `bp_file`. -/
def bpFileAt : Nat := 108
def bpVendAt : Nat := 236
def bpFileSize : Nat := 128

/-- The sizes of `NetOurHostName`, `NetOurRootPath` and `NetOurNISDomain`. -/
def hostNameSize : Nat := 32
def rootPathSize : Nat := 64
def nisDomainSize : Nat := 32

/-- What the scanners set: variables of net/net.c, and `bp_file` of the packet. -/
structure BootpVars where
  subnetMask : List UInt8
  gatewayIP : List UInt8
  dnsIP : List UInt8
  dns2IP : List UInt8
  ntpServerIP : List UInt8
  dhcpServerIP : List UInt8
  leasetime : List UInt8
  timeOffset : Nat
  bootFileSize : Nat
  hostName : List UInt8
  rootPath : List UInt8
  nisDomain : List UInt8
  bpFile : List UInt8
  deriving DecidableEq

/-! ## The test of a packet -/

/-- `BootpCheckPkt`. A packet as long as the fixed part of `struct Bootp_t` has all the bytes that are looked at. -/
def bootpCheckPkt (bootpID : List UInt8) (pkt : List UInt8) (dest src : Nat) : Int :=
  if dest ≠ 68 ∨ src ≠ 67 then -1
  else if pkt.length < BOOTP_HDR_SIZE - OPT_FIELD_SIZE then -2
  else if pkt[0]? ∉ ([some 1, some 2, some 2, some 5, some 6] : List (Option UInt8)) then -3
  else if pkt[1]? ≠ some 1 then -4
  else if pkt[2]? ≠ some 6 then -5
  else if (pkt.drop 4).take 4 ≠ bootpID then -6
  else 0

/-! ## Reading options -/

/-- `ntohs` and `ntohl` of bytes of the packet. -/
def ntohBytes (bytes : List UInt8) : Nat := leNat bytes.reverse

/-- `truncate_sz`, without its message. -/
def truncateSz (maxlen curlen : Nat) : Nat := if maxlen ≤ curlen then maxlen - 1 else curlen

/-- A name that is copied to an array of `maxlen` bytes, and ended there. -/
def copyName (name : List UInt8) (maxlen curlen : Nat) (src : List UInt8) : Option (List UInt8) :=
  (takeBytes (truncateSz maxlen curlen) src).map fun bytes => bytes ++ 0 :: name.drop (bytes.length + 1)

/-- The `switch` of `DhcpOptionsProcess` for an option, with the bytes behind its length. -/
def dhcpOption (cfg : BootpConfig) (vars : BootpVars) (code oplen : UInt8) (data : List UInt8) : Option BootpVars :=
  match code with
  | 1 => (takeBytes 4 data).map fun ip => { vars with subnetMask := ip }
  | 2 => if cfg.timeOffset then (takeBytes 4 data).map fun t => { vars with timeOffset := ntohBytes t } else some vars
  | 3 => (takeBytes 4 data).map fun ip => { vars with gatewayIP := ip }
  | 6 =>
    (takeBytes 4 data).bind fun ip =>
      if cfg.dns2 ∧ 4 < oplen then (takeBytes 4 (data.drop 4)).map fun ip2 => { vars with dnsIP := ip, dns2IP := ip2 }
      else some { vars with dnsIP := ip }
  | 12 => (copyName vars.hostName hostNameSize oplen.toNat data).map fun name => { vars with hostName := name }
  | 17 => (copyName vars.rootPath rootPathSize oplen.toNat data).map fun name => { vars with rootPath := name }
  | 42 => if cfg.ntpServer then (takeBytes 4 data).map fun ip => { vars with ntpServerIP := ip } else some vars
  | 51 => (takeBytes 4 data).map fun t => { vars with leasetime := t }
  | 54 => (takeBytes 4 data).map fun ip => { vars with dhcpServerIP := ip }
  | 67 =>
    if vars.bpFile[0]? = some 0 ∧ 0 < truncateSz bpFileSize oplen.toNat then
      (copyName vars.bpFile bpFileSize oplen.toNat data).map fun name => { vars with bpFile := name }
    else some vars
  | _ => some vars

/-- The first address of a list, for a variable that is not set. -/
def copyUnsetIP (ip data : List UInt8) : Option (List UInt8) :=
  if ip = [0, 0, 0, 0] then takeBytes 4 data else some ip

/-- A name for an array that has none. -/
def copyUnsetName (name : List UInt8) (maxlen curlen : Nat) (data : List UInt8) : Option (List UInt8) :=
  if name[0]? = some 0 then copyName name maxlen curlen data else some name

/-- `BootpVendorFieldProcess` for a field, with the bytes behind its size. -/
def bootpVendorFieldProcess (cfg : BootpConfig) (vars : BootpVars) (code size : UInt8) (data : List UInt8) : Option BootpVars :=
  let vars := { vars with bootFileSize := 0 }
  match code with
  | 1 => (copyUnsetIP vars.subnetMask data).map fun ip => { vars with subnetMask := ip }
  | 3 => (copyUnsetIP vars.gatewayIP data).map fun ip => { vars with gatewayIP := ip }
  | 6 =>
    (copyUnsetIP vars.dnsIP data).bind fun ip =>
      if cfg.dns2 ∧ 4 < size then (copyUnsetIP vars.dns2IP (data.drop 4)).map fun ip2 => { vars with dnsIP := ip, dns2IP := ip2 }
      else some { vars with dnsIP := ip }
  | 12 => (copyUnsetName vars.hostName hostNameSize size.toNat data).map fun name => { vars with hostName := name }
  | 13 =>
    if size = 2 then (takeBytes 2 data).map fun n => { vars with bootFileSize := ntohBytes n }
    else if size = 4 then (takeBytes 4 data).map fun n => { vars with bootFileSize := ntohBytes n }
    else some vars
  | 17 => (copyUnsetName vars.rootPath rootPathSize size.toNat data).map fun name => { vars with rootPath := name }
  | 40 => (copyUnsetName vars.nisDomain nisDomainSize size.toNat data).map fun name => { vars with nisDomain := name }
  | 42 => if cfg.ntpServer then (takeBytes 4 data).map fun ip => { vars with ntpServerIP := ip } else some vars
  | _ => some vars

/-! ## The scanners -/

/-- The message type of a DHCP packet. -/
def optMessageType : UInt8 := 53

/-- The end of the options. -/
def optEnd : UInt8 := 0xff

/-- One round of the loop of `DhcpMessageType`. -/
def messageTypeRound (popt : List UInt8) : Option (Int ⊕ List UInt8) :=
  (popt[0]?).bind fun code =>
    if code = optEnd then some (.inl (-1))
    else if code = optMessageType then (popt[2]?).map fun type => .inl type.toNat
    else (popt[1]?).map fun oplen => .inr (popt.drop (oplen.toNat + 2))

/-- Where a scanner is: the bytes from `popt` on, how far it is to `end`, and what it has set and processed. -/
structure OptionScan where
  popt : List UInt8
  left : Nat
  vars : BootpVars
  seen : List (UInt8 × List UInt8)

/-- What a scanner returns. -/
abbrev Scanned : Type := BootpVars × List (UInt8 × List UInt8)

/-- A scanner behind an option. -/
def OptionScan.behind (s : OptionScan) (code oplen : UInt8) (vars : BootpVars) : OptionScan :=
  ⟨s.popt.drop (oplen.toNat + 2), s.left - (oplen.toNat + 2), vars, s.seen ++ [(code, (s.popt.drop 2).take oplen.toNat)]⟩

/-- One round of the loop of `DhcpOptionsProcess`. -/
def dhcpOptionsRound (cfg : BootpConfig) (s : OptionScan) : Option (Scanned ⊕ OptionScan) :=
  if s.left = 0 then some (.inl (s.vars, s.seen))
  else
    (s.popt[0]?).bind fun code =>
      if code = optEnd then some (.inl (s.vars, s.seen))
      else
        (s.popt[1]?).bind fun oplen =>
          (dhcpOption cfg s.vars code oplen (s.popt.drop 2)).map fun vars => .inr (s.behind code oplen vars)

/-- One round of the loop of `BootpVendorProcess`. -/
def bootpVendorRound (cfg : BootpConfig) (s : OptionScan) : Option (Scanned ⊕ OptionScan) :=
  if s.left = 0 then some (.inl (s.vars, s.seen))
  else
    (s.popt[0]?).bind fun code =>
      if code = optEnd then some (.inl (s.vars, s.seen))
      else if code = 0 then some (.inr { s with popt := s.popt.drop 1, left := s.left - 1 })
      else
        (s.popt[1]?).bind fun size =>
          if size.toNat + 2 ≤ s.left then
            (bootpVendorFieldProcess cfg s.vars code size (s.popt.drop 2)).map fun vars => .inr (s.behind code size vars)
          else some (.inr { s with popt := s.popt.drop (size.toNat + 2), left := 0 })

theorem messageTypeRound_progress {popt popt' : List UInt8} (h : messageTypeRound popt = some (.inr popt')) : popt'.length < popt.length := by
  obtain ⟨code, hcode, h⟩ := bind_eq_some_iff.1 h
  obtain ⟨hlt, -⟩ := List.getElem?_eq_some_iff.1 hcode
  split at h
  · cases h
  · split at h
    · obtain ⟨type, -, h⟩ := map_eq_some_iff.1 h
      cases h
    · obtain ⟨oplen, -, h⟩ := map_eq_some_iff.1 h
      obtain rfl := Sum.inr.inj h
      rw [List.length_drop]
      omega

theorem dhcpOptionsRound_progress {s s' : OptionScan} (h : dhcpOptionsRound cfg s = some (.inr s')) : s'.left < s.left := by
  unfold dhcpOptionsRound at h
  split at h
  · cases h
  next hleft =>
    obtain ⟨code, -, h⟩ := bind_eq_some_iff.1 h
    split at h
    · cases h
    · obtain ⟨oplen, -, h⟩ := bind_eq_some_iff.1 h
      obtain ⟨vars, -, h⟩ := map_eq_some_iff.1 h
      obtain rfl := Sum.inr.inj h
      show s.left - (oplen.toNat + 2) < s.left
      omega

theorem bootpVendorRound_progress {s s' : OptionScan} (h : bootpVendorRound cfg s = some (.inr s')) : s'.left < s.left := by
  unfold bootpVendorRound at h
  split at h
  · cases h
  next hleft =>
    obtain ⟨code, -, h⟩ := bind_eq_some_iff.1 h
    split at h
    · cases h
    · split at h
      · cases h
        dsimp only
        omega
      · obtain ⟨size, -, h⟩ := bind_eq_some_iff.1 h
        split at h
        · obtain ⟨vars, -, h⟩ := map_eq_some_iff.1 h
          obtain rfl := Sum.inr.inj h
          show s.left - (size.toNat + 2) < s.left
          omega
        · cases h
          dsimp only
          omega

/-- The loop of `DhcpMessageType`. -/
def messageTypeLoop : Loop (List UInt8) Int := ⟨messageTypeRound, List.length, messageTypeRound_progress⟩

/-- The loop of `DhcpOptionsProcess`. -/
def dhcpOptionsLoop (cfg : BootpConfig) : Loop OptionScan Scanned :=
  ⟨dhcpOptionsRound cfg, OptionScan.left, dhcpOptionsRound_progress⟩

/-- The loop of `BootpVendorProcess`. -/
def bootpVendorLoop (cfg : BootpConfig) : Loop OptionScan Scanned :=
  ⟨bootpVendorRound cfg, OptionScan.left, bootpVendorRound_progress⟩

def dhcpMessageType (popt : List UInt8) : Option Int :=
  (takeBytes 4 popt).bind fun cookie => if cookie ≠ BOOTP_VENDOR_MAGIC then some (-1) else messageTypeLoop.run (popt.drop 4)

def dhcpOptionsProcess (cfg : BootpConfig) (vars : BootpVars) (popt : List UInt8) : Option Scanned :=
  (dhcpOptionsLoop cfg).run ⟨popt, BOOTP_HDR_SIZE, vars, []⟩

def bootpVendorProcess (cfg : BootpConfig) (vars : BootpVars) (ext : List UInt8) (size : Nat) : Option Scanned :=
  (bootpVendorLoop cfg).run ⟨ext, size, vars, []⟩

/-- `DhcpOptionsProcess` as `DhcpHandler` calls it, which tests the cookie before. -/
def dhcpOptions (cfg : BootpConfig) (vars : BootpVars) (pkt : List UInt8) : Option Scanned :=
  let vars := { vars with bpFile := (pkt.drop bpFileAt).take bpFileSize }
  (takeBytes 4 (pkt.drop bpVendAt)).bind fun cookie =>
    if cookie ≠ BOOTP_VENDOR_MAGIC then some (vars, []) else dhcpOptionsProcess cfg vars (pkt.drop (bpVendAt + 4))

/-- `BootpVendorProcess` as `BootpHandler` calls it: its size is that of the whole packet. -/
def bootpVendorFields (cfg : BootpConfig) (vars : BootpVars) (pkt : List UInt8) : Option Scanned :=
  (takeBytes 4 (pkt.drop bpVendAt)).bind fun cookie =>
    if cookie ≠ BOOTP_VENDOR_MAGIC then some (vars, []) else bootpVendorProcess cfg vars (pkt.drop (bpVendAt + 4)) pkt.length

end UBoot
