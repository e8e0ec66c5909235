import UBoot.CString
import UBoot.Lib.Memory
import UBoot.Lib.Blocks
import UBoot.Lib.Exec
import Mathlib.Algebra.Group.Int.Defs

/-!
# The TFTP client

net/tftp.c with `CONFIG_CMD_TFTPPUT`, and without the multicast, server, file-size and direct-to-flash options. The global variables are
the fields of `Tftp`, with `NetBootFileXferSize`, the memory and the state of `NetLoop` beside them. `ulong`, `unsigned` and
pointers have 32 bits; a product of `int`s is taken to wrap like one of `unsigned`s. A handler that reads beyond its packet
has the result `none`.
-/

namespace UBoot

section

open Lib

inductive TftpState where
  | sendRRQ | data | tooLarge | badMagic | oack | recvWRQ | sendWRQ
  deriving DecidableEq, Repr

/-- Where `NetLoop` stands: going on, over with success or failure, or about to start again. -/
inductive NetState where
  | running | success | fail | restart
  deriving DecidableEq, Repr

/-- What the client is given from outside: where to load to, what to save, the numbers of retries, and `isTftpAutoBoot`. -/
structure TftpConfig where
  loadAddr : UInt32
  saveAddr : UInt32
  saveSize : UInt32
  timeoutCount : Nat
  rrqTimeoutCountMax : Nat
  autoBoot : Bool

/-- The state of the client. -/
structure Tftp where
  state : TftpState
  net : NetState
  ourPort : Nat
  remotePort : Nat
  remoteIP : Nat
  block : Nat
  lastBlock : Nat
  blockWrap : Nat
  blockWrapOffset : Nat
  blkSize : Nat
  writing : Bool
  finalBlock : Bool
  timeoutCount : Nat
  timeoutCountMax : Nat
  xferSize : Nat
  mem : Nat → UInt8

/-- A packet the client sends. The texts of a request are left out. -/
inductive TftpOut where
  | rrq
  | wrq
  | ack (block : Nat)
  | data (block : Nat) (bytes : List UInt8)
  | error (code : Nat)
  deriving DecidableEq

def TFTP_SEQUENCE_SIZE : Nat := 2 ^ 16

def TFTP_BLOCK_SIZE : Nat := 512

/-- An `int` or a sum converted to 32 bits. -/
def toULong (x : Int) : Nat := (x % 2 ^ 32).toNat

/-! ## Blocks -/

def Tftp.storeBlock (cfg : TftpConfig) (t : Tftp) (block : Int) (src : List UInt8) : Tftp :=
  let offset := toULong (block * t.blkSize + t.blockWrapOffset)
  let newsize := (offset + src.length) % 2 ^ 32
  { t with
    mem := store t.mem ((cfg.loadAddr.toNat + offset) % 2 ^ 32) src
    xferSize := if t.xferSize < newsize then newsize else t.xferSize }

def Tftp.newTransfer (t : Tftp) : Tftp :=
  { t with lastBlock := 0, blockWrap := 0, blockWrapOffset := 0, finalBlock := false }

/-- `load_block`: the bytes of a block to send. -/
def Tftp.loadBlock (cfg : TftpConfig) (t : Tftp) (block len : Nat) : List UInt8 :=
  let offset := toULong (((block : Int) - 1) * len + t.blockWrapOffset)
  let tosend := min (toULong ((t.xferSize : Int) - offset)) len
  (List.range tosend).map fun i => t.mem ((cfg.saveAddr.toNat + (offset + i)) % 2 ^ 32)

/-- `update_block_number`, without the progress marks. -/
def Tftp.updateBlockNumber (t : Tftp) : Tftp :=
  if t.block = 0 then
    { t with
      blockWrap := (t.blockWrap + 1) % 2 ^ 32
      blockWrapOffset := (t.blockWrapOffset + t.blkSize * TFTP_SEQUENCE_SIZE) % 2 ^ 32
      timeoutCount := 0 }
  else t

/-- `TftpBlock` set to the number in a packet, and `update_block_number` called. -/
def Tftp.setBlock (t : Tftp) (n : Nat) : Tftp := Tftp.updateBlockNumber { t with block := n }

def Tftp.complete (t : Tftp) : Tftp := { t with net := .success }

def Tftp.startAgain (t : Tftp) : Tftp := { t with net := .restart }

def Tftp.send (cfg : TftpConfig) (t : Tftp) : Tftp × TftpOut :=
  match t.state with
  | .sendRRQ => (t, .rrq)
  | .sendWRQ => (t, .wrq)
  | .oack | .recvWRQ | .data =>
    if t.writing then
      let bytes := t.loadBlock cfg t.block t.blkSize
      ({ t with finalBlock := decide (bytes.length < t.blkSize) }, .data (t.block % 2 ^ 16) bytes)
    else (t, .ack (t.block % 2 ^ 16))
  | .tooLarge => (t, .error 3)
  | .badMagic => (t, .error 2)

/-! ## The options of an OACK -/

/-- `"blksize"` with its NUL. -/
def blksizeText : List UInt8 := [0x62, 0x6c, 0x6b, 0x73, 0x69, 0x7a, 0x65, 0]

/-- The loop over an OACK that looks for the `blksize` option, from some byte on. -/
def oackBlkSize : List UInt8 → Nat → Nat
  | [], blkSize => blkSize
  | c :: pkt, blkSize =>
    if 8 < (c :: pkt).length then
      oackBlkSize pkt (if (c :: pkt).take 8 = blksizeText then simpleStrtoul 10 ((c :: pkt).drop 8) % 2 ^ 16 else blkSize)
    else blkSize

/-! ## TftpStart, TftpHandler and TftpTimeout -/

/-- `TftpStart` as `NetLoop` calls it, with the size cleared, for a put or a get. -/
def Tftp.start (cfg : TftpConfig) (t : Tftp) (put : Bool) (remoteIP remotePort ourPort : Nat) : Tftp × TftpOut :=
  let t := { t with net := .running, xferSize := 0, remoteIP := remoteIP, writing := put }
  let t :=
    if t.writing then Tftp.newTransfer { t with xferSize := cfg.saveSize.toNat, state := .sendWRQ }
    else { t with state := .sendRRQ }
  Tftp.send cfg
    { t with
      timeoutCountMax := cfg.rrqTimeoutCountMax, timeoutCount := 0, remotePort := remotePort, ourPort := ourPort
      block := 0, blkSize := TFTP_BLOCK_SIZE }

/-- Two bytes as a number, the first one high. -/
def ntohs (hi lo : UInt8) : Nat := hi.toNat * 256 + lo.toNat

/-- `TFTP_ACK`: move to the next block, or end after the final one. -/
def Tftp.handleAck (cfg : TftpConfig) (t : Tftp) (pkt : List UInt8) : Option (Tftp × List TftpOut) :=
  if t.writing then
    if t.finalBlock then some (t.complete, [])
    else
      match pkt with
      | hi :: lo :: _ =>
        let ackOk := t.block = ntohs hi lo
        let t := t.setBlock ((ntohs hi lo + 1) % 2 ^ 16)
        if ackOk then some ((t.send cfg).1, [(t.send cfg).2]) else some (t, [])
      | _ => none
  else some (t, [])

def Tftp.handleOack (cfg : TftpConfig) (t : Tftp) (pkt : List UInt8) (src : Nat) : Tftp × List TftpOut :=
  let t := { t with state := .oack, remotePort := src, blkSize := oackBlkSize pkt t.blkSize }
  let t := if t.writing then { t with state := .data, block := (t.block + 1) % 2 ^ 32 } else t
  ((t.send cfg).1, [(t.send cfg).2])

/-- `TFTP_DATA` from the test for the same block on. -/
def Tftp.storeData (cfg : TftpConfig) (t : Tftp) (bytes : List UInt8) : Tftp × List TftpOut :=
  if t.block = t.lastBlock then (t, [])
  else
    let t := { t with lastBlock := t.block, timeoutCountMax := cfg.timeoutCount }
    let t := t.storeBlock cfg ((t.block : Int) - 1) bytes
    let r := t.send cfg
    (if bytes.length < r.1.blkSize then r.1.complete else r.1, [r.2])

/-- `TFTP_DATA`, where the first block is received. -/
def Tftp.firstData (t : Tftp) (sip src : Nat) : Tftp :=
  Tftp.newTransfer { t with state := .data, remotePort := src, remoteIP := if t.remoteIP = 0 then sip else t.remoteIP }

/-- `TFTP_DATA`: note the number, then store the block unless it is the last one again. -/
def Tftp.handleData (cfg : TftpConfig) (t : Tftp) (pkt : List UInt8) (sip src : Nat) : Tftp × List TftpOut :=
  match pkt with
  | hi :: lo :: bytes =>
    let t := t.setBlock (ntohs hi lo)
    if t.state = .sendRRQ ∨ t.state = .oack ∨ t.state = .recvWRQ then
      let t := t.firstData sip src
      if t.block ≠ 1 then (t.startAgain, []) else t.storeData cfg bytes
    else t.storeData cfg bytes
  | _ => (t, [])

def Tftp.handleError (t : Tftp) (pkt : List UInt8) : Option (Tftp × List TftpOut) :=
  match pkt with
  | hi :: lo :: _ => some (if ntohs hi lo = 1 ∨ ntohs hi lo = 2 then { t with net := .fail } else t.startAgain, [])
  | _ => none

/-- `TftpHandler`: the state after a packet and the packets sent. -/
def Tftp.handler (cfg : TftpConfig) (t : Tftp) (pkt : List UInt8) (dest sip src : Nat) : Option (Tftp × List TftpOut) :=
  if dest ≠ t.ourPort then some (t, [])
  else if t.state ≠ .sendRRQ ∧ src ≠ t.remotePort ∧ t.state ≠ .recvWRQ ∧ t.state ≠ .sendWRQ then some (t, [])
  else
    match pkt with
    | hi :: lo :: pkt =>
      if ntohs hi lo = 4 then t.handleAck cfg pkt
      else if ntohs hi lo = 6 then some (t.handleOack cfg pkt src)
      else if ntohs hi lo = 3 then some (t.handleData cfg pkt sip src)
      else if ntohs hi lo = 5 then t.handleError pkt
      else some (t, [])
    | _ => some (t, [])

def Tftp.timeout (cfg : TftpConfig) (t : Tftp) : Tftp × List TftpOut :=
  let t := { t with timeoutCount := t.timeoutCount + 1 }
  if t.timeoutCount > t.timeoutCountMax then
    (if cfg.autoBoot then { t with net := .fail } else t.startAgain, [])
  else if t.state ≠ .recvWRQ then ((t.send cfg).1, [(t.send cfg).2])
  else (t, [])

end

/-!
## The TFTP client and a server

The two systems the client is part of. In a download the server sends one block until it is acknowledged, and the channel loses
packets and repeats them, but does not keep one until the next block was sent. In an upload the server acknowledges what it was
sent, and the channel loses packets and delivers any of them again at any later time. A lost packet is one that no step delivers.
-/

section

open Lib

/-! ## Packets -/

/-- A number as two bytes, the first one high. -/
def htons (n : Nat) : List UInt8 := [UInt8.ofNat (n / 256), UInt8.ofNat n]

/-- `TFTP_DATA` with a block number modulo 65536. -/
def dataPacket (n : Nat) (bytes : List UInt8) : List UInt8 := 0 :: 3 :: (htons n ++ bytes)

/-- `TFTP_ACK` with a block number modulo 65536. -/
def ackPacket (n : Nat) : List UInt8 := 0 :: 4 :: htons n

/-- `TFTP_OACK` with its options. -/
def oackPacket (options : List UInt8) : List UInt8 := 0 :: 6 :: options

/-! ## A download -/

/-- A server with a file. It may answer the request with an OACK, and the block size it uses is then the one the client reads
there; without an OACK it is the default one. -/
structure TftpServer where
  file : List UInt8
  oack : Option (List UInt8)
  blkSize : Nat
  ip : Nat
  port : Nat
  agreed : blkSize = oack.elim TFTP_BLOCK_SIZE fun options => oackBlkSize options TFTP_BLOCK_SIZE
  pos : 0 < blkSize

/-- The number of the last block of the file. -/
def TftpServer.lastBlock (srv : TftpServer) : Nat := blockCount srv.blkSize srv.file

/-- What the server sends while it stands at a block. Block 0 is the OACK. -/
def TftpServer.packet (srv : TftpServer) (block : Nat) : List UInt8 :=
  match srv.oack, block with
  | some options, 0 => oackPacket options
  | _, block => dataPacket block (blockOf srv.blkSize srv.file block)

/-- The client, the block the server stands at, and the numbers of the ACKs the client has sent since the server is there. -/
structure Download where
  client : Tftp
  block : Nat
  acks : List Nat

/-- What can happen next: the server's packet reaches the client, the client's timer runs out, or an ACK of the current block
reaches the server. -/
inductive DownloadStep where
  | deliver | timeout | advance
  deriving DecidableEq

/-- The numbers of the ACKs among some packets. -/
def ackNumbers (out : List TftpOut) : List Nat := out.filterMap fun
  | .ack n => some n
  | _ => none

/-- The system after `TftpStart`, whatever an earlier transfer left in the client. -/
def Download.start (cfg : TftpConfig) (srv : TftpServer) (t : Tftp) (remoteIP remotePort ourPort : Nat) : Download where
  client := (t.start cfg false remoteIP remotePort ourPort).1
  block := if srv.oack.isSome then 0 else 1
  acks := []

def Download.step (cfg : TftpConfig) (srv : TftpServer) (s : Download) : DownloadStep → Option Download
  | .deliver =>
    if s.client.net = .running then
      (s.client.handler cfg (srv.packet s.block) s.client.ourPort srv.ip srv.port).map fun r =>
        { s with client := r.1, acks := s.acks ++ ackNumbers r.2 }
    else none
  | .timeout =>
    if s.client.net = .running then
      let r := s.client.timeout cfg
      some { s with client := r.1, acks := s.acks ++ ackNumbers r.2 }
    else none
  | .advance =>
    if s.block % TFTP_SEQUENCE_SIZE ∈ s.acks ∧ s.block < srv.lastBlock then some { s with block := s.block + 1, acks := [] }
    else none

/-! ## An upload -/

/-- The client, the block of the transfer it stands at, the packets it has sent, each with the block it stood at, and the blocks
the server has acknowledged. -/
structure Upload where
  client : Tftp
  block : Nat
  sent : List (Nat × TftpOut)
  acked : List Nat

/-- What can happen next: the server acknowledges a block it has got, one of its ACKs reaches the client, or the client's timer
runs out. -/
inductive UploadStep where
  | acknowledge (k : Nat) | deliver (k : Nat) | timeout
  deriving DecidableEq

/-- The bytes to be saved. -/
def saveRegion (cfg : TftpConfig) (mem : Nat → UInt8) : List UInt8 :=
  (List.range cfg.saveSize.toNat).map fun i => mem ((cfg.saveAddr.toNat + i) % 2 ^ 32)

/-- The system after `TftpStart` and the server's OACK, which makes the client send the first block. -/
def Upload.start (cfg : TftpConfig) (t : Tftp) (remoteIP remotePort ourPort : Nat) (options : List UInt8) (port : Nat) :
    Upload :=
  let r := (t.start cfg true remoteIP remotePort ourPort).1.handleOack cfg options port
  { client := r.1, block := 1, sent := r.2.map (1, ·), acked := [] }

def Upload.step (cfg : TftpConfig) (s : Upload) : UploadStep → Option Upload
  | .acknowledge k => if k ∈ s.sent.map Prod.fst then some { s with acked := k :: s.acked } else none
  | .deliver k =>
    if s.client.net = .running ∧ k ∈ s.acked then
      -- the ACK of a block makes the client stand at the next one, unless it has sent the final one
      let block := if s.client.finalBlock then s.block else k + 1
      (s.client.handler cfg (ackPacket k) s.client.ourPort s.client.remoteIP s.client.remotePort).map fun r =>
        { s with client := r.1, block := block, sent := r.2.map (block, ·) ++ s.sent }
    else none
  | .timeout =>
    if s.client.net = .running then
      let r := s.client.timeout cfg
      some { s with client := r.1, sent := r.2.map (s.block, ·) ++ s.sent }
    else none

end

end UBoot
