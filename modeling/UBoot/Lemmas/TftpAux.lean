import UBoot.Tftp
import Mathlib.Data.Int.ModEq
import Mathlib.Tactic.Ring

/-!
# Lemmas about the TFTP client

Block numbers modulo 65536 and the offset they stand for, and what the handler does with each kind of packet.
-/

namespace UBoot

open Lib

namespace TftpAux

/-! ## Numbers -/

variable {k : Nat}

@[simp] theorem ntohs_htons (n : Nat) : ntohs (UInt8.ofNat (n / 256)) (UInt8.ofNat n) = n % 2 ^ 16 := by
  simp only [ntohs, UInt8.toNat_ofNat']
  omega

theorem toULong_of_modEq {x : Int} {n : Nat} (h : x ≡ (n : Int) [ZMOD 2 ^ 32]) : toULong x = n % 2 ^ 32 := by
  unfold toULong
  rw [h]
  norm_cast

/-- The bytes before the wraps of the block number, and those since, are the bytes before block `k`. -/
theorem toULong_offset (B : Nat) (h1 : 1 ≤ k) :
    toULong ((((k % 2 ^ 16 : Nat) : Int) - 1) * B + ((k / 2 ^ 16 * 2 ^ 16 * B % 2 ^ 32 : Nat) : Int)) = (k - 1) * B % 2 ^ 32 := by
  refine toULong_of_modEq ?_
  have hmod : ((k / 2 ^ 16 * 2 ^ 16 * B % 2 ^ 32 : Nat) : Int) ≡ ((k / 2 ^ 16 * 2 ^ 16 * B : Nat) : Int) [ZMOD 2 ^ 32] := by
    push_cast
    exact Int.mod_modEq _ _
  refine (hmod.add_left _).trans ?_
  have hk : (k : Int) = (k % 2 ^ 16 : Nat) + (k / 2 ^ 16 * 2 ^ 16 : Nat) := by
    have := Nat.mod_add_div' k (2 ^ 16)
    exact_mod_cast this.symm
  have he : (((k % 2 ^ 16 : Nat) : Int) - 1) * B + ((k / 2 ^ 16 * 2 ^ 16 * B : Nat) : Int) = (((k - 1) * B : Nat) : Int) := by
    rw [Nat.cast_mul (k - 1), Nat.cast_sub h1, hk, Nat.cast_mul (k / 2 ^ 16 * 2 ^ 16), Nat.cast_one]
    ring
  rw [he]

theorem wrapOffset_succ {B : Nat} (h : (k + 1) % 2 ^ 16 = 0) :
    (k / 2 ^ 16 * 2 ^ 16 * B % 2 ^ 32 + B * 2 ^ 16) % 2 ^ 32 = (k + 1) / 2 ^ 16 * 2 ^ 16 * B % 2 ^ 32 := by
  have hk : (k + 1) / 2 ^ 16 = k / 2 ^ 16 + 1 := by omega
  rw [Nat.mod_add_mod, hk]
  congr 1
  ring

theorem div_succ_of_mod_ne (h : (k + 1) % 2 ^ 16 ≠ 0) : (k + 1) / 2 ^ 16 = k / 2 ^ 16 := by
  omega

/-! ## Options -/

theorem exists_oackBlkSize (options : List UInt8) : ∃ o : Option Nat, ∀ x, oackBlkSize options x = o.getD x := by
  induction options with
  | nil => exact ⟨none, fun x => rfl⟩
  | cons c pkt ih =>
    obtain ⟨o, ho⟩ := ih
    by_cases hl : 8 < (c :: pkt).length
    · by_cases hb : (c :: pkt).take 8 = blksizeText
      · refine ⟨some (o.getD (simpleStrtoul 10 ((c :: pkt).drop 8) % 2 ^ 16)), ?_⟩
        intro x
        rw [oackBlkSize, if_pos hl, if_pos hb, ho, Option.getD_some]
      · refine ⟨o, ?_⟩
        intro x
        rw [oackBlkSize, if_pos hl, if_neg hb, ho]
    · exact ⟨none, fun x => by rw [oackBlkSize, if_neg hl, Option.getD_none]⟩

theorem oackBlkSize_again (options : List UInt8) (x : Nat) : oackBlkSize options (oackBlkSize options x) = oackBlkSize options x := by
  obtain ⟨o, ho⟩ := exists_oackBlkSize options
  rw [ho, ho]
  cases o <;> rfl

/-! ## Setting the block number -/

section

variable (t : Tftp) (n : Nat)

theorem setBlock_of_pos (h : n ≠ 0) : t.setBlock n = { t with block := n } := by
  rw [Tftp.setBlock, Tftp.updateBlockNumber, if_neg h]

@[simp] theorem setBlock_state : (t.setBlock n).state = t.state := by
  unfold Tftp.setBlock Tftp.updateBlockNumber
  split <;> rfl

@[simp] theorem setBlock_net : (t.setBlock n).net = t.net := by
  unfold Tftp.setBlock Tftp.updateBlockNumber
  split <;> rfl

@[simp] theorem setBlock_remotePort : (t.setBlock n).remotePort = t.remotePort := by
  unfold Tftp.setBlock Tftp.updateBlockNumber
  split <;> rfl

@[simp] theorem setBlock_lastBlock : (t.setBlock n).lastBlock = t.lastBlock := by
  unfold Tftp.setBlock Tftp.updateBlockNumber
  split <;> rfl

@[simp] theorem setBlock_blkSize : (t.setBlock n).blkSize = t.blkSize := by
  unfold Tftp.setBlock Tftp.updateBlockNumber
  split <;> rfl

@[simp] theorem setBlock_writing : (t.setBlock n).writing = t.writing := by
  unfold Tftp.setBlock Tftp.updateBlockNumber
  split <;> rfl

@[simp] theorem setBlock_xferSize : (t.setBlock n).xferSize = t.xferSize := by
  unfold Tftp.setBlock Tftp.updateBlockNumber
  split <;> rfl

@[simp] theorem setBlock_finalBlock : (t.setBlock n).finalBlock = t.finalBlock := by
  unfold Tftp.setBlock Tftp.updateBlockNumber
  split <;> rfl

@[simp] theorem setBlock_block : (t.setBlock n).block = n := by
  unfold Tftp.setBlock Tftp.updateBlockNumber
  split <;> rfl

theorem setBlock_zero_wrapOffset : (t.setBlock 0).blockWrapOffset = (t.blockWrapOffset + t.blkSize * TFTP_SEQUENCE_SIZE) % 2 ^ 32 := rfl

end

/-! ## The handler -/

section

variable {cfg : TftpConfig} {t : Tftp} {sip src : Nat}

theorem handler_of_port (hsrc : t.state = .sendRRQ ∨ src = t.remotePort) (pkt : List UInt8) :
    t.handler cfg (0 :: 6 :: pkt) t.ourPort sip src = some (t.handleOack cfg pkt src) ∧
      t.handler cfg (0 :: 3 :: pkt) t.ourPort sip src = some (t.handleData cfg pkt sip src) ∧
      t.handler cfg (0 :: 4 :: pkt) t.ourPort sip src = t.handleAck cfg pkt := by
  have hport : ¬(t.state ≠ .sendRRQ ∧ src ≠ t.remotePort ∧ t.state ≠ .recvWRQ ∧ t.state ≠ .sendWRQ) := by
    rintro ⟨h1, h2, -⟩
    exact hsrc.elim h1 h2
  unfold Tftp.handler
  rw [if_neg (not_not.2 rfl), if_neg hport, if_neg (not_not.2 rfl), if_neg hport, if_neg (not_not.2 rfl), if_neg hport]
  simp [ntohs]

theorem handler_oackPacket (hsrc : t.state = .sendRRQ ∨ src = t.remotePort) (options : List UInt8) :
    t.handler cfg (oackPacket options) t.ourPort sip src = some (t.handleOack cfg options src) :=
  (handler_of_port hsrc options).1

theorem handler_dataPacket (hsrc : t.state = .sendRRQ ∨ src = t.remotePort) (n : Nat) (bytes : List UInt8) :
    t.handler cfg (dataPacket n bytes) t.ourPort sip src = some (t.handleData cfg (htons n ++ bytes) sip src) :=
  (handler_of_port hsrc (htons n ++ bytes)).2.1

theorem handler_ackPacket (n : Nat) : t.handler cfg (ackPacket n) t.ourPort sip t.remotePort = t.handleAck cfg (htons n) :=
  (handler_of_port (Or.inr rfl) (htons n)).2.2

theorem send_data (hs : t.state = .data) (hw : t.writing = false) : t.send cfg = (t, .ack (t.block % 2 ^ 16)) := by
  simp [Tftp.send, hs, hw]

theorem handleData_of_data (hs : t.state = .data) (n : Nat) (bytes : List UInt8) :
    t.handleData cfg (htons n ++ bytes) sip src = (t.setBlock (n % 2 ^ 16)).storeData cfg bytes := by
  simp [Tftp.handleData, htons, hs]

theorem storeData_same (h : t.block = t.lastBlock) (bytes : List UInt8) : t.storeData cfg bytes = (t, []) := by
  rw [Tftp.storeData, if_pos h]

end

end TftpAux

/-! ## A concrete client -/

/-- A client before its first transfer. -/
def idleClient : Tftp where
  state := .sendRRQ
  net := .running
  ourPort := 0
  remotePort := 0
  remoteIP := 0
  block := 0
  lastBlock := 0
  blockWrap := 0
  blockWrapOffset := 0
  blkSize := TFTP_BLOCK_SIZE
  writing := false
  finalBlock := false
  timeoutCount := 0
  timeoutCountMax := 10
  xferSize := 0
  mem := fun _ => 0

/-- A client that loads to 0x1000, and saves 9 bytes from there. -/
def plainConfig : TftpConfig where
  loadAddr := 0x1000
  saveAddr := 0x1000
  saveSize := 9
  timeoutCount := 10
  rrqTimeoutCountMax := 10
  autoBoot := false

end UBoot
