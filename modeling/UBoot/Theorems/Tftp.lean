import UBoot.Lemmas.TftpAux

/-!
# What a TFTP download stores

A client that has received `c` blocks has the first `c` blocks of the file in memory, and the variables of block `c`.
-/

namespace UBoot

open List Option

section

open Lib TftpAux

/-- The file fits in the address space from `load_addr` on, and its length in a `ulong`. -/
def Fits (cfg : TftpConfig) (srv : TftpServer) : Prop :=
  cfg.loadAddr.toNat + srv.file.length ≤ 2 ^ 32 ∧ srv.file.length < 2 ^ 32

/-- The step is not the delivery of a DATA packet with block number 0 to a client that has block number 0 as its last. -/
def DownloadOk (s : Download) : DownloadStep → Prop
  | .deliver => ¬(s.client.state = .data ∧ s.block % TFTP_SEQUENCE_SIZE = 0 ∧ s.client.lastBlock = 0)
  | .timeout | .advance => True

namespace DownloadAux

variable {cfg : TftpConfig} {srv : TftpServer} {t : Tftp} {s s' : Download} {c k : Nat}

/-! ## The client -/

/-- The client has sent its request, and perhaps seen the OACK. -/
structure Waiting (srv : TftpServer) (t : Tftp) : Prop where
  writing : t.writing = false
  block : t.block = 0
  xferSize : t.xferSize = 0
  state : t.state = .sendRRQ ∧ t.blkSize = TFTP_BLOCK_SIZE ∨ t.state = .oack ∧ t.remotePort = srv.port ∧ t.blkSize = srv.blkSize

/-- The client has received the first `c` blocks. -/
structure Receiving (cfg : TftpConfig) (srv : TftpServer) (t : Tftp) (c : Nat) : Prop where
  state : t.state = .data
  writing : t.writing = false
  remotePort : t.remotePort = srv.port
  block : t.block = c % 2 ^ 16
  lastBlock : t.lastBlock = c % 2 ^ 16
  wrapOffset : t.blockWrapOffset = c / 2 ^ 16 * 2 ^ 16 * srv.blkSize % 2 ^ 32
  blkSize : t.blkSize = srv.blkSize
  xferSize : t.xferSize = min (c * srv.blkSize) srv.file.length
  stored : Stored t.mem cfg.loadAddr.toNat (srv.file.take (c * srv.blkSize))

/-- The client has noted the number of block `k`, which is new, and has received the blocks before it. -/
structure Ready (cfg : TftpConfig) (srv : TftpServer) (t : Tftp) (k : Nat) : Prop where
  state : t.state = .data
  writing : t.writing = false
  remotePort : t.remotePort = srv.port
  block : t.block = k % 2 ^ 16
  lastBlock : t.lastBlock ≠ k % 2 ^ 16
  wrapOffset : t.blockWrapOffset = k / 2 ^ 16 * 2 ^ 16 * srv.blkSize % 2 ^ 32
  blkSize : t.blkSize = srv.blkSize
  xferSize : t.xferSize = min ((k - 1) * srv.blkSize) srv.file.length
  stored : Stored t.mem cfg.loadAddr.toNat (srv.file.take ((k - 1) * srv.blkSize))

theorem Receiving.complete (h : Receiving cfg srv t c) : Receiving cfg srv t.complete c :=
  ⟨h.state, h.writing, h.remotePort, h.block, h.lastBlock, h.wrapOffset, h.blkSize, h.xferSize, h.stored⟩

theorem Ready.stored_storeBlock (h : Ready cfg srv t k) (hfit : Fits cfg srv) (h1 : 1 ≤ k) (hk : k ≤ srv.lastBlock) :
    Stored (store t.mem ((cfg.loadAddr.toNat + (k - 1) * srv.blkSize) % 2 ^ 32) (blockOf srv.blkSize srv.file k))
      cfg.loadAddr.toNat (srv.file.take (k * srv.blkSize)) := by
  have hle := pred_mul_le_length hk
  have hend := pred_mul_add_length_blockOf h1 hk
  have hlen : (srv.file.take ((k - 1) * srv.blkSize)).length = (k - 1) * srv.blkSize := length_take_of_le hle
  rw [← take_append_blockOf h1, stored_append, hlen]
  by_cases hb : blockOf srv.blkSize srv.file k = []
  · rw [hb, store_nil]
    exact ⟨h.stored, stored_nil _ _⟩
  · have hpos : 0 < (blockOf srv.blkSize srv.file k).length := length_pos_iff.2 hb
    have hmod : (cfg.loadAddr.toNat + (k - 1) * srv.blkSize) % 2 ^ 32 = cfg.loadAddr.toNat + (k - 1) * srv.blkSize := by
      have := hfit.1
      exact Nat.mod_eq_of_lt (by omega)
    rw [hmod]
    refine ⟨h.stored.store_outside (Or.inl ?_), stored_store _ _ _⟩
    rw [hlen]

/-- The block is stored, acknowledged, and ends the transfer if it is the last one. -/
theorem Ready.storeData (h : Ready cfg srv t k) (hfit : Fits cfg srv) (h1 : 1 ≤ k) (hk : k ≤ srv.lastBlock) :
    ∃ t', t.storeData cfg (blockOf srv.blkSize srv.file k) = (t', [.ack (k % 2 ^ 16)]) ∧ Receiving cfg srv t' k ∧
      t'.net = if k = srv.lastBlock then .success else t.net := by
  have hle := pred_mul_le_length hk
  have hend := pred_mul_add_length_blockOf h1 hk
  have hmin : min (k * srv.blkSize) srv.file.length < 2 ^ 32 := lt_of_le_of_lt (min_le_right _ _) hfit.2
  have hoff : toULong (((t.block : Int) - 1) * t.blkSize + t.blockWrapOffset) = (k - 1) * srv.blkSize := by
    rw [h.block, h.blkSize, h.wrapOffset, toULong_offset srv.blkSize h1]
    exact Nat.mod_eq_of_lt (lt_of_le_of_lt hle hfit.2)
  -- the client after `store_block`
  obtain ⟨t₁, ht₁⟩ : ∃ t₁, t₁ = Tftp.storeBlock cfg { t with lastBlock := t.block, timeoutCountMax := cfg.timeoutCount }
      ((t.block : Int) - 1) (blockOf srv.blkSize srv.file k) := ⟨_, rfl⟩
  have hr : Receiving cfg srv t₁ k := by
    subst ht₁
    refine ⟨h.state, h.writing, h.remotePort, h.block, h.block, h.wrapOffset, h.blkSize, ?_, ?_⟩
    · simp only [Tftp.storeBlock, hoff, h.xferSize, hend]
      rw [Nat.mod_eq_of_lt hmin]
      have hmono : min ((k - 1) * srv.blkSize) srv.file.length ≤ min (k * srv.blkSize) srv.file.length := by
        rw [← hend, min_eq_left hle]
        exact Nat.le_add_right _ _
      split
      · rfl
      · exact le_antisymm hmono (not_lt.1 ‹_›)
    · simp only [Tftp.storeBlock, hoff]
      exact h.stored_storeBlock hfit h1 hk
  have hnet : t₁.net = t.net := by
    subst ht₁
    rfl
  have hne : t.block ≠ t.lastBlock := by
    rw [h.block]
    exact h.lastBlock.symm
  have hsend : t₁.send cfg = (t₁, .ack (k % 2 ^ 16)) := by
    rw [send_data hr.state hr.writing, hr.block, Nat.mod_mod]
  have hshort := length_blockOf_lt_iff srv.pos h1 hk
  refine ⟨if k = srv.lastBlock then t₁.complete else t₁, ?_, ?_, ?_⟩
  · simp only [Tftp.storeData, if_neg hne, ← ht₁, hsend, hr.blkSize, hshort]
    rfl
  · split
    · exact hr.complete
    · exact hr
  · split
    · rfl
    · exact hnet

theorem Waiting.handleData (h : Waiting srv t) (hB : t.blkSize = srv.blkSize) (hfit : Fits cfg srv) :
    ∃ t', t.handleData cfg (htons 1 ++ blockOf srv.blkSize srv.file 1) srv.ip srv.port = (t', [.ack (1 % 2 ^ 16)]) ∧
      Receiving cfg srv t' 1 ∧ t'.net = if 1 = srv.lastBlock then .success else t.net := by
  have hfirst : t.handleData cfg (htons 1 ++ blockOf srv.blkSize srv.file 1) srv.ip srv.port =
      Tftp.storeData cfg (Tftp.firstData { t with block := 1 } srv.ip srv.port) (blockOf srv.blkSize srv.file 1) := by
    have hs : t.state = .sendRRQ ∨ t.state = .oack ∨ t.state = .recvWRQ := by
      rcases h.state with h | h
      · exact Or.inl h.1
      · exact Or.inr (Or.inl h.1)
    have hn : ntohs (UInt8.ofNat (1 / 256)) (UInt8.ofNat 1) = 1 := ntohs_htons 1
    simp only [Tftp.handleData, htons, cons_append, nil_append, hn]
    rw [setBlock_of_pos t 1 one_ne_zero, if_pos hs]
    exact if_neg (not_not.2 rfl)
  have hready : Ready cfg srv (Tftp.firstData { t with block := 1 } srv.ip srv.port) 1 := by
    refine ⟨rfl, h.writing, rfl, rfl, Nat.zero_ne_one, ?_, hB, ?_, ?_⟩
    · simp [Tftp.firstData, Tftp.newTransfer]
    · simpa [Tftp.firstData, Tftp.newTransfer] using h.xferSize
    · simpa using stored_nil _ _
  rw [hfirst]
  exact hready.storeData hfit le_rfl (blockCount_pos _ _)

theorem Receiving.handleData (h : Receiving cfg srv t c) (hfit : Fits cfg srv) (hc : c + 1 ≤ srv.lastBlock) :
    ∃ t', t.handleData cfg (htons (c + 1) ++ blockOf srv.blkSize srv.file (c + 1)) srv.ip srv.port = (t', [.ack ((c + 1) % 2 ^ 16)]) ∧
      Receiving cfg srv t' (c + 1) ∧ t'.net = if c + 1 = srv.lastBlock then .success else t.net := by
  have hready : Ready cfg srv (t.setBlock ((c + 1) % 2 ^ 16)) (c + 1) := by
    have hlast : t.lastBlock ≠ (c + 1) % 2 ^ 16 := by
      rw [h.lastBlock]
      omega
    by_cases h0 : (c + 1) % 2 ^ 16 = 0
    · rw [h0, Tftp.setBlock, Tftp.updateBlockNumber, if_pos rfl]
      refine ⟨h.state, h.writing, h.remotePort, h0.symm, hlast, ?_, h.blkSize, h.xferSize, h.stored⟩
      rw [h.wrapOffset, h.blkSize, TFTP_SEQUENCE_SIZE, wrapOffset_succ h0]
    · rw [setBlock_of_pos _ _ h0]
      refine ⟨h.state, h.writing, h.remotePort, rfl, hlast, ?_, h.blkSize, h.xferSize, h.stored⟩
      rw [h.wrapOffset, div_succ_of_mod_ne h0]
  have hnet : (t.setBlock ((c + 1) % 2 ^ 16)).net = t.net := setBlock_net _ _
  rw [handleData_of_data h.state, ← hnet]
  exact hready.storeData hfit (Nat.le_add_left 1 c) hc

theorem Receiving.handleData_again (h : Receiving cfg srv t c) (h0 : c % 2 ^ 16 ≠ 0) (bytes : List UInt8) :
    t.handleData cfg (htons c ++ bytes) srv.ip srv.port = (t, []) := by
  rw [handleData_of_data h.state, setBlock_of_pos _ _ h0, ← h.block]
  exact storeData_same (h.block.trans h.lastBlock.symm) bytes

/-- A timeout sends the last packet again, or gives up. -/
theorem timeout_get (cfg : TftpConfig) (hw : t.writing = false) (hs : t.state = .sendRRQ ∨ t.state = .oack ∨ t.state = .data)
    (hnet : t.net = .running) :
    ∃ n net out, t.timeout cfg = ({ t with timeoutCount := n, net := net }, out) ∧ net ≠ .success ∧
      ∀ a ∈ ackNumbers out, t.state ≠ .sendRRQ ∧ a = t.block % 2 ^ 16 := by
  by_cases hmax : t.timeoutCount + 1 > t.timeoutCountMax
  · refine ⟨t.timeoutCount + 1, if cfg.autoBoot then .fail else .restart, [], ?_, ?_, ?_⟩
    · simp only [Tftp.timeout, if_pos hmax]
      split <;> rfl
    · split <;> decide
    · simp [ackNumbers]
  · refine ⟨t.timeoutCount + 1, t.net, [(t.send cfg).2], ?_, ?_, ?_⟩
    · rcases hs with hs | hs | hs <;> simp [Tftp.timeout, hmax, hs, Tftp.send, hw]
    · rw [hnet]
      decide
    · intro a ha
      rcases hs with hs | hs | hs <;> simp_all [ackNumbers, Tftp.send]

/-! ## The system -/

/-- The client waits for the first block. Once the server has left the OACK, or can leave it, the block size is agreed. -/
structure Negotiating (srv : TftpServer) (s : Download) : Prop where
  waiting : Waiting srv s.client
  oack : s.block = 0 → srv.oack.isSome
  agreed : s.block ≠ 0 ∨ s.acks ≠ [] → s.client.blkSize = srv.blkSize

/-- The client has received `c` blocks, and the server stands at the last of them or at the next one. -/
structure Progress (cfg : TftpConfig) (srv : TftpServer) (s : Download) (c : Nat) : Prop where
  le_block : c ≤ s.block
  block_le : s.block ≤ c + 1
  block_le_last : s.block ≤ srv.lastBlock
  running : s.client.net = .running → c < srv.lastBlock
  success : s.client.net = .success → c = srv.lastBlock
  acks : c < s.block → ∀ n ∈ s.acks, n = c % 2 ^ 16
  client : c = 0 ∧ Negotiating srv s ∨ 1 ≤ c ∧ Receiving cfg srv s.client c

theorem progress_start (cfg : TftpConfig) (srv : TftpServer) (t : Tftp) (remoteIP remotePort ourPort : Nat) :
    Progress cfg srv (Download.start cfg srv t remoteIP remotePort ourPort) 0 := by
  have hpos : 0 < srv.lastBlock := blockCount_pos _ _
  have hw : Waiting srv (Download.start cfg srv t remoteIP remotePort ourPort).client := ⟨rfl, rfl, rfl, Or.inl ⟨rfl, rfl⟩⟩
  have hblock : (Download.start cfg srv t remoteIP remotePort ourPort).block = if srv.oack.isSome then 0 else 1 := rfl
  refine ⟨Nat.zero_le _, ?_, ?_, fun _ => hpos, nofun, fun _ => nofun, Or.inl ⟨rfl, hw, ?_, ?_⟩⟩
  · rw [hblock]
    split <;> omega
  · rw [hblock]
    split <;> omega
  · rw [hblock]
    intro h
    by_contra hn
    rw [if_neg hn] at h
    exact one_ne_zero h
  · rintro (h | h)
    · have hnone : srv.oack = none := by
        rw [hblock] at h
        by_contra hn
        exact h (if_pos (isSome_iff_ne_none.2 hn))
      rw [srv.agreed, hnone]
      rfl
    · exact absurd rfl h

theorem packet_of_pos (srv : TftpServer) (h : 1 ≤ k) : srv.packet k = dataPacket k (blockOf srv.blkSize srv.file k) := by
  unfold TftpServer.packet
  split
  · omega
  · rfl

theorem step_deliver {t' : Tftp} {out : List TftpOut} (hrun : s.client.net = .running)
    (h : s.client.handler cfg (srv.packet s.block) s.client.ourPort srv.ip srv.port = some (t', out)) :
    s.step cfg srv .deliver = some { s with client := t', acks := s.acks ++ ackNumbers out } := by
  rw [Download.step, if_pos hrun, h]
  rfl

theorem step_deliver_oack (h : Progress cfg srv s 0) (hk : s.block = 0) (hrun : s.client.net = .running) :
    ∃ s', s.step cfg srv .deliver = some s' ∧ Progress cfg srv s' 0 ∧ s'.block = 0 ∧ 0 ∈ s'.acks ∧ s'.client.net = .running := by
  obtain ⟨-, hn⟩ | ⟨h1, -⟩ := h.client
  · obtain ⟨options, ho⟩ := isSome_iff_exists.1 (hn.oack hk)
    have hw := hn.waiting
    have hB : srv.blkSize = oackBlkSize options TFTP_BLOCK_SIZE := by
      rw [srv.agreed, ho]
      rfl
    have hsize : oackBlkSize options s.client.blkSize = srv.blkSize := by
      rcases hw.state with hs | hs
      · rw [hs.2, hB]
      · rw [hs.2.2, hB, oackBlkSize_again]
    have hsrc : s.client.state = .sendRRQ ∨ srv.port = s.client.remotePort := by
      rcases hw.state with hs | hs
      · exact Or.inl hs.1
      · exact Or.inr hs.2.1.symm
    have hpkt : srv.packet s.block = oackPacket options := by
      simp only [TftpServer.packet, hk, ho]
    have hoack : s.client.handleOack cfg options srv.port =
        ({ s.client with state := .oack, remotePort := srv.port, blkSize := srv.blkSize }, [.ack 0]) := by
      simp [Tftp.handleOack, Tftp.send, hw.writing, hsize, hw.block]
    have hh : s.client.handler cfg (srv.packet s.block) s.client.ourPort srv.ip srv.port =
        some ({ s.client with state := .oack, remotePort := srv.port, blkSize := srv.blkSize }, [.ack 0]) := by
      rw [hpkt, handler_oackPacket hsrc, hoack]
    refine ⟨_, step_deliver hrun hh, ?_, hk, by simp [ackNumbers], hrun⟩
    refine ⟨h.le_block, h.block_le, h.block_le_last, h.running, h.success, ?_, Or.inl ⟨rfl, ?_, hn.oack, fun _ => rfl⟩⟩
    · intro hlt
      exact absurd hk hlt.ne'
    · exact ⟨hw.writing, hw.block, hw.xferSize, Or.inr ⟨rfl, rfl, rfl⟩⟩
  · omega

theorem step_deliver_next (h : Progress cfg srv s c) (hfit : Fits cfg srv) (hk : s.block = c + 1) (hrun : s.client.net = .running) :
    ∃ s', s.step cfg srv .deliver = some s' ∧ Progress cfg srv s' (c + 1) ∧ s'.block = c + 1 ∧
      (c + 1) % 2 ^ 16 ∈ s'.acks ∧ s'.client.net = if c + 1 = srv.lastBlock then .success else .running := by
  have hle : c + 1 ≤ srv.lastBlock := hk ▸ h.block_le_last
  have hpkt : srv.packet s.block = dataPacket (c + 1) (blockOf srv.blkSize srv.file (c + 1)) := by
    rw [hk, packet_of_pos srv (Nat.le_add_left 1 c)]
  obtain ⟨t', ht, hr, hnet⟩ : ∃ t', s.client.handler cfg (srv.packet s.block) s.client.ourPort srv.ip srv.port =
        some (t', [.ack ((c + 1) % 2 ^ 16)]) ∧
      Receiving cfg srv t' (c + 1) ∧ t'.net = if c + 1 = srv.lastBlock then .success else s.client.net := by
    rw [hpkt]
    obtain ⟨rfl, hn⟩ | ⟨-, hr⟩ := h.client
    · have hsrc : s.client.state = .sendRRQ ∨ srv.port = s.client.remotePort := by
        rcases hn.waiting.state with hs | hs
        · exact Or.inl hs.1
        · exact Or.inr hs.2.1.symm
      have hB := hn.agreed (Or.inl (by omega))
      obtain ⟨t', ht, hr⟩ := hn.waiting.handleData hB hfit
      exact ⟨t', by rw [handler_dataPacket hsrc, ht], hr⟩
    · obtain ⟨t', ht, hr'⟩ := hr.handleData hfit hle
      exact ⟨t', by rw [handler_dataPacket (Or.inr hr.remotePort.symm), ht], hr'⟩
  rw [hrun] at hnet
  refine ⟨_, step_deliver hrun ht, ?_, hk, by simp [ackNumbers], hnet⟩
  refine ⟨hk.ge, hk.le.trans (Nat.le_succ _), h.block_le_last, ?_, ?_, ?_, Or.inr ⟨Nat.le_add_left 1 c, hr⟩⟩
  · intro hr
    refine lt_of_le_of_ne hle ?_
    intro he
    rw [hnet, if_pos he] at hr
    cases hr
  · intro hs
    by_contra hne
    rw [hnet, if_neg hne] at hs
    cases hs
  · intro hlt
    exact absurd hk hlt.ne'

theorem step_deliver_again (h : Progress cfg srv s c) (h1 : 1 ≤ c) (hk : s.block = c) (h0 : c % 2 ^ 16 ≠ 0)
    (hrun : s.client.net = .running) : s.step cfg srv .deliver = some s := by
  obtain ⟨rfl, -⟩ | ⟨-, hr⟩ := h.client
  · omega
  · have hh : s.client.handler cfg (srv.packet s.block) s.client.ourPort srv.ip srv.port = some (s.client, []) := by
      rw [hk, packet_of_pos srv h1, handler_dataPacket (Or.inr hr.remotePort.symm), hr.handleData_again h0]
    rw [step_deliver hrun hh]
    simp [ackNumbers]

theorem step_timeout (h : Progress cfg srv s c) (hs : s.step cfg srv .timeout = some s') : Progress cfg srv s' c := by
  by_cases hrun : s.client.net = .running
  · have hclient : s.client.writing = false ∧ (s.client.state = .sendRRQ ∨ s.client.state = .oack ∨ s.client.state = .data) ∧
        (s.client.state ≠ .sendRRQ → s.client.block % 2 ^ 16 = c % 2 ^ 16 ∧ s.client.blkSize = srv.blkSize) := by
      obtain ⟨rfl, hn⟩ | ⟨-, hr⟩ := h.client
      · have hw := hn.waiting
        refine ⟨hw.writing, ?_, fun hne => ⟨by rw [hw.block], ?_⟩⟩
        · exact hw.state.elim (fun h => Or.inl h.1) (fun h => Or.inr (Or.inl h.1))
        · exact hw.state.elim (fun h => absurd h.1 hne) (fun h => h.2.2)
      · exact ⟨hr.writing, Or.inr (Or.inr hr.state), fun _ => ⟨by rw [hr.block, Nat.mod_mod], hr.blkSize⟩⟩
    obtain ⟨hw, hstate, hsent⟩ := hclient
    obtain ⟨n, net, out, ht, hnet, hout⟩ := timeout_get cfg hw hstate hrun
    simp only [Download.step, if_pos hrun, ht, some.injEq] at hs
    subst hs
    refine ⟨h.le_block, h.block_le, h.block_le_last, fun _ => h.running hrun, fun he => absurd he hnet, ?_, ?_⟩
    · intro hlt a ha
      rcases mem_append.1 ha with ha | ha
      · exact h.acks hlt a ha
      · rw [(hout a ha).2]
        exact (hsent (hout a ha).1).1
    · refine h.client.imp (fun hc => ⟨hc.1, ?_, hc.2.oack, ?_⟩) (fun hc => ⟨hc.1, ?_⟩)
      · have hw := hc.2.waiting
        exact ⟨hw.writing, hw.block, hw.xferSize, hw.state⟩
      · rintro (hb | ha)
        · exact hc.2.agreed (Or.inl hb)
        · obtain ⟨a, ha⟩ := exists_mem_of_ne_nil _ ha
          rcases mem_append.1 ha with ha | ha
          · exact hc.2.agreed (Or.inr (ne_nil_of_mem ha))
          · exact (hsent (hout a ha).1).2
      · have hr := hc.2
        exact ⟨hr.state, hr.writing, hr.remotePort, hr.block, hr.lastBlock, hr.wrapOffset, hr.blkSize, hr.xferSize, hr.stored⟩
  · simp only [Download.step, if_neg hrun] at hs
    cases hs

theorem step_advance (h : Progress cfg srv s c) (hs : s.step cfg srv .advance = some s') : Progress cfg srv s' c := by
  by_cases hack : s.block % TFTP_SEQUENCE_SIZE ∈ s.acks ∧ s.block < srv.lastBlock
  · rw [Download.step, if_pos hack] at hs
    obtain rfl := some.inj hs
    have hle := h.le_block
    have hle' := h.block_le
    have hc : c = s.block := by
      by_contra hne
      have hn := h.acks (lt_of_le_of_ne hle hne) _ hack.1
      rw [TFTP_SEQUENCE_SIZE] at hn
      omega
    refine ⟨Nat.le_succ_of_le hle, Nat.succ_le_succ hc.ge, hack.2, h.running, h.success, fun _ => nofun, ?_⟩
    refine h.client.imp_left fun hn => ⟨hn.1, hn.2.waiting, fun he => absurd he (Nat.succ_ne_zero _), ?_⟩
    intro _
    exact hn.2.agreed (Or.inr (ne_nil_of_mem hack.1))
  · rw [Download.step, if_neg hack] at hs
    cases hs

theorem step_progress (hfit : Fits cfg srv) {i : DownloadStep} (h : Progress cfg srv s c) (hok : DownloadOk s i)
    (hs : s.step cfg srv i = some s') : ∃ c, Progress cfg srv s' c := by
  cases i with
  | timeout => exact ⟨c, step_timeout h hs⟩
  | advance => exact ⟨c, step_advance h hs⟩
  | deliver =>
    have hrun : s.client.net = .running := by
      by_contra hn
      rw [Download.step, if_neg hn] at hs
      cases hs
    rcases Nat.lt_or_ge c s.block with hlt | hge
    · obtain ⟨s₁, hs₁, hp, -⟩ := step_deliver_next h hfit (le_antisymm h.block_le hlt) hrun
      obtain rfl := some.inj (hs₁.symm.trans hs)
      exact ⟨c + 1, hp⟩
    · have hk : s.block = c := le_antisymm hge h.le_block
      rcases Nat.eq_zero_or_pos c with rfl | hpos
      · obtain ⟨s₁, hs₁, hp, -⟩ := step_deliver_oack h hk hrun
        obtain rfl := some.inj (hs₁.symm.trans hs)
        exact ⟨0, hp⟩
      · have h0 : c % 2 ^ 16 ≠ 0 := by
          intro h0
          obtain ⟨rfl, -⟩ | ⟨-, hr⟩ := h.client
          · exact absurd hpos (Nat.lt_irrefl 0)
          · exact hok ⟨hr.state, by rw [hk]; exact h0, by rw [hr.lastBlock]; exact h0⟩
        have hs₁ := step_deliver_again h hpos hk h0 hrun
        obtain rfl := some.inj (hs₁.symm.trans hs)
        exact ⟨c, h⟩

/-! ## A run without a loss -/

theorem downloadOk_next (h : Progress cfg srv s c) (hk : s.block = c + 1) : DownloadOk s .deliver := by
  rintro ⟨hs, h0, hl⟩
  obtain ⟨-, hn⟩ | ⟨-, hr⟩ := h.client
  · rcases hn.waiting.state with hw | hw
    · rw [hs] at hw
      cases hw.1
    · rw [hs] at hw
      cases hw.1
  · rw [hr.lastBlock] at hl
    rw [hk, TFTP_SEQUENCE_SIZE] at h0
    omega

theorem exec_advance (h : Progress cfg srv s c) (hk : s.block = c) (hack : c % 2 ^ 16 ∈ s.acks) (hlt : c < srv.lastBlock) :
    ∃ s', Guarded DownloadOk (stepOf (Download.step cfg srv)) s .advance s' ∧ Progress cfg srv s' c ∧ s'.block = c + 1 ∧
      s'.client = s.client := by
  have hs : s.step cfg srv .advance = some { s with block := s.block + 1, acks := [] } := by
    rw [Download.step, if_pos (by rw [hk]; exact ⟨hack, hlt⟩)]
  exact ⟨_, ⟨trivial, hs⟩, step_advance h hs, by rw [hk], rfl⟩

theorem exists_exec_first (cfg : TftpConfig) (srv : TftpServer) (t : Tftp) (remoteIP remotePort ourPort : Nat) :
    ∃ is s, Exec (Guarded DownloadOk (stepOf (Download.step cfg srv))) (Download.start cfg srv t remoteIP remotePort ourPort) is s ∧
      Progress cfg srv s 0 ∧ s.block = 1 ∧ s.client.net = .running := by
  have h := progress_start cfg srv t remoteIP remotePort ourPort
  have hrun : (Download.start cfg srv t remoteIP remotePort ourPort).client.net = .running := rfl
  have hblock : (Download.start cfg srv t remoteIP remotePort ourPort).block = if srv.oack.isSome then 0 else 1 := rfl
  generalize Download.start cfg srv t remoteIP remotePort ourPort = s₀ at *
  by_cases ho : srv.oack.isSome
  · rw [if_pos ho] at hblock
    obtain ⟨s₁, hs₁, hp₁, hb₁, ha₁, hr₁⟩ := step_deliver_oack h hblock hrun
    obtain ⟨s₂, hs₂, hp₂, hb₂, hc₂⟩ := exec_advance hp₁ hb₁ ha₁ (blockCount_pos _ _)
    have hok : DownloadOk s₀ .deliver := by
      rintro ⟨hs, -⟩
      obtain ⟨-, hn⟩ | ⟨h1, -⟩ := h.client
      · rcases hn.waiting.state with hw | hw
        · rw [hs] at hw
          cases hw.1
        · rw [hs] at hw
          cases hw.1
      · exact absurd h1 (Nat.not_succ_le_zero 0)
    exact ⟨[.deliver, .advance], s₂, .cons ⟨hok, hs₁⟩ (.single hs₂), hp₂, hb₂, by rw [hc₂, hr₁]⟩
  · rw [if_neg ho] at hblock
    exact ⟨[], s₀, .nil s₀, h, hblock, hrun⟩

/-- Every block can be reached, and the last one ends the transfer. -/
theorem exists_exec_received (hfit : Fits cfg srv) (t : Tftp) (remoteIP remotePort ourPort : Nat) (hc : c + 1 ≤ srv.lastBlock) :
    ∃ is s, Exec (Guarded DownloadOk (stepOf (Download.step cfg srv))) (Download.start cfg srv t remoteIP remotePort ourPort) is s ∧
      Progress cfg srv s (c + 1) ∧ s.block = c + 1 ∧ (c + 1) % 2 ^ 16 ∈ s.acks ∧
      s.client.net = if c + 1 = srv.lastBlock then .success else .running := by
  induction c with
  | zero =>
    obtain ⟨is, s, he, hp, hb, hrun⟩ := exists_exec_first cfg srv t remoteIP remotePort ourPort
    obtain ⟨s', hs, hp', h⟩ := step_deliver_next hp hfit hb hrun
    have hstep : Guarded DownloadOk (stepOf (Download.step cfg srv)) s .deliver s' := ⟨downloadOk_next hp hb, hs⟩
    exact ⟨is ++ [.deliver], s', he.append (.single hstep), hp', h⟩
  | succ c ih =>
    obtain ⟨is, s, he, hp, hb, ha, hnet⟩ := ih (Nat.le_of_succ_le hc)
    rw [if_neg (Nat.ne_of_lt hc)] at hnet
    obtain ⟨s₁, hs₁, hp₁, hb₁, hc₁⟩ := exec_advance hp hb ha hc
    obtain ⟨s₂, hs₂, hp₂, h⟩ := step_deliver_next hp₁ hfit hb₁ (by rw [hc₁, hnet])
    have hstep : Guarded DownloadOk (stepOf (Download.step cfg srv)) s₁ .deliver s₂ := ⟨downloadOk_next hp₁ hb₁, hs₂⟩
    exact ⟨is ++ [.advance, .deliver], s₂, he.append (.cons hs₁ (.single hstep)), hp₂, h⟩

end DownloadAux

open DownloadAux

/-- In a run in which no block number 0 is delivered to a client that has it, a download that completes has stored the file. -/
theorem tftp_download_intact {cfg : TftpConfig} {srv : TftpServer} {t : Tftp} {remoteIP remotePort ourPort : Nat}
    {is : List DownloadStep} {s : Download} (hfit : Fits cfg srv)
    (hrun : Exec (Guarded DownloadOk (stepOf (Download.step cfg srv))) (Download.start cfg srv t remoteIP remotePort ourPort) is s)
    (hdone : s.client.net = .success) :
    Stored s.client.mem cfg.loadAddr.toNat srv.file ∧ s.client.xferSize = srv.file.length := by
  have hstep : ∀ s i s', (∃ c, Progress cfg srv s c) → Guarded DownloadOk (stepOf (Download.step cfg srv)) s i s' →
      ∃ c, Progress cfg srv s' c := by
    rintro s i s' ⟨c, h⟩ ⟨hok, hs⟩
    exact step_progress hfit h hok hs
  obtain ⟨c, h⟩ := hrun.invariant hstep ⟨0, progress_start cfg srv t remoteIP remotePort ourPort⟩
  have hc := h.success hdone
  obtain ⟨rfl, -⟩ | ⟨-, hr⟩ := h.client
  · exact absurd hc (blockCount_pos _ _).ne
  · have hall : srv.file.take (c * srv.blkSize) = srv.file := by
      rw [hc]
      exact take_blockCount_mul srv.pos
    refine ⟨hall ▸ hr.stored, ?_⟩
    rw [hr.xferSize, ← length_take, hall]

/-- A server that agrees to blocks of 4 bytes, with a file of three blocks. -/
def smallServer : TftpServer where
  file := [1, 2, 3, 4, 5, 6, 7, 8, 9, 10]
  oack := some (blksizeText ++ [0x34, 0])
  blkSize := 4
  ip := 1
  port := 2000
  agreed := by decide
  pos := by decide

theorem tftp_download_intact_small : ∃ is s, Exec (Guarded DownloadOk (stepOf (Download.step plainConfig smallServer)))
        (Download.start plainConfig smallServer idleClient 1 69 1024) is s ∧
      s.client.net = .success ∧ Stored s.client.mem 0x1000 smallServer.file ∧ s.client.xferSize = 10 := by
  have hfit : Fits plainConfig smallServer := ⟨by decide, by decide⟩
  have hlast : 2 + 1 = smallServer.lastBlock := rfl
  obtain ⟨is, s, hrun, -, -, -, hnet⟩ := exists_exec_received hfit idleClient 1 69 1024 hlast.le
  rw [if_pos hlast] at hnet
  exact ⟨is, s, hrun, hnet, tftp_download_intact hfit hrun hnet⟩

/-! ## Block number 0 again -/

namespace DownloadAux

variable {cfg : TftpConfig} {srv : TftpServer} {s : Download} {k : Nat}

theorem step_deliver_zero_again (h : Progress cfg srv s k) (h1 : 1 ≤ k) (hk : s.block = k) (h0 : k % 2 ^ 16 = 0)
    (hrun : s.client.net = .running) : s.step cfg srv .deliver = some { s with client := s.client.setBlock 0 } := by
  obtain ⟨rfl, -⟩ | ⟨-, hr⟩ := h.client
  · omega
  · have hlast : (s.client.setBlock 0).block = (s.client.setBlock 0).lastBlock := by
      rw [setBlock_block, setBlock_lastBlock, hr.lastBlock, h0]
    have hh : s.client.handler cfg (srv.packet s.block) s.client.ourPort srv.ip srv.port = some (s.client.setBlock 0, []) := by
      rw [hk, packet_of_pos srv h1, handler_dataPacket (Or.inr hr.remotePort.symm), handleData_of_data hr.state, h0, storeData_same hlast]
    rw [step_deliver hrun hh]
    simp [ackNumbers]

theorem storeData_short (cfg : TftpConfig) {t : Tftp} (bytes : List UInt8) (hs : t.state = .data) (hw : t.writing = false)
    (hb : t.block = 1) (hl : t.lastBlock = 0) (hlen : bytes.length < t.blkSize) (hoff : t.blockWrapOffset + bytes.length < 2 ^ 32)
    (hx : t.xferSize < t.blockWrapOffset + bytes.length) :
    (t.storeData cfg bytes).1.net = .success ∧ (t.storeData cfg bytes).1.xferSize = t.blockWrapOffset + bytes.length := by
  have hwrap : toULong (t.blockWrapOffset : Int) = t.blockWrapOffset := by
    rw [toULong_of_modEq rfl]
    exact Nat.mod_eq_of_lt (Nat.lt_of_add_right_lt hoff)
  have hmod : (t.blockWrapOffset + bytes.length) % 4294967296 = t.blockWrapOffset + bytes.length := Nat.mod_eq_of_lt hoff
  rw [Tftp.storeData, if_neg (by rw [hb, hl]; exact one_ne_zero)]
  simp [Tftp.storeBlock, Tftp.send, hs, hw, hb, hlen, Tftp.complete, hwrap, hmod, hx]

end DownloadAux

/-- A file of 65536 full blocks and one byte. -/
def longServer : TftpServer where
  file := List.replicate (2 ^ 25 + 1) 1
  oack := none
  blkSize := 512
  ip := 1
  port := 2000
  agreed := rfl
  pos := by decide

theorem longServer_length : longServer.file.length = 2 ^ 25 + 1 := length_replicate

theorem longServer_lastBlock : longServer.lastBlock = 2 ^ 16 + 1 := by
  rw [TftpServer.lastBlock, blockCount, longServer_length]
  rfl

/-- Block number 0 of a long file is delivered twice before the server goes on. The transfer ends with success, and with a size
that is too large by the size of 65536 blocks. -/
theorem tftp_download_intact_false : ∃ is s, Exec (stepOf (Download.step plainConfig longServer))
        (Download.start plainConfig longServer idleClient 1 69 1024) is s ∧
      s.client.net = .success ∧ s.client.xferSize ≠ longServer.file.length := by
  have hfit : Fits plainConfig longServer := by
    unfold Fits
    rw [longServer_length]
    exact ⟨by decide, by decide⟩
  have hlast := longServer_lastBlock
  obtain ⟨is, s, hrun, hp, hb, hack, hnet⟩ :=
    exists_exec_received (c := 2 ^ 16 - 1) hfit idleClient 1 69 1024 (by rw [hlast]; decide)
  rw [hlast, if_neg (by decide)] at hnet
  have hr : Receiving plainConfig longServer s.client (2 ^ 16) :=
    hp.client.elim (fun h => absurd h.1 (by decide)) fun h => h.2
  have hagain := step_deliver_zero_again hp (by decide) hb (by decide) hnet
  have hadv : Download.step plainConfig longServer { s with client := s.client.setBlock 0 } .advance =
      some { client := s.client.setBlock 0, block := 2 ^ 16 + 1, acks := [] } := by
    rw [Download.step, if_pos ⟨by rw [hb]; exact hack, by rw [hb, hlast]; decide⟩, hb]
    rfl
  have hlen : (blockOf longServer.blkSize longServer.file (2 ^ 16 + 1)).length = 1 := by
    rw [length_blockOf, longServer_length]
    rfl
  have hoff : (s.client.setBlock 0).blockWrapOffset = 2 ^ 26 := by
    rw [setBlock_zero_wrapOffset, hr.wrapOffset, hr.blkSize]
    rfl
  -- the last block goes to a place behind the end of the file
  have hh : (s.client.setBlock 0).handler plainConfig (longServer.packet (2 ^ 16 + 1)) (s.client.setBlock 0).ourPort
      longServer.ip longServer.port = some (Tftp.storeData plainConfig ((s.client.setBlock 0).setBlock 1)
        (blockOf longServer.blkSize longServer.file (2 ^ 16 + 1))) := by
    rw [packet_of_pos _ (by decide), handler_dataPacket (Or.inr (by simpa using hr.remotePort.symm)),
      handleData_of_data (by simpa using hr.state)]
    rfl
  have hoff' : ((s.client.setBlock 0).setBlock 1).blockWrapOffset = 2 ^ 26 := by
    rw [setBlock_of_pos _ _ one_ne_zero]
    exact hoff
  have hshort := storeData_short plainConfig (t := (s.client.setBlock 0).setBlock 1)
    (blockOf longServer.blkSize longServer.file (2 ^ 16 + 1)) (by simpa using hr.state) (by simpa using hr.writing)
    (by simp) (by simpa using hr.lastBlock) (by rw [hlen, setBlock_blkSize, setBlock_blkSize, hr.blkSize]; decide)
    (by rw [hlen, hoff']; decide)
    (by rw [hlen, hoff', setBlock_xferSize, setBlock_xferSize, hr.xferSize, longServer_length]; decide)
  obtain ⟨t', out, hst⟩ : ∃ t' out, Tftp.storeData plainConfig ((s.client.setBlock 0).setBlock 1)
      (blockOf longServer.blkSize longServer.file (2 ^ 16 + 1)) = (t', out) := ⟨_, _, rfl⟩
  rw [hst] at hh hshort
  have hdel := step_deliver (s := { client := s.client.setBlock 0, block := 2 ^ 16 + 1, acks := [] }) (by simpa using hnet) hh
  have hall := (hrun.mono fun _ _ _ h => h.2).append (.cons hagain (.cons hadv (.single hdel)))
  refine ⟨is ++ [.deliver, .advance, .deliver], _, hall, hshort.1, ?_⟩
  rw [hshort.2, hlen, hoff', longServer_length]
  decide

end

/-!
## What a TFTP upload sends

A client that stands at block `k` sends block `k` of the region. Once the final block is sent any ACK ends the transfer.
-/

section

open Lib TftpAux

/-- An ACK that reaches the client is of the final block, if that was sent, and else of a block since the last wrap of the block
number. -/
def UploadOk (cfg : TftpConfig) (s : Upload) : UploadStep → Prop
  | .deliver k =>
    if s.client.finalBlock then k = blockCount s.client.blkSize (saveRegion cfg s.client.mem)
    else k / TFTP_SEQUENCE_SIZE = s.client.blockWrap
  | .acknowledge _ | .timeout => True

namespace UploadAux

variable {cfg : TftpConfig} {m : Nat → UInt8} {B k : Nat} {t : Tftp} {s s' : Upload}

/-! ## The client -/

/-- The client saves `m` in blocks of size `B` and stands at block `k`. -/
structure At (cfg : TftpConfig) (m : Nat → UInt8) (B : Nat) (t : Tftp) (k : Nat) : Prop where
  state : t.state = .data
  writing : t.writing = true
  blkSize : t.blkSize = B
  xferSize : t.xferSize = cfg.saveSize.toNat
  mem : t.mem = m
  block : t.block = k % 2 ^ 16
  blockWrap : t.blockWrap = k / 2 ^ 16
  wrapOffset : t.blockWrapOffset = k / 2 ^ 16 * 2 ^ 16 * B % 2 ^ 32
  one_le : 1 ≤ k
  le_last : k ≤ blockCount B (saveRegion cfg m)

theorem length_saveRegion (cfg : TftpConfig) (m : Nat → UInt8) : (saveRegion cfg m).length = cfg.saveSize.toNat := by
  simp [saveRegion]

theorem At.loadBlock (h : At cfg m B t k) : t.loadBlock cfg t.block t.blkSize = blockOf B (saveRegion cfg m) k := by
  have hle := pred_mul_le_length h.le_last
  rw [length_saveRegion] at hle
  have hoff : toULong (((t.block : Int) - 1) * t.blkSize + t.blockWrapOffset) = (k - 1) * B := by
    rw [h.block, h.blkSize, h.wrapOffset, toULong_offset B h.one_le]
    exact Nat.mod_eq_of_lt (lt_of_le_of_lt hle cfg.saveSize.toNat_lt)
  have hrest : toULong ((t.xferSize : Int) - ((k - 1) * B : Nat)) = cfg.saveSize.toNat - (k - 1) * B := by
    rw [h.xferSize, ← Nat.cast_sub hle, toULong_of_modEq rfl]
    exact Nat.mod_eq_of_lt (lt_of_le_of_lt (Nat.sub_le _ _) cfg.saveSize.toNat_lt)
  simp only [Tftp.loadBlock]
  rw [hoff, hrest, h.blkSize, h.mem, saveRegion, blockOf_map_range]

theorem At.send (h : At cfg m B t k) (hB : 0 < B) : t.send cfg = ({ t with finalBlock := decide (k = blockCount B (saveRegion cfg m)) },
      .data (k % 2 ^ 16) (blockOf B (saveRegion cfg m) k)) := by
  have hshort : (blockOf B (saveRegion cfg m) k).length < t.blkSize ↔ k = blockCount B (saveRegion cfg m) := by
    rw [h.blkSize]
    exact length_blockOf_lt_iff hB h.one_le h.le_last
  have hnum : t.block % 2 ^ 16 = k % 2 ^ 16 := by
    rw [h.block, Nat.mod_mod]
  simp only [Tftp.send, h.state, h.writing, if_true, h.loadBlock, hshort, hnum]

/-- The ACK of a block since the last wrap makes the client stand at the next block. -/
theorem At.setBlock {j : Nat} (h : At cfg m B t k) (hj : j / 2 ^ 16 = t.blockWrap)
    (hlt : j < blockCount B (saveRegion cfg m)) : At cfg m B (t.setBlock ((j + 1) % 2 ^ 16)) (j + 1) := by
  rw [h.blockWrap] at hj
  have hsize : j < 2 ^ 32 := by
    have hdiv := (Nat.lt_succ_iff.1 hlt).trans (Nat.div_le_self _ B)
    rw [length_saveRegion] at hdiv
    exact lt_of_le_of_lt hdiv cfg.saveSize.toNat_lt
  by_cases h0 : (j + 1) % 2 ^ 16 = 0
  · have hdiv : (j + 1) / 2 ^ 16 = k / 2 ^ 16 + 1 := by omega
    rw [h0, Tftp.setBlock, Tftp.updateBlockNumber, if_pos rfl]
    refine ⟨h.state, h.writing, h.blkSize, h.xferSize, h.mem, h0.symm, ?_, ?_, Nat.le_add_left 1 j, hlt⟩
    · rw [h.blockWrap, hdiv]
      exact Nat.mod_eq_of_lt (by omega)
    · rw [h.wrapOffset, h.blkSize, ← hj, TFTP_SEQUENCE_SIZE, wrapOffset_succ h0]
  · rw [setBlock_of_pos _ _ h0]
    refine ⟨h.state, h.writing, h.blkSize, h.xferSize, h.mem, rfl, ?_, ?_, Nat.le_add_left 1 j, hlt⟩
    · rw [h.blockWrap, div_succ_of_mod_ne h0, hj]
    · rw [h.wrapOffset, div_succ_of_mod_ne h0, hj]

/-! ## The system -/

/-- Where the client stands, and what was sent and acknowledged so far. -/
structure Sending (cfg : TftpConfig) (m : Nat → UInt8) (B : Nat) (s : Upload) : Prop where
  client : At cfg m B s.client s.block
  final : s.client.finalBlock = true → s.block = blockCount B (saveRegion cfg m)
  notFinal : s.client.finalBlock = false → ∀ e ∈ s.sent, e.1 < blockCount B (saveRegion cfg m)
  sent : ∀ e ∈ s.sent, 1 ≤ e.1 ∧ e.2 = .data (e.1 % 2 ^ 16) (blockOf B (saveRegion cfg m) e.1)
  acked : ∀ k ∈ s.acked, k ∈ s.sent.map Prod.fst
  success : s.client.net = .success → blockCount B (saveRegion cfg m) ∈ s.acked

theorem Sending.send (h : Sending cfg m B s) (hB : 0 < B) :
    Sending cfg m B { s with
      client := (s.client.send cfg).1, sent := [(s.client.send cfg).2].map (s.block, ·) ++ s.sent } := by
  have hc := h.client
  rw [hc.send hB]
  refine ⟨?_, ?_, ?_, ?_, ?_, h.success⟩
  · exact ⟨hc.state, hc.writing, hc.blkSize, hc.xferSize, hc.mem, hc.block, hc.blockWrap, hc.wrapOffset, hc.one_le, hc.le_last⟩
  · intro hf
    exact of_decide_eq_true hf
  · intro hf e he
    have hlt : s.block < blockCount B (saveRegion cfg m) := lt_of_le_of_ne hc.le_last (of_decide_eq_false hf)
    have hnf : s.client.finalBlock = false := by
      by_contra hn
      exact hlt.ne (h.final (Bool.not_eq_false _ ▸ hn))
    rcases mem_cons.1 he with rfl | he
    · exact hlt
    · exact h.notFinal hnf e he
  · intro e he
    rcases mem_cons.1 he with rfl | he
    · exact ⟨hc.one_le, rfl⟩
    · exact h.sent e he
  · intro k hk
    exact mem_cons_of_mem _ (h.acked k hk)

theorem sending_start (cfg : TftpConfig) (t : Tftp) (remoteIP remotePort ourPort : Nat) (options : List UInt8) (port : Nat)
    (hB : 0 < oackBlkSize options TFTP_BLOCK_SIZE) :
    Sending cfg t.mem (oackBlkSize options TFTP_BLOCK_SIZE) (Upload.start cfg t remoteIP remotePort ourPort options port) := by
  -- the client just before it sends the first block
  obtain ⟨u, hu⟩ : ∃ u : Tftp, u = { (t.start cfg true remoteIP remotePort ourPort).1 with
      state := .data, remotePort := port, blkSize := oackBlkSize options TFTP_BLOCK_SIZE, block := 1 } := ⟨_, rfl⟩
  have hAt : At cfg t.mem (oackBlkSize options TFTP_BLOCK_SIZE) u 1 := by
    subst hu
    exact ⟨rfl, rfl, rfl, rfl, rfl, rfl, rfl, by simp [Tftp.start, Tftp.send, Tftp.newTransfer], le_rfl, blockCount_pos _ _⟩
  have hS : Sending cfg t.mem (oackBlkSize options TFTP_BLOCK_SIZE) ⟨u, 1, [], []⟩ := by
    have hfinal : u.finalBlock ≠ true := by
      subst hu
      exact Bool.false_ne_true
    have hnet : u.net = .running := by
      subst hu
      rfl
    have hgo : u.net ≠ .success := by
      rw [hnet]
      decide
    refine ⟨hAt, fun h => absurd h hfinal, fun _ k hk => absurd hk not_mem_nil, fun e he => absurd he not_mem_nil,
      fun k hk => absurd hk not_mem_nil, fun h => absurd h hgo⟩
  have hstart : Upload.start cfg t remoteIP remotePort ourPort options port =
      { client := (u.send cfg).1, block := 1, sent := [(u.send cfg).2].map (1, ·) ++ [], acked := [] } := by
    subst hu
    rfl
  rw [hstart]
  exact hS.send hB

/-- A timeout sends the block again, or gives up. -/
theorem Sending.timeout (h : Sending cfg m B s) (hB : 0 < B) (hrun : s.client.net = .running) :
    Sending cfg m B { s with
      client := (s.client.timeout cfg).1, sent := (s.client.timeout cfg).2.map (s.block, ·) ++ s.sent } := by
  have hc := h.client
  -- counting the timeout and giving up leave what is sent alone
  have hcount : ∀ n net, net ≠ .success → Sending cfg m B { s with client := { s.client with timeoutCount := n, net := net } } := by
    intro n net hnet
    refine ⟨?_, h.final, h.notFinal, h.sent, h.acked, fun he => absurd he hnet⟩
    exact ⟨hc.state, hc.writing, hc.blkSize, hc.xferSize, hc.mem, hc.block, hc.blockWrap, hc.wrapOffset, hc.one_le, hc.le_last⟩
  have hgo : s.client.net ≠ .success := by
    rw [hrun]
    decide
  unfold Tftp.timeout
  by_cases hmax : s.client.timeoutCount + 1 > s.client.timeoutCountMax
  · simp only [if_pos hmax]
    split
    · exact hcount _ .fail (by decide)
    · exact hcount _ .restart (by decide)
  · have hstate : s.client.state ≠ .recvWRQ := by
      rw [hc.state]
      decide
    simp only [if_neg hmax, if_pos hstate]
    exact (hcount (s.client.timeoutCount + 1) s.client.net hgo).send hB

theorem Sending.ack (h : Sending cfg m B s) (hfin : s.client.finalBlock = false) (hk : k ∈ s.acked) (hwrap : k / 2 ^ 16 = s.client.blockWrap) :
    Sending cfg m B { s with client := s.client.setBlock ((k + 1) % 2 ^ 16), block := k + 1 } := by
  obtain ⟨e, he, rfl⟩ := mem_map.1 (h.acked k hk)
  have hlt := h.notFinal hfin e he
  refine ⟨h.client.setBlock hwrap hlt, ?_, fun _ => h.notFinal hfin, h.sent, h.acked, ?_⟩
  · intro hf
    rw [setBlock_finalBlock, hfin] at hf
    cases hf
  · intro hs
    exact h.success (by simpa using hs)

theorem Sending.deliver (h : Sending cfg m B s) (hB : 0 < B) (hok : UploadOk cfg s (.deliver k))
    (hs : s.step cfg (.deliver k) = some s') : Sending cfg m B s' := by
  by_cases hen : s.client.net = .running ∧ k ∈ s.acked
  · rw [Upload.step, if_pos hen, handler_ackPacket] at hs
    have hc := h.client
    cases hfin : s.client.finalBlock with
    | true =>
      -- the transfer is complete
      simp only [UploadOk, hfin, if_true, hc.blkSize, hc.mem] at hok
      simp only [Tftp.handleAck, hc.writing, hfin, if_true, map_some, some.injEq] at hs
      subst hs
      refine ⟨?_, h.final, h.notFinal, h.sent, h.acked, fun _ => hok ▸ hen.2⟩
      exact ⟨hc.state, hc.writing, hc.blkSize, hc.xferSize, hc.mem, hc.block, hc.blockWrap, hc.wrapOffset, hc.one_le, hc.le_last⟩
    | false =>
      simp only [UploadOk, hfin, Bool.false_eq_true, if_false] at hok
      have hack := h.ack hfin hen.2 hok
      have hnum : (k % 2 ^ 16 + 1) % 2 ^ 16 = (k + 1) % 2 ^ 16 := Nat.mod_add_mod k (2 ^ 16) 1
      simp only [Tftp.handleAck, hc.writing, hfin, if_true, Bool.false_eq_true, if_false, htons, ntohs_htons, hnum] at hs
      split at hs
      · obtain rfl := some.inj hs
        exact hack.send hB
      · obtain rfl := some.inj hs
        exact hack
  · rw [Upload.step, if_neg hen] at hs
    cases hs

theorem step_sending (hB : 0 < B) {i : UploadStep} (h : Sending cfg m B s) (hok : UploadOk cfg s i)
    (hs : s.step cfg i = some s') : Sending cfg m B s' := by
  cases i with
  | acknowledge k =>
    by_cases hk : k ∈ s.sent.map Prod.fst
    · rw [Upload.step, if_pos hk] at hs
      obtain rfl := some.inj hs
      refine ⟨h.client, h.final, h.notFinal, h.sent, ?_, fun hd => mem_cons_of_mem _ (h.success hd)⟩
      intro j hj
      rcases mem_cons.1 hj with rfl | hj
      · exact hk
      · exact h.acked j hj
    · rw [Upload.step, if_neg hk] at hs
      cases hs
  | deliver k => exact h.deliver hB hok hs
  | timeout =>
    by_cases hrun : s.client.net = .running
    · rw [Upload.step, if_pos hrun] at hs
      obtain rfl := some.inj hs
      exact h.timeout hB hrun
    · rw [Upload.step, if_neg hrun] at hs
      cases hs

end UploadAux

open UploadAux

/-- In a run in which every ACK that arrives is of the final block, if that was sent, and else of a block since the last wrap of
the block number, what is sent for a block of the region is that block, and a transfer that completes has its final block
acknowledged. -/
theorem tftp_upload_intact {cfg : TftpConfig} {t : Tftp} {remoteIP remotePort ourPort port : Nat} {options : List UInt8}
    {is : List UploadStep} {s : Upload} (hB : 0 < oackBlkSize options TFTP_BLOCK_SIZE)
    (hrun : Exec (Guarded (UploadOk cfg) (stepOf (Upload.step cfg))) (Upload.start cfg t remoteIP remotePort ourPort options port) is s) :
    (∀ e ∈ s.sent, 1 ≤ e.1 ∧ e.2 = .data (e.1 % 2 ^ 16) (blockOf (oackBlkSize options TFTP_BLOCK_SIZE) (saveRegion cfg t.mem) e.1)) ∧
    (s.client.net = .success → blockCount (oackBlkSize options TFTP_BLOCK_SIZE) (saveRegion cfg t.mem) ∈ s.acked) := by
  have hstep : ∀ s i s', Sending cfg t.mem (oackBlkSize options TFTP_BLOCK_SIZE) s → Guarded (UploadOk cfg) (stepOf (Upload.step cfg)) s i s' →
      Sending cfg t.mem (oackBlkSize options TFTP_BLOCK_SIZE) s' := by
    rintro s i s' h ⟨hok, hs⟩
    exact step_sending hB h hok hs
  have h := hrun.invariant hstep (sending_start cfg t remoteIP remotePort ourPort options port hB)
  exact ⟨h.sent, h.success⟩

/-- The options of an OACK that agrees to blocks of 8 bytes. -/
def eightBytes : List UInt8 := blksizeText ++ [0x38, 0]

theorem tftp_upload_intact_nine : ∃ s, Exec (Guarded (UploadOk plainConfig) (stepOf (Upload.step plainConfig)))
        (Upload.start plainConfig idleClient 1 69 1024 eightBytes 2000)
        [.acknowledge 1, .deliver 1, .acknowledge 2, .deliver 2] s ∧
      s.client.net = .success ∧
      (∀ e ∈ s.sent, 1 ≤ e.1 ∧ e.2 = .data (e.1 % 2 ^ 16)
        (blockOf (oackBlkSize eightBytes TFTP_BLOCK_SIZE) (saveRegion plainConfig idleClient.mem) e.1)) ∧
      blockCount (oackBlkSize eightBytes TFTP_BLOCK_SIZE) (saveRegion plainConfig idleClient.mem) ∈ s.acked := by
  obtain ⟨s, hrun, hdone⟩ : ∃ s, Exec (Guarded (UploadOk plainConfig) (stepOf (Upload.step plainConfig)))
      (Upload.start plainConfig idleClient 1 69 1024 eightBytes 2000)
      [.acknowledge 1, .deliver 1, .acknowledge 2, .deliver 2] s ∧ s.client.net = .success :=
    ⟨_, .cons ⟨trivial, rfl⟩ (.cons ⟨rfl, rfl⟩ (.cons ⟨trivial, rfl⟩ (.single ⟨rfl, rfl⟩))), rfl⟩
  have h := tftp_upload_intact (by decide) hrun
  exact ⟨s, hrun, hdone, h.1, h.2 hdone⟩

/-- The ACK of the first block arrives twice. The second one ends the transfer, of which only the first of two blocks was
acknowledged. -/
theorem tftp_upload_intact_false : ∃ s, Exec (stepOf (Upload.step plainConfig)) (Upload.start plainConfig idleClient 1 69 1024 eightBytes 2000)
        [.acknowledge 1, .deliver 1, .deliver 1] s ∧
      s.client.net = .success ∧
      blockCount (oackBlkSize eightBytes TFTP_BLOCK_SIZE) (saveRegion plainConfig idleClient.mem) ∉ s.acked :=
  ⟨_, .cons rfl (.cons rfl (.single rfl)), rfl, by decide⟩

end

end UBoot
