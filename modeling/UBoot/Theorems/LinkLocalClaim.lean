import UBoot.Lemmas.LinkLocalAux

/-!
# Claiming a link-local address

What a run shows is its `log`. `RATE_LIMIT_PROBE`, which a conflict too many leads to, skips the probes.
-/

namespace UBoot

open Lib List

/-! ## What a log says -/

/-- An ARP probe for an address. -/
def IsProbe (a : UInt32) (arp : ArpHdr) : Prop := arp.op = arpopRequest ∧ arp.spa = 0 ∧ arp.tpa = a

/-- An announcement of an address. -/
def IsAnnouncement (a : UInt32) (arp : ArpHdr) : Prop := arp.op = arpopRequest ∧ arp.spa = a ∧ arp.tpa = a

/-- A request or a reply that conflicts with the address: it comes from the address on another host, or it is the probe of
another host for it. -/
def ArpConflict (netOurEther : Ether) (a : UInt32) (arp : ArpHdr) : Prop :=
  arp.sha ≠ netOurEther ∧ ((arp.op = arpopRequest ∨ arp.op = arpopReply) ∧ arp.spa = a ∨ IsProbe a arp)

instance (a : UInt32) (arp : ArpHdr) : Decidable (IsProbe a arp) := inferInstanceAs (Decidable (_ ∧ _))
instance (a : UInt32) (arp : ArpHdr) : Decidable (IsAnnouncement a arp) := inferInstanceAs (Decidable (_ ∧ _))
instance (m : Ether) (a : UInt32) (arp : ArpHdr) : Decidable (ArpConflict m a arp) := inferInstanceAs (Decidable (_ ∧ _))

/-- The address that was chosen last, with what was observed since, the latest first. -/
def sinceChosen : List LlObs → Option (UInt32 × List LlObs)
  | [] => none
  | .chosen a :: _ => some (a, [])
  | o :: log => (sinceChosen log).map fun r => (r.1, o :: r.2)

/-- The address that was chosen and has not been assigned yet. -/
def acquiring : List LlObs → Option UInt32
  | [] => none
  | .chosen a :: _ => some a
  | .assigned _ :: _ => none
  | _ :: log => acquiring log

/-- The conflicts with addresses being acquired, since the last address was assigned. -/
def conflictCount (netOurEther : Ether) : List LlObs → Nat
  | [] => 0
  | .assigned _ :: _ => 0
  | .received arp :: log =>
    conflictCount netOurEther log + if (acquiring log).any (fun a => ArpConflict netOurEther a arp) then 1 else 0
  | _ :: log => conflictCount netOurEther log

/-- The probes for an address that were sent. -/
def probesSent (a : UInt32) (log : List LlObs) : Nat :=
  log.countP fun | .sent arp => IsProbe a arp | _ => false

/-- The announcements of an address that were sent. -/
def announcementsSent (a : UInt32) (log : List LlObs) : Nat :=
  log.countP fun | .sent arp => IsAnnouncement a arp | _ => false

/-- Before the end of the log the address was chosen, and since then enough probes and announcements were sent and no conflict
was received. -/
def CheckedBefore (netOurEther : Ether) (probes announcements : Nat) (a : UInt32) (log : List LlObs) : Prop :=
  ∃ since, sinceChosen log = some (a, since) ∧ probes ≤ probesSent a since ∧ announcements ≤ announcementsSent a since ∧
    ∀ arp, .received arp ∈ since → ¬ArpConflict netOurEther a arp

/-- Every address was checked before it was assigned. -/
def AssignedAfterCheck (netOurEther : Ether) (log : List LlObs) : Prop :=
  ∀ later a before, log = later ++ .assigned a :: before → CheckedBefore netOurEther probeNum.toNat announceNum.toNat a before

/-- Every address that was assigned lies in the range. -/
def AssignedInRange (log : List LlObs) : Prop := ∀ a, .assigned a ∈ log → InLinkLocalRange a

/-- After `MAX_CONFLICTS` conflicts a new address is announced only if a timeout of `RATE_LIMIT_INTERVAL` seconds was armed since it
was chosen. -/
def RateLimited (netOurEther : Ether) (log : List LlObs) : Prop :=
  ∀ later arp before a, log = later ++ .sent arp :: before → acquiring before = some a → IsAnnouncement a arp →
    maxConflicts.toNat ≤ conflictCount netOurEther before →
      ∃ since, sinceChosen before = some (a, since) ∧ .timeoutSet (rateLimitInterval * 1000) ∈ since

/-! ## The condition -/

/-- The value of `llipaddr` is absent or 0, is refused, or lies in the range. -/
def StartOk (llipaddr : Option CString) : Prop :=
  getenvIPaddr llipaddr = 0 ∨ getenvIPaddr llipaddr &&& inClassbNet ≠ linklocalAddr ∨ InLinkLocalRange (getenvIPaddr llipaddr)

/-- While an address is probed or announced, the packet is not the `MAX_CONFLICTS`th conflict that is noticed, and not the probe of
another host for the address with our hardware address as its target. -/
def ArpOk (netOurEther : Ether) (s : LinkLocal) : LlEvent → Prop
  | .timeout _ => True
  | .arp _ arp =>
    s.state = .probe ∨ s.state = .announce → ((arp.op = arpopRequest ∨ arp.op = arpopReply) ∧
        (sourceIpConflict netOurEther s.ip arp || targetIpConflict netOurEther s.ip arp) → s.conflicts + 1 < maxConflicts) ∧
      ¬(IsProbe s.ip arp ∧ arp.sha ≠ netOurEther ∧ arp.tha = netOurEther)

instance (llipaddr : Option CString) : Decidable (StartOk llipaddr) := inferInstanceAs (Decidable (_ ∨ _))

instance (m : Ether) (s : LinkLocal) (e : LlEvent) : Decidable (ArpOk m s e) :=
  match e with
  | .timeout _ => isTrue trivial
  | .arp _ _ => inferInstanceAs (Decidable (_ → _))

/-! ## The invariant -/

namespace LlInv
variable {o : LlObs} {ip : UInt32} {arp : ArpHdr}


/-- What is already in the log is as it should be, and at no point of it were there `MAX_CONFLICTS` conflicts. -/
def LogOk (m : Ether) : List LlObs → Prop
  | [] => True
  | .assigned a :: log =>
    (CheckedBefore m probeNum.toNat announceNum.toNat a log ∧ InLinkLocalRange a) ∧ conflictCount m log < maxConflicts.toNat ∧ LogOk m log
  | _ :: log => conflictCount m log < maxConflicts.toNat ∧ LogOk m log

/-- What the state says about the log. `RATE_LIMIT_PROBE` is never entered. -/
def Phase (m : Ether) (ip nprobes nclaims : UInt32) (log : List LlObs) : LlState → Prop
  | .probe => InLinkLocalRange ip ∧ acquiring log = some ip ∧ CheckedBefore m nprobes.toNat 0 ip log
  | .announce => InLinkLocalRange ip ∧ acquiring log = some ip ∧ CheckedBefore m probeNum.toNat nclaims.toNat ip log
  | .rateLimitProbe => False
  | .monitor | .defend | .disabled => acquiring log = none

/-- The log is well formed and the counter of conflicts is not behind it. -/
def Counted (m : Ether) (s : LinkLocal) : Prop :=
  LogOk m s.log ∧ conflictCount m s.log ≤ s.conflicts.toNat ∧ s.conflicts < maxConflicts

/-- The invariant of a run. -/
def Inv (m : Ether) (s : LinkLocal) : Prop := Counted m s ∧ Phase m s.ip s.nprobes s.nclaims s.log s.state

variable {m : Ether} {s : LinkLocal} {log : List LlObs} {a : UInt32} {np nc : Nat}

/-! ### Logs that grow -/

theorem conflictCount_lt (h : Counted m s) : conflictCount m s.log < maxConflicts.toNat :=
  Nat.lt_of_le_of_lt h.2.1 (UInt32.lt_iff_toNat_lt.1 h.2.2)

theorem conflictCount_eq_zero (h : acquiring log = none) : conflictCount m log = 0 := by
  induction log with
  | nil => rfl
  | cons o log ih =>
    cases o with
    | chosen b => cases h
    | assigned b => rfl
    | received arp =>
      have hlog : acquiring log = none := h
      simp [conflictCount, hlog, ih hlog]
    | sent arp => exact ih h
    | timeoutSet ms => exact ih h

/-- An observation that neither chooses nor assigns, and is no conflict. -/
def Quiet (m : Ether) (log : List LlObs) : LlObs → Prop
  | .received arp => ∀ a, acquiring log = some a → ¬ArpConflict m a arp
  | .sent _ | .timeoutSet _ => True
  | .chosen _ | .assigned _ => False

theorem acquiring_quiet (h : Quiet m log o) : acquiring (o :: log) = acquiring log := by
  cases o <;> first | rfl | exact h.elim

theorem conflictCount_quiet (h : Quiet m log o) : conflictCount m (o :: log) = conflictCount m log := by
  cases o with
  | received arp =>
    cases hacq : acquiring log with
    | none => simp [conflictCount, hacq]
    | some a => simp [conflictCount, hacq, h a hacq]
  | sent arp => rfl
  | timeoutSet ms => rfl
  | chosen b => exact h.elim
  | assigned b => exact h.elim

theorem logOk_cons (h : LogOk m log) (hlt : conflictCount m log < maxConflicts.toNat)
    (ho : ∀ a, o ≠ .assigned a) : LogOk m (o :: log) := by
  cases o with
  | assigned a => exact absurd rfl (ho a)
  | _ => exact ⟨hlt, h⟩

theorem counted_quiet (hq : Quiet m s.log o) (h : Counted m s) : Counted m (s.note o) := by
  refine ⟨logOk_cons h.1 (conflictCount_lt h) ?_, ?_, h.2.2⟩
  · rintro a rfl
    exact hq
  · exact (conflictCount_quiet hq).symm ▸ h.2.1

theorem sinceChosen_quiet {since : List LlObs} (hq : Quiet m log o) (h : sinceChosen log = some (a, since)) :
    sinceChosen (o :: log) = some (a, o :: since) := by
  cases o with
  | chosen b => exact hq.elim
  | _ => simp [sinceChosen, h]

theorem checkedBefore_quiet (hacq : acquiring log = some a) (hq : Quiet m log o)
    (h : CheckedBefore m np nc a log) : CheckedBefore m np nc a (o :: log) := by
  obtain ⟨since, hs, hp, hn, hc⟩ := h
  refine ⟨o :: since, sinceChosen_quiet hq hs, ?_, ?_, ?_⟩
  · exact Nat.le_trans hp (sublist_cons_self o since).countP_le
  · exact Nat.le_trans hn (sublist_cons_self o since).countP_le
  · intro arp harp
    rcases mem_cons.1 harp with rfl | hin
    · exact hq a hacq
    · exact hc arp hin

theorem checkedBefore_sent (arp : ArpHdr) (h : CheckedBefore m np nc a log) :
    CheckedBefore m (np + if IsProbe a arp then 1 else 0) (nc + if IsAnnouncement a arp then 1 else 0) a (.sent arp :: log) := by
  obtain ⟨since, hs, hp, hn, hc⟩ := h
  refine ⟨.sent arp :: since, sinceChosen_quiet (m := m) trivial hs, ?_, ?_, ?_⟩
  · simpa [probesSent, countP_cons] using hp
  · simpa [announcementsSent, countP_cons] using hn
  · intro p hin
    rcases mem_cons.1 hin with hnot | hin
    · cases hnot
    · exact hc p hin

theorem checkedBefore_probe (tha : Ether) (h : CheckedBefore m np nc a log) :
    CheckedBefore m (np + 1) nc a (.sent (arpRawRequest m 0 tha a) :: log) := by
  obtain ⟨since, hs, hp, hn, hc⟩ := checkedBefore_sent (arpRawRequest m 0 tha a) h
  rw [if_pos ⟨rfl, rfl, rfl⟩] at hp
  exact ⟨since, hs, hp, Nat.le_trans (Nat.le_add_right _ _) hn, hc⟩

theorem checkedBefore_announcement (tha : Ether) (h : CheckedBefore m np nc a log) :
    CheckedBefore m np (nc + 1) a (.sent (arpRawRequest m a tha a) :: log) := by
  obtain ⟨since, hs, hp, hn, hc⟩ := checkedBefore_sent (arpRawRequest m a tha a) h
  rw [if_pos ⟨rfl, rfl, rfl⟩] at hn
  exact ⟨since, hs, Nat.le_trans (Nat.le_add_right _ _) hp, hn, hc⟩

theorem checkedBefore_chosen : CheckedBefore m 0 0 a (.chosen a :: log) := by
  refine ⟨[], rfl, Nat.zero_le _, Nat.zero_le _, ?_⟩
  intro arp harp
  cases harp

/-! ### One step -/

theorem phase_quiet {nprobes nclaims : UInt32} {state : LlState} (hq : Quiet m log o)
    (h : Phase m ip nprobes nclaims log state) : Phase m ip nprobes nclaims (o :: log) state := by
  have hacq := acquiring_quiet hq
  cases state with
  | probe => exact ⟨h.1, hacq.trans h.2.1, checkedBefore_quiet h.2.1 hq h.2.2⟩
  | announce => exact ⟨h.1, hacq.trans h.2.1, checkedBefore_quiet h.2.1 hq h.2.2⟩
  | rateLimitProbe => exact h
  | monitor => exact hacq.trans h
  | defend => exact hacq.trans h
  | disabled => exact hacq.trans h

theorem inv_quiet (hq : Quiet m s.log o) (h : Inv m s) : Inv m (s.note o) :=
  ⟨counted_quiet hq h.1, phase_quiet hq h.2⟩

theorem inv_configureWait (now : UInt32) (h : Inv m s) : Inv m (s.configureWait now) := by
  unfold LinkLocal.configureWait
  split
  · exact h
  · split
    · exact inv_quiet trivial h
    · exact inv_quiet trivial h

theorem inv_restart (h : Counted m s) : Inv m ({ s with state := .probe }).restart := by
  refine ⟨⟨logOk_cons h.1 (conflictCount_lt h) (by simp), h.2⟩, ?_⟩
  exact ⟨pick_inRange s.seed, rfl, checkedBefore_chosen⟩

theorem toNat_succ_of_lt {x y : UInt32} (h : x < y) : (x + 1).toNat = x.toNat + 1 := by
  have hlt := UInt32.lt_iff_toNat_lt.1 h
  have hy := y.toNat_lt
  rw [UInt32.toNat_add, show (1 : UInt32).toNat = 1 from rfl]
  omega

theorem inv_announce (h : Counted m s)
    (hphase : InLinkLocalRange s.ip ∧ acquiring s.log = some s.ip ∧ CheckedBefore m probeNum.toNat 0 s.ip s.log) :
    Inv m (s.announce m) := by
  refine ⟨counted_quiet (s := s) trivial h, hphase.1, hphase.2.1, ?_⟩
  exact checkedBefore_quiet hphase.2.1 trivial hphase.2.2

theorem inv_timeout (now : UInt32) (h : Inv m s) : Inv m (linkLocalTimeout m now s) := by
  obtain ⟨hcount, hphase⟩ := h
  unfold linkLocalTimeout
  split <;> rename_i hstate <;> rw [hstate] at hphase
  · split <;> rename_i hlt
    · refine inv_configureWait now ⟨counted_quiet (s := s) trivial hcount, ?_⟩
      simp only [LinkLocal.note, hstate]
      refine ⟨hphase.1, hphase.2.1, ?_⟩
      rw [toNat_succ_of_lt hlt]
      exact checkedBefore_probe _ hphase.2.2
    · refine inv_configureWait now (inv_announce hcount ⟨hphase.1, hphase.2.1, ?_⟩)
      obtain ⟨since, hs, hp, hrest⟩ := hphase.2.2
      exact ⟨since, hs, Nat.le_trans (UInt32.le_iff_toNat_le.1 (UInt32.not_lt.1 hlt)) hp, hrest⟩
  · exact hphase.elim
  · split <;> rename_i hlt
    · refine inv_configureWait now ⟨counted_quiet (s := s) trivial hcount, ?_⟩
      simp only [LinkLocal.note, hstate]
      refine ⟨hphase.1, hphase.2.1, ?_⟩
      rw [toNat_succ_of_lt hlt]
      exact checkedBefore_announcement _ hphase.2.2
    · -- the address is assigned: the probes and announcements were made, and the count of conflicts begins anew
      have hchecked : CheckedBefore m probeNum.toNat announceNum.toNat s.ip s.log := by
        obtain ⟨since, hs, hp, hn, hc⟩ := hphase.2.2
        exact ⟨since, hs, hp, Nat.le_trans (UInt32.le_iff_toNat_le.1 (UInt32.not_lt.1 hlt)) hn, hc⟩
      refine inv_quiet trivial ⟨⟨⟨⟨hchecked, hphase.1⟩, conflictCount_lt (s := s) hcount, hcount.1⟩, Nat.zero_le _, ?_⟩, rfl⟩
      exact (by decide : (0 : UInt32) < maxConflicts)
  · refine inv_configureWait now ⟨⟨hcount.1, ?_, (by decide : (0 : UInt32) < maxConflicts)⟩, hphase⟩
    exact Nat.le_of_eq (conflictCount_eq_zero hphase)
  · exact inv_configureWait now (inv_restart hcount)
  · exact inv_configureWait now (inv_restart hcount)

theorem adjustTimeout_eq (now : UInt32) (s : LinkLocal) : ∃ ms, s.adjustTimeout now = { s with timeoutMs := ms } := by
  unfold LinkLocal.adjustTimeout
  dsimp only
  split
  · split
    · exact ⟨_, rfl⟩
    · exact ⟨_, rfl⟩
  · exact ⟨_, rfl⟩

theorem noticed_of_conflict (h : ArpConflict m ip arp) (hmiss : ¬(IsProbe ip arp ∧ arp.sha ≠ m ∧ arp.tha = m)) :
    (arp.op = arpopRequest ∨ arp.op = arpopReply) ∧ (sourceIpConflict m ip arp || targetIpConflict m ip arp) = true := by
  obtain ⟨hsha, ⟨hop, hspa⟩ | hprobe⟩ := h
  · refine ⟨hop, ?_⟩
    simp [sourceIpConflict, hspa, hsha]
  · refine ⟨Or.inl hprobe.1, ?_⟩
    have htha : arp.tha ≠ m := by
      intro htha
      exact hmiss ⟨hprobe, hsha, htha⟩
    simp [targetIpConflict, hprobe.1, hprobe.2.2, htha]

theorem quiet_received_of_none (arp : ArpHdr) (h : acquiring log = none) : Quiet m log (.received arp) := by
  intro a ha
  rw [h] at ha
  cases ha

theorem quiet_received (hacq : acquiring log = some ip) (hmiss : ¬(IsProbe ip arp ∧ arp.sha ≠ m ∧ arp.tha = m))
    (h : ¬((arp.op = arpopRequest ∨ arp.op = arpopReply) ∧
      (sourceIpConflict m ip arp || targetIpConflict m ip arp) = true)) : Quiet m log (.received arp) := by
  intro a ha hconf
  obtain rfl : ip = a := Option.some.inj (hacq.symm.trans ha)
  exact h (noticed_of_conflict hconf hmiss)

theorem counted_conflict (arp : ArpHdr) (h : Counted m s) (hlt : s.conflicts + 1 < maxConflicts) :
    Counted m { s with log := .received arp :: s.log, conflicts := s.conflicts + 1 } := by
  refine ⟨logOk_cons h.1 (conflictCount_lt h) (by simp), ?_, hlt⟩
  rw [toNat_succ_of_lt h.2.2]
  exact Nat.add_le_add h.2.1 (by split <;> simp)

/-- While an address is probed or announced, a packet either is quiet or restarts the protocol. -/
theorem inv_receive_acquiring (now : UInt32) (arp : ArpHdr) (h : Inv m s) (hacq : acquiring s.log = some s.ip)
    (hstate : s.state = .probe ∨ s.state = .announce) (hok : ArpOk m s (.arp now arp)) :
    Inv m (linkLocalReceiveArp m now arp s) := by
  obtain ⟨hconf, hmiss⟩ := hok hstate
  obtain ⟨ms, hms⟩ := adjustTimeout_eq now (s.note (.received arp))
  have hquiet (hno : ¬((arp.op = arpopRequest ∨ arp.op = arpopReply) ∧ (sourceIpConflict m s.ip arp || targetIpConflict m s.ip arp) = true)) :
      Inv m { s.note (.received arp) with timeoutMs := ms } :=
    inv_quiet (quiet_received hacq hmiss hno) h
  have hdis : (s.note (.received arp)).state ≠ .disabled := by
    rcases hstate with hs | hs <;> simp [LinkLocal.note, hs]
  simp only [linkLocalReceiveArp, if_neg hdis, hms]
  split
  · rename_i hop
    refine inv_configureWait now (hquiet ?_)
    rintro ⟨hop' | hop', -⟩
    · exact hop.1 hop'
    · exact hop.2 hop'
  · rename_i hop
    have hop' : arp.op = arpopRequest ∨ arp.op = arpopReply := by
      by_contra hno
      exact hop ⟨fun h1 => hno (Or.inl h1), fun h2 => hno (Or.inr h2)⟩
    have hmain : Inv m (if (sourceIpConflict m s.ip arp || targetIpConflict m s.ip arp) = true then
        ((if maxConflicts ≤ s.conflicts + 1 then
          { s.note (.received arp) with conflicts := s.conflicts + 1, timeoutMs := rateLimitInterval * 1000, state := .rateLimitProbe }
        else { s.note (.received arp) with conflicts := s.conflicts + 1, timeoutMs := ms, state := .probe }).restart.configureWait now)
        else ({ s.note (.received arp) with timeoutMs := ms }).configureWait now) := by
      split
      · rename_i hnoticed
        have hlt := hconf ⟨hop', hnoticed⟩
        rw [if_neg (UInt32.not_le.2 hlt)]
        exact inv_configureWait now (inv_restart (counted_conflict arp h.1 hlt))
      · rename_i hnot
        exact inv_configureWait now (hquiet fun hyes => hnot hyes.2)
    rcases hstate with hs | hs
    · simpa [LinkLocal.note, hs] using hmain
    · simpa [LinkLocal.note, hs] using hmain

/-- While no address is being acquired, a packet is quiet, and the protocol may start again. -/
theorem inv_receive_idle (now : UInt32) (arp : ArpHdr) (h : Inv m s) (hacq : acquiring s.log = none)
    (hstate : s.state = .monitor ∨ s.state = .defend ∨ s.state = .disabled) : Inv m (linkLocalReceiveArp m now arp s) := by
  have hquiet := inv_quiet (quiet_received_of_none arp hacq) h
  by_cases hdis : s.state = .disabled
  · simpa [linkLocalReceiveArp, LinkLocal.note, hdis] using hquiet
  obtain ⟨ms, hms⟩ := adjustTimeout_eq now (s.note (.received arp))
  have hadj : Inv m { s.note (.received arp) with timeoutMs := ms } := hquiet
  have hwait := inv_configureWait now hadj
  simp only [linkLocalReceiveArp, if_neg (show (s.note (.received arp)).state ≠ .disabled from hdis), hms]
  split
  · exact hwait
  · rcases hstate with hs | hs | hs
    · -- the address is defended with one announcement
      have hdefend : Inv m (({ s.note (.received arp) with state := .defend, timeoutMs := defendInterval * 1000 }).note
          (.sent (arpRawRequest m s.ip m s.ip))) :=
        inv_quiet trivial ⟨hquiet.1, show acquiring (.received arp :: s.log) = none from hacq⟩
      by_cases hsrc : sourceIpConflict m s.ip arp = true
      · simpa [LinkLocal.note, hs, hsrc] using inv_configureWait now hdefend
      · simpa [LinkLocal.note, hs, hsrc] using hwait
    · have hstart : Inv m ({ s.note (.received arp) with timeoutMs := ms, ready := false, netOurIP := 0, state := .probe }).restart :=
        inv_restart (s := { s.note (.received arp) with timeoutMs := ms, ready := false, netOurIP := 0 }) hquiet.1
      by_cases hsrc : sourceIpConflict m s.ip arp = true
      · simpa [LinkLocal.note, hs, hsrc] using inv_configureWait now hstart
      · simpa [LinkLocal.note, hs, hsrc] using hwait
    · exact absurd hs hdis

theorem inv_receive (now : UInt32) (arp : ArpHdr) (h : Inv m s) (hok : ArpOk m s (.arp now arp)) :
    Inv m (linkLocalReceiveArp m now arp s) := by
  have hphase := h.2
  cases hstate : s.state <;> rw [hstate] at hphase
  · exact inv_receive_acquiring now arp h hphase.2.1 (Or.inl hstate) hok
  · exact hphase.elim
  · exact inv_receive_acquiring now arp h hphase.2.1 (Or.inr hstate) hok
  · exact inv_receive_idle now arp h hphase (Or.inl hstate)
  · exact inv_receive_idle now arp h hphase (Or.inr (Or.inl hstate))
  · exact inv_receive_idle now arp h hphase (Or.inr (Or.inr hstate))

theorem inv_step (m : Ether) (s : LinkLocal) (e : LlEvent) (s' : LinkLocal) (h : Inv m s)
    (hstep : Guarded (ArpOk m) (stepFn (linkLocalStep m)) s e s') : Inv m s' := by
  obtain ⟨hok, rfl⟩ := hstep
  cases e with
  | timeout now => exact inv_timeout now h
  | arp now arp => exact inv_receive now arp h hok

/-- The start establishes the invariant. -/
theorem inv_start (m ethaddr : Ether) {llipaddr : Option CString} (now netOurIP mask : UInt32) (h : StartOk llipaddr) :
    Inv m (linkLocalStart ethaddr llipaddr now (LinkLocal.powerOn netOurIP mask)) := by
  have hzero : (0 : UInt32) < maxConflicts := by decide
  have hmax : 0 < maxConflicts.toNat := by decide
  simp only [linkLocalStart]
  split
  · exact ⟨⟨trivial, Nat.zero_le _, hzero⟩, rfl⟩
  · rename_i hacc
    split
    · exact inv_configureWait now ⟨⟨⟨hmax, trivial⟩, Nat.zero_le _, hzero⟩, pick_inRange _, rfl, checkedBefore_chosen⟩
    · rename_i hne
      have hrange : InLinkLocalRange (getenvIPaddr llipaddr) := by
        rcases h with h | h | h
        · exact absurd h hne
        · exact absurd ⟨hne, h⟩ hacc
        · exact h
      exact inv_configureWait now ⟨⟨⟨hmax, trivial⟩, Nat.zero_le _, hzero⟩, hrange, rfl, checkedBefore_chosen⟩

/-! ### Reading the log -/

theorem logOk_tail (h : LogOk m (o :: log)) : conflictCount m log < maxConflicts.toNat ∧ LogOk m log := by
  cases o with
  | assigned a => exact h.2
  | _ => exact h

theorem logOk_of_append {later : List LlObs} (h : LogOk m (later ++ log)) : LogOk m log := by
  induction later with
  | nil => exact h
  | cons o later ih => exact ih (logOk_tail h).2

theorem assignedAfterCheck_of_logOk (h : LogOk m log) : AssignedAfterCheck m log := by
  rintro later a before rfl
  exact (logOk_of_append h).1.1

theorem assignedInRange_of_logOk (h : LogOk m log) : AssignedInRange log := by
  intro a ha
  obtain ⟨later, before, rfl⟩ := append_of_mem ha
  exact (logOk_of_append h).1.2

theorem rateLimited_of_logOk (h : LogOk m log) : RateLimited m log := by
  rintro later arp before a rfl _ _ hmany
  exact absurd hmany (Nat.not_le.2 (logOk_tail (logOk_of_append h)).1)

end LlInv

/-- In every run whose start and packets meet the condition, every address that is assigned was probed and announced since
it was chosen, without a conflict, and lies in the range, and the rate of announcements is limited. -/
theorem link_local_claims_checked (netOurEther ethaddr : Ether) (llipaddr : Option CString) (now netOurIP mask : UInt32)
    (events : List LlEvent) (s : LinkLocal) (hstart : StartOk llipaddr)
    (hrun : Exec (Guarded (ArpOk netOurEther) (stepFn (linkLocalStep netOurEther)))
      (linkLocalStart ethaddr llipaddr now (LinkLocal.powerOn netOurIP mask)) events s) :
    AssignedAfterCheck netOurEther s.log ∧ AssignedInRange s.log ∧ RateLimited netOurEther s.log := by
  have hinv := hrun.invariant (LlInv.inv_step netOurEther) (LlInv.inv_start netOurEther ethaddr now netOurIP mask hstart)
  have hlog := hinv.1.1
  exact ⟨LlInv.assignedAfterCheck_of_logOk hlog, LlInv.assignedInRange_of_logOk hlog, LlInv.rateLimited_of_logOk hlog⟩

/-! ## Runs -/

/-- The hardware address 02:11:22:33:44:55. -/
def sampleEther : Ether := #v[0x02, 0x11, 0x22, 0x33, 0x44, 0x55]

/-- The hardware address of another host. -/
def otherEther : Ether := #v[0x02, 0x22, 0, 0, 0, 0x01]

/-- A run of the host with that address. -/
def sampleRun (llipaddr : Option CString) (events : List LlEvent) : LinkLocal :=
  events.foldl (linkLocalStep sampleEther) (linkLocalStart sampleEther llipaddr 0 (LinkLocal.powerOn 0 0))

/-- The address 169.254.x.y. -/
def linkLocalIp (host : UInt32) : UInt32 := htonl (linklocalAddr + host)

/-- A reply of another host from an address. -/
def replyFrom (a : UInt32) : LlEvent := .arp 0 ⟨arpopReply, otherEther, a, sampleEther, 0⟩

/-- The probe of another host for an address, with our hardware address as its target. -/
def probeAtUs (a : UInt32) : ArpHdr := ⟨arpopRequest, otherEther, 0, sampleEther, a⟩

/-- A conflict with the first address that is picked, and then the timeouts up to the assignment of the second. -/
def conflictThenTimeouts : List LlEvent := replyFrom (linkLocalIp 34073) :: List.replicate 7 (.timeout 0)

theorem link_local_claims_checked_conflict : .assigned (linkLocalIp 51979) ∈ (sampleRun none conflictThenTimeouts).log ∧
    AssignedAfterCheck sampleEther (sampleRun none conflictThenTimeouts).log ∧
    AssignedInRange (sampleRun none conflictThenTimeouts).log ∧
    RateLimited sampleEther (sampleRun none conflictThenTimeouts).log := by
  refine ⟨by decide, ?_⟩
  refine link_local_claims_checked sampleEther sampleEther none 0 0 0 conflictThenTimeouts _ (Or.inl rfl) ?_
  exact Exec.of_guarded_foldl (by rfl)

/-- The ten addresses that are picked are all taken; then come the timeouts up to the assignment of the eleventh. -/
def tenConflicts : List LlEvent :=
  [34073, 51979, 25845, 15293, 43960, 1698, 51600, 63287, 37395, 14870].map (fun host => replyFrom (linkLocalIp host)) ++
    List.replicate 4 (.timeout 0)

/-- Three probes, a probe of another host, and then the timeouts up to the assignment. -/
def missedProbe : List LlEvent :=
  List.replicate 3 (.timeout 0) ++ .arp 0 (probeAtUs (linkLocalIp 34073)) :: List.replicate 4 (.timeout 0)

/-- `"1.2.254.169"` -/
def foreignLlipaddr : CString where
  bytes := [0x31, 0x2e, 0x32, 0x2e, 0x32, 0x35, 0x34, 0x2e, 0x31, 0x36, 0x39]
  nul_free := by decide

/-- After ten conflicts an address is announced at once and assigned without a probe; a probe of another host is overlooked; and
an `llipaddr` that is not link-local is assigned. -/
theorem link_local_claims_unchecked : (¬AssignedAfterCheck sampleEther (sampleRun none tenConflicts).log ∧
      ¬RateLimited sampleEther (sampleRun none tenConflicts).log) ∧
    ¬AssignedAfterCheck sampleEther (sampleRun none missedProbe).log ∧
    ¬AssignedInRange (sampleRun (some foreignLlipaddr) (List.replicate 7 (.timeout 0))).log := by
  refine ⟨⟨?_, ?_⟩, ?_, ?_⟩
  · intro h
    obtain ⟨since, hs, hp, -⟩ := h [.timeoutSet 0] (linkLocalIp 25378) ((sampleRun none tenConflicts).log.drop 2) (by decide)
    have hnone : (sinceChosen ((sampleRun none tenConflicts).log.drop 2)).map (fun r => probesSent r.1 r.2) = some 0 := by
      decide
    rw [hs] at hnone
    have hzero : probesSent (linkLocalIp 25378) since = 0 := Option.some.inj hnone
    rw [hzero] at hp
    exact absurd hp (by decide)
  · intro h
    obtain ⟨since, hs, hin⟩ := h ((sampleRun none tenConflicts).log.take 7) (arpRawRequest sampleEther (linkLocalIp 25378)
      sampleEther (linkLocalIp 25378)) ((sampleRun none tenConflicts).log.drop 8) (linkLocalIp 25378)
      (by decide) (by decide) (by decide) (by decide)
    have hnone : (sinceChosen ((sampleRun none tenConflicts).log.drop 8)).map
        (fun r => decide (.timeoutSet (rateLimitInterval * 1000) ∈ r.2)) = some false := by
      decide
    rw [hs] at hnone
    exact of_decide_eq_false (Option.some.inj hnone) hin
  · intro h
    obtain ⟨since, hs, -, -, hc⟩ := h [.timeoutSet 0] (linkLocalIp 34073) ((sampleRun none missedProbe).log.drop 2) (by decide)
    have hsome : (sinceChosen ((sampleRun none missedProbe).log.drop 2)).map
        (fun r => decide (.received (probeAtUs (linkLocalIp 34073)) ∈ r.2)) = some true := by
      decide
    rw [hs] at hsome
    exact hc _ (of_decide_eq_true (Option.some.inj hsome)) (by decide)
  · intro h
    exact absurd (h (htonl 0x0102fea9) (by decide)) (by decide)

end UBoot
