import UBoot.Lemmas.KermitAux
import UBoot.Lib.Exec

/-!
# A Kermit download

The receiver's saved address is that of the packet whose sequence number it read last. An error takes it back there.
-/

namespace UBoot

open Lib List Option

namespace KermitAux

/-! ## The packets of a transfer -/

variable {t : KTransfer} {k j : Nat} {p : KPacket}

/-- The bytes of the file in the first packets. -/
def before (t : KTransfer) (k : Nat) : List UInt8 := (t.packets.take k).flatMap KPacket.content

theorem before_succ (h : t.packets[k]? = some p) : before t (k + 1) = before t k ++ p.content := by
  rw [before, take_add_one, h, flatMap_append]
  simp [before]

theorem before_succ_of_empty (h : ∀ p, t.packets[k]? = some p → p.content = []) : before t (k + 1) = before t k := by
  cases hp : t.packets[k]? with
  | none => rw [before, take_add_one, hp, toList_none, append_nil, before]
  | some p => rw [before_succ hp, h p hp, append_nil]

theorem before_length (t : KTransfer) : before t t.packets.length = t.file := by
  rw [before, take_length, KTransfer.file]

theorem packets_get (h : t.packets[j]? = some p) :
    (j = 0 ∧ j + 1 < t.packets.length ∧ p = .other SEND_TYPE t.parms false) ∨ (0 < j ∧ j + 1 < t.packets.length ∧ p ∈ t.middle) ∨
      (0 < j ∧ j + 1 = t.packets.length ∧ p = .other BREAK_TYPE [] false) := by
  have hlen : t.packets.length = t.middle.length + 2 := by simp [KTransfer.packets]
  rcases Nat.eq_zero_or_pos j with rfl | hj
  · exact Or.inl ⟨rfl, by omega, (some.inj h).symm⟩
  · obtain ⟨i, rfl⟩ := Nat.exists_eq_add_of_lt hj
    rw [KTransfer.packets, cons_append, Nat.zero_add, getElem?_cons_succ] at h
    rcases Nat.lt_or_ge i t.middle.length with hi | hi
    · rw [getElem?_append_left hi] at h
      exact Or.inr (Or.inl ⟨by omega, by omega, mem_of_getElem? h⟩)
    · rw [List.getElem?_append_right hi] at h
      obtain ⟨h0, hp⟩ := List.getElem?_eq_some_iff.1 h
      rw [List.length_singleton] at h0
      refine Or.inr (Or.inr ⟨by omega, by omega, ?_⟩)
      simpa using hp.symm

theorem packets_ok (h : t.packets[j]? = some p) :
    p.Ok t.quote ∧ ∀ text long, p ≠ .other DATA_TYPE text long := by
  rcases packets_get h with ⟨-, -, rfl⟩ | ⟨-, -, hp⟩ | ⟨-, -, rfl⟩
  · exact ⟨t.parms_ok, by simp [SEND_TYPE, DATA_TYPE]⟩
  · exact ⟨(t.middle_ok p hp).1, (t.middle_ok p hp).2.2.2⟩
  · refine ⟨⟨by decide, ?_, by simp [KPacket.long, KPacket.text]⟩, by simp [BREAK_TYPE, DATA_TYPE]⟩
    rintro type text long h
    cases h
    simp

theorem quoteOk (t : KTransfer) : QuoteOk t.quote := t.quote_ok

/-! ## The line -/

/-- The packets that replies and characters in flight belong to. -/
def tags (line : List (Nat × UInt8)) (replies : List (Nat × KReply)) : List Nat := replies.map Prod.fst ++ line.map Prod.fst

/-- Replies and characters come in the order of their packets; an acknowledgement in flight is for the sender's packet or the one before. -/
structure Link (cur : Nat) (line : List (Nat × UInt8)) (replies : List (Nat × KReply)) (accepted : Nat) : Prop where
  sorted : (tags line replies).Pairwise (· ≤ ·)
  le_cur : ∀ j ∈ tags line replies, j ≤ cur
  acks : ∀ j n, (j, KReply.ack n) ∈ replies → n = j % 64 ∧ cur ≤ j + 1 ∧ j < accepted
  cur_le : cur ≤ accepted
  accepted_le : accepted ≤ cur + 1

section

variable {cur accepted j : Nat} {c : UInt8} {r : KReply} {line : List (Nat × UInt8)} {replies : List (Nat × KReply)}

theorem Link.send (h : Link cur line replies accepted) (cs : List UInt8) : Link cur (line ++ cs.map (cur, ·)) replies accepted := by
  have htags : tags (line ++ cs.map (cur, ·)) replies = tags line replies ++ cs.map (fun _ => cur) := by
    simp [tags, map_append, Function.comp_def]
  refine ⟨?_, ?_, h.acks, h.cur_le, h.accepted_le⟩
  · rw [htags, pairwise_append]
    refine ⟨h.sorted, ?_, ?_⟩
    · rw [pairwise_map]
      exact pairwise_of_forall (fun _ _ => Nat.le_refl _)
    · intro a ha b hb
      obtain ⟨_, -, rfl⟩ := mem_map.1 hb
      exact h.le_cur a ha
  · intro a ha
    rw [htags] at ha
    rcases mem_append.1 ha with ha | ha
    · exact h.le_cur a ha
    · obtain ⟨_, -, rfl⟩ := mem_map.1 ha
      exact Nat.le_refl _

theorem Link.quiet (h : Link cur ((j, c) :: line) replies accepted) : Link cur line replies accepted := by
  have hsub : List.Sublist (tags line replies) (tags ((j, c) :: line) replies) :=
    (List.Sublist.refl _).append (sublist_cons_self _ _)
  exact ⟨h.sorted.sublist hsub, fun a ha => h.le_cur a (hsub.subset ha), h.acks, h.cur_le, h.accepted_le⟩

theorem tags_reply : tags line (replies ++ [(j, r)]) = tags ((j, c) :: line) replies := by
  simp [tags]

theorem Link.nack (h : Link cur ((j, c) :: line) replies accepted) (n : Nat) : Link cur line (replies ++ [(j, .nack n)]) accepted := by
  refine ⟨tags_reply ▸ h.sorted, tags_reply ▸ h.le_cur, ?_, h.cur_le, h.accepted_le⟩
  intro i m hi
  exact h.acks i m (by simpa using hi)

theorem Link.ack (h : Link cur ((j, c) :: line) replies accepted) (hj : accepted ≤ j + 1) :
    Link cur line (replies ++ [(j, .ack (j % 64))]) (j + 1) := by
  have hle : j ≤ cur := h.le_cur j (by simp [tags])
  have hcur := h.cur_le
  refine ⟨tags_reply ▸ h.sorted, tags_reply ▸ h.le_cur, ?_, by omega, by omega⟩
  intro i m hi
  rcases mem_append.1 hi with hi | hi
  · obtain ⟨hm, hi, hlt⟩ := h.acks i m hi
    exact ⟨hm, hi, by omega⟩
  · obtain ⟨rfl, rfl⟩ : i = j ∧ m = j % 64 := by simpa using hi
    exact ⟨rfl, by omega, by omega⟩

theorem Link.lose (h : Link cur line ((j, r) :: replies) accepted) : Link cur line replies accepted := by
  have hsub : List.Sublist (tags line replies) (tags line ((j, r) :: replies)) := sublist_cons_self _ _
  exact ⟨h.sorted.sublist hsub, fun a ha => h.le_cur a (hsub.subset ha), fun i m hi => h.acks i m (mem_cons_of_mem _ hi), h.cur_le,
    h.accepted_le⟩

theorem Link.take (h : Link cur line ((j, .ack (cur % 64)) :: replies) accepted) : Link (cur + 1) line replies accepted := by
  obtain ⟨hmod, hcur, hlt⟩ := h.acks j _ (mem_cons_self ..)
  have hle := h.le_cur j (by simp [tags])
  obtain rfl : j = cur := by omega
  have hsorted : (j :: tags line replies).Pairwise (· ≤ ·) := h.sorted
  refine ⟨h.lose.sorted, fun a ha => Nat.le_succ_of_le (h.lose.le_cur a ha), ?_, hlt, Nat.le_succ_of_le h.accepted_le⟩
  intro i m hi
  obtain ⟨hm, -, hi'⟩ := h.lose.acks i m hi
  have hji : j ≤ i := (pairwise_cons.1 hsorted).1 i (mem_append_left _ (mem_map_of_mem hi))
  exact ⟨hm, Nat.succ_le_succ hji, hi'⟩

end

/-! ## The receiver -/

variable {consumed : List UInt8} {r : KRecv}

/-- The receiver has read the sequence number of packet `l` last, and has acknowledged `m` packets. -/
def Held (t : KTransfer) (start l m : Nat) (r : KRecv) : Prop :=
  (l ≤ m ∧ m ≤ l + 1) ∧ (r.lastN = some (l % 64) ∨ r.lastN = none ∧ m = 0) ∧ r.binStart = start ∧
    (0 < m → r.hisQuote = t.quote) ∧ r.escapeSaved = false ∧ r.addrSaved = start + (before t l).length ∧
    Stored r.mem start (before t l)

/-- Between packets: the address is behind what was acknowledged, unless acknowledged data were undone. -/
def Ready (t : KTransfer) (start l m : Nat) (damaged : Bool) (r : KRecv) : Prop :=
  r.escape = false ∧ (l = m → r.addr = r.addrSaved) ∧ (l + 1 = m → (damaged = true → ∀ p, t.packets[l]? = some p → p.content = []) →
      r.addr = start + (before t m).length ∧ Stored r.mem start (before t m))

/-- The receiver has come from a start character by the characters it has consumed. -/
def InPacket (consumed : List UInt8) (r : KRecv) : Prop :=
  ∃ o : KRecv, o.place = .length ∧ o.sum = 0 ∧ o.escape = false ∧ o.escapeSaved = false ∧ o.sendParms = [] ∧ o.hisQuote = r.hisQuote ∧
    r = feed o consumed

/-- What holds at each place. -/
def PlaceInv (t : KTransfer) (start l m : Nat) (damaged : Bool) (consumed : List UInt8) (r : KRecv) : Prop :=
  match r.place with
  | .returned size => m = t.packets.length → size = t.file.length ∧ Stored r.mem start t.file
  | .start => m < t.packets.length ∧ Ready t start l m damaged r ∧ r.sendParms = []
  | .length | .seq => m < t.packets.length ∧ Ready t start l m damaged r ∧ InPacket consumed r
  | _ => m < t.packets.length ∧ r.lastN = some (l % 64) ∧ r.addrSaved ≤ r.addr ∧ InPacket consumed r

theorem InPacket.step (h : InPacket consumed r) {c : UInt8}
    (hq : (r.step c).1.hisQuote = r.hisQuote) : InPacket (consumed ++ [c]) (r.step c).1 := by
  obtain ⟨o, h1, h2, h3, h4, h5, h6, rfl⟩ := h
  exact ⟨o, h1, h2, h3, h4, h5, h6.trans hq.symm, by rw [feed_append]; rfl⟩

theorem placeInv_inside {t : KTransfer} {start l m : Nat} {damaged : Bool} (h : Inside r.place) :
    PlaceInv t start l m damaged consumed r ↔ m < t.packets.length ∧ r.lastN = some (l % 64) ∧ r.addrSaved ≤ r.addr ∧ InPacket consumed r := by
  unfold PlaceInv
  split
  all_goals rename_i hplace
  · simp [hplace, Inside] at h
  · simp [hplace, Inside] at h
  · simp [hplace, Inside] at h
  · simp [hplace, Inside] at h
  · exact Iff.rfl

section

variable {t : KTransfer} {start l m : Nat} {damaged : Bool} {consumed : List UInt8} {r : KRecv}
variable {j : Nat} {p : KPacket} {o : KRecv}

theorem ready_packetError (h : Held t start l m r) : Ready t start l m true r.packetError.1 := by
  obtain ⟨-, -, -, -, hes, haddr, hstored⟩ := h
  refine ⟨hes, fun _ => rfl, ?_⟩
  rintro rfl hempty
  rw [before_succ_of_empty (hempty rfl)]
  exact ⟨haddr, hstored⟩

theorem held_packetError (h : Held t start l m r) : Held t start l m r.packetError.1 := h

theorem placeInv_packetError (hm : m < t.packets.length) (h : Held t start l m r) :
    PlaceInv t start l m true consumed r.packetError.1 := ⟨hm, ready_packetError h, rfl⟩

theorem held_takeSeq (h : Held t start l m r) (hready : Ready t start l m damaged r) (hlj : l ≤ j) (hjm : j ≤ m)
    (hundone : r.lastN ≠ some (j % 64) → damaged = true → ∀ p, t.packets[m - 1]? = some p → p.content = []) :
    Held t start j m (r.takeSeq (j % 64)) := by
  obtain ⟨⟨hlm, hml⟩, hlast, hstart, hq, hes, haddr, hstored⟩ := h
  obtain ⟨he, hsame, hnext⟩ := hready
  unfold KRecv.takeSeq
  dsimp only
  split
  · rename_i hrep
    have hj : j = l := by
      rcases hlast with hlast | ⟨hlast, -⟩
      · rw [hlast] at hrep
        have := some.inj hrep
        omega
      · rw [hlast] at hrep
        cases hrep
    subst hj
    exact ⟨⟨hjm, hml⟩, Or.inl hrep, hstart, hq, hes, haddr, hstored⟩
  · rename_i hnew
    have hj : j = m := by
      rcases hlast with hlast | ⟨-, rfl⟩
      · rcases Nat.eq_or_lt_of_le hlj with rfl | hlt
        · exact absurd hlast hnew
        · omega
      · exact Nat.le_zero.1 hjm
    subst hj
    refine ⟨⟨Nat.le_refl _, Nat.le_succ _⟩, Or.inl rfl, hstart, hq, he, ?_⟩
    rcases Nat.eq_or_lt_of_le hlm with rfl | hlt
    · exact ⟨(hsame rfl).trans haddr, hstored⟩
    · obtain rfl : l + 1 = j := by omega
      exact hnext rfl (hundone hnew)

theorem arrived_of_inPacket (hin : InPacket consumed r) (hq : 0 < m → r.hisQuote = t.quote) (hjm : j ≤ m)
    (hp : t.packets[j]? = some p) (hbody : consumed ++ [END_CHAR] = p.body t.quote j) : ∃ o, Arrived t.quote j p o r := by
  obtain ⟨o, hplace, hsum, he, hes, hparms, hquote, rfl⟩ := hin
  have hconsumed : consumed = p.header t.quote j ++ p.text t.quote ++ [checkChar (KPacket.charSum (p.header t.quote j ++ p.text t.quote))] := by
    apply append_cancel_right
    rw [hbody, KPacket.body]
    simp
  obtain ⟨hok, hdata⟩ := packets_ok hp
  refine ⟨o, ?_⟩
  rw [hconsumed]
  apply arrived (quoteOk t) hok hdata hplace hsum he hes hparms
  rintro chunk long rfl
  rcases packets_get hp with ⟨-, -, hsend⟩ | ⟨hj, -⟩ | ⟨-, -, hbreak⟩
  · cases hsend
  · exact hquote.trans (hq (Nat.lt_of_lt_of_le hj hjm))
  · cases hbreak

theorem stored_arrived (h : Held t start l m r) (harr : Arrived t.quote l p o r)
    (hp : t.packets[l]? = some p) : r.addr = start + (before t (l + 1)).length ∧ Stored r.mem start (before t (l + 1)) := by
  obtain ⟨-, -, -, -, -, haddr, hstored⟩ := h
  rw [before_succ hp, length_append, ← Nat.add_assoc, ← haddr, stored_append, ← haddr]
  refine ⟨harr.addr, hstored, ?_⟩
  rw [harr.mem]
  exact stored_store _ _ _

theorem accept_spec (h : Held t start l m r) (harr : Arrived t.quote l p o r)
    (hp : t.packets[l]? = some p) (cs : List UInt8) :
    r.accept.2 = some (.ack (l % 64)) ∧ Held t start l (l + 1) r.accept.1 ∧ PlaceInv t start l (l + 1) false cs r.accept.1 := by
  obtain ⟨haddr, hstored⟩ := stored_arrived h harr hp
  obtain ⟨⟨hlm, hml⟩, -, hstart, hq, hes, hsaved, hbefore⟩ := h
  have hrange : l ≤ l + 1 ∧ l + 1 ≤ l + 1 := ⟨Nat.le_succ l, Nat.le_refl _⟩
  have hne : ¬l = l + 1 := Nat.ne_of_lt (Nat.lt_succ_self l)
  rcases packets_get hp with ⟨hl, hlen, rfl⟩ | ⟨hl, hlen, hmid⟩ | ⟨hl, hlen, rfl⟩
  · have hk : r.kState = SEND_TYPE := harr.kState
    have hquote : KRecv.parmQuote r.sendParms = t.quote := by
      rw [harr.sendParms rfl]
      exact t.parms_quote
    rw [KRecv.accept, if_pos hk, harr.n]
    exact ⟨rfl, ⟨hrange, Or.inl harr.lastN, hstart, fun _ => hquote, hes, hsaved, hbefore⟩, hlen,
      ⟨harr.escape, fun h => absurd h hne, fun _ _ => ⟨haddr, hstored⟩⟩, rfl⟩
  · obtain ⟨-, hsend, hbreak, -⟩ := t.middle_ok p hmid
    have hquote : r.hisQuote = t.quote := hq (Nat.lt_of_lt_of_le hl hlm)
    rw [KRecv.accept, harr.kState, if_neg hsend, if_neg hbreak, harr.n]
    exact ⟨rfl, ⟨hrange, Or.inl harr.lastN, hstart, fun _ => hquote, hes, hsaved, hbefore⟩, hlen,
      ⟨harr.escape, fun h => absurd h hne, fun _ _ => ⟨haddr, hstored⟩⟩, rfl⟩
  · have hk : r.kState = BREAK_TYPE := harr.kState
    have hquote : r.hisQuote = t.quote := hq (Nat.lt_of_lt_of_le hl hlm)
    rw [hlen, before_length] at haddr hstored
    rw [KRecv.accept, hk, if_neg (by decide), if_pos rfl, harr.n]
    refine ⟨rfl, ⟨hrange, Or.inl harr.lastN, hstart, fun _ => hquote, hes, hsaved, hbefore⟩, fun _ => ⟨?_, hstored⟩⟩
    rw [haddr, hstart, Nat.add_sub_cancel_left]

end

/-! ## The system -/

/-- The invariant of the system. -/
def Inv (t : KTransfer) (start : Nat) (s : KSys) : Prop :=
  ∃ l, Link s.cur s.line s.replies s.accepted ∧ (∀ x ∈ s.line, l ≤ x.1) ∧ l ≤ s.cur ∧ Held t start l s.accepted s.recv ∧
    PlaceInv t start l s.accepted s.damaged s.consumed s.recv

theorem inv_init (t : KTransfer) (start : Nat) (mem : Nat → UInt8) : Inv t start (KSys.init start mem) := by
  refine ⟨0, ⟨List.Pairwise.nil, ?_, ?_, Nat.le_refl _, Nat.zero_le _⟩, ?_, Nat.le_refl _,
    ⟨⟨Nat.le_refl _, Nat.zero_le _⟩, Or.inr ⟨rfl, rfl⟩, rfl, fun h => absurd h (Nat.lt_irrefl 0), rfl, rfl, stored_nil _ _⟩, ?_⟩
  · intro j hj
    cases hj
  · intro j n hj
    cases hj
  · intro x hx
    cases hx
  · refine ⟨?_, ⟨rfl, fun _ => rfl, ?_⟩, rfl⟩
    · simp [KTransfer.packets, KSys.init]
    · intro h
      cases h

section

variable {t : KTransfer} {start l j : Nat} {c : UInt8} {line : List (Nat × UInt8)} {s : KSys}
variable {replies : List (Nat × KReply)}

theorem Link.behind {cur accepted : Nat} (h : Link cur ((j, c) :: line) replies accepted) :
    ∀ x ∈ line, j ≤ x.1 := by
  intro x hx
  have hsorted := (pairwise_append.1 h.sorted).2.1
  exact (pairwise_cons.1 hsorted).1 x.1 (mem_map_of_mem hx)

theorem inv_quiet (hlink : Link s.cur ((j, c) :: line) s.replies s.accepted) {l' : Nat} (hl' : l' ≤ j) {r : KRecv}
    (hstep : s.recv.step c = (r, none)) (hheld : Held t start l' s.accepted r)
    (hplace : PlaceInv t start l' s.accepted s.damaged (consume s.recv.place s.consumed c) r) : Inv t start (s.read j c line) := by
  have hcur : j ≤ s.cur := hlink.le_cur j (by simp [tags])
  rw [KSys.read, hstep]
  exact ⟨l', hlink.quiet, fun x hx => Nat.le_trans hl' (hlink.behind x hx), Nat.le_trans hl' hcur, hheld, hplace⟩

theorem inv_nack (hlink : Link s.cur ((j, c) :: line) s.replies s.accepted) (hlj : l ≤ j) (hstep : s.recv.step c = s.recv.packetError)
    (hm : s.accepted < t.packets.length) (hheld : Held t start l s.accepted s.recv) : Inv t start (s.read j c line) := by
  have hcur : j ≤ s.cur := hlink.le_cur j (by simp [tags])
  rw [KSys.read, hstep]
  exact ⟨l, hlink.nack _, fun x hx => Nat.le_trans hlj (hlink.behind x hx), Nat.le_trans hlj hcur, held_packetError hheld,
    placeInv_packetError hm hheld⟩

theorem inv_accept (hlink : Link s.cur ((j, c) :: line) s.replies s.accepted) (hlj : l ≤ j) (hstep : s.recv.step c = s.recv.accept)
    (hheld : Held t start l s.accepted s.recv) (hlast : s.recv.lastN = some (l % 64)) (hin : InPacket s.consumed s.recv) {p : KPacket}
    (hp : t.packets[j]? = some p) (hbody : s.consumed ++ [END_CHAR] = p.body t.quote j) : Inv t start (s.read j c line) := by
  have hcur : j ≤ s.cur := hlink.le_cur j (by simp [tags])
  have hcm := hlink.cur_le
  have hml := hheld.1.2
  obtain ⟨o, harr⟩ := arrived_of_inPacket hin hheld.2.2.2.1 (Nat.le_trans hcur hcm) hp hbody
  have hjl : j = l := by
    have hmod := some.inj (harr.lastN.symm.trans hlast)
    omega
  subst hjl
  obtain ⟨hack, hheld', hplace'⟩ := accept_spec hheld harr hp (consume s.recv.place s.consumed c)
  have hmax : max s.accepted (j + 1) = j + 1 := Nat.max_eq_right hml
  rw [KSys.read, hstep, hack]
  dsimp only
  rw [hmax]
  exact ⟨j, hlink.ack hml, hlink.behind, hcur, hheld', hplace'⟩

/-- The receiver waits for a start character. -/
theorem inv_read_start (hlink : Link s.cur ((j, c) :: line) s.replies s.accepted) (hlj : l ≤ j) (hplace : s.recv.place = .start)
    (hheld : Held t start l s.accepted s.recv) (hm : s.accepted < t.packets.length)
    (hready : Ready t start l s.accepted s.damaged s.recv) (hparms : s.recv.sendParms = []) : Inv t start (s.read j c line) := by
  have hes := hheld.2.2.2.2.1
  by_cases hstart : c = START_CHAR
  · have hstep : s.recv.step c = ({ s.recv with place := .length, sum := 0 }, none) := by
      rw [KRecv.step, hplace]
      simp only [if_pos hstart]
    refine inv_quiet hlink hlj hstep hheld ⟨hm, hready, ?_⟩
    rw [consume, if_pos hplace]
    exact ⟨{ s.recv with place := .length, sum := 0 }, rfl, rfl, hready.1, hes, hparms, rfl, rfl⟩
  · by_cases hetx : c = ETX_CHAR
    · have hstep : s.recv.step c = ({ s.recv with place := .returned 0 }, none) := by
        rw [KRecv.step, hplace]
        simp only [if_neg hstart, if_pos hetx]
      exact inv_quiet hlink hlj hstep hheld (fun h => absurd h (Nat.ne_of_lt hm))
    · have hstep : s.recv.step c = (s.recv, none) := by
        rw [KRecv.step, hplace]
        simp only [if_neg hstart, if_neg hetx]
      refine inv_quiet hlink hlj hstep hheld ?_
      rw [PlaceInv, hplace]
      exact ⟨hm, hready, hparms⟩

theorem inv_read_length (hlink : Link s.cur ((j, c) :: line) s.replies s.accepted) (hlj : l ≤ j) (hplace : s.recv.place = .length)
    (hheld : Held t start l s.accepted s.recv) (hm : s.accepted < t.packets.length)
    (hready : Ready t start l s.accepted s.damaged s.recv) (hin : InPacket s.consumed s.recv) : Inv t start (s.read j c line) := by
  by_cases hc : belowSpace c
  · refine inv_nack hlink hlj ?_ hm hheld
    rw [KRecv.step, hplace]
    simp only [if_pos hc]
  · have hstep : s.recv.step c = ({ s.recv.addSum c with length := untochar c, place := .seq }, none) := by
      rw [KRecv.step, hplace]
      simp only [if_neg hc]
    refine inv_quiet hlink hlj hstep hheld ⟨hm, hready, ?_⟩
    have hin' := hin.step (c := c) (by rw [hstep]; rfl)
    rw [hstep] at hin'
    rw [consume, if_neg (by simp [hplace])]
    exact hin'

/-- The receiver waits for the sequence number. -/
theorem inv_read_seq (hlink : Link s.cur ((j, c) :: line) s.replies s.accepted) (hlj : l ≤ j) (hplace : s.recv.place = .seq)
    (hheld : Held t start l s.accepted s.recv) (hm : s.accepted < t.packets.length)
    (hready : Ready t start l s.accepted s.damaged s.recv) (hin : InPacket s.consumed s.recv)
    (hseq : ¬belowSpace c → c = tochar (j % 64))
    (hundone : ¬belowSpace c → s.recv.lastN ≠ some (untochar c) → s.damaged = true →
      ∀ p, t.packets[s.accepted - 1]? = some p → p.content = []) : Inv t start (s.read j c line) := by
  by_cases hc : belowSpace c
  · refine inv_nack hlink hlj ?_ hm hheld
    rw [KRecv.step, hplace]
    simp only [if_pos hc]
  · have hn : untochar c = j % 64 := by
      rw [hseq hc]
      exact untochar_seq j
    have hstep : s.recv.step c = ((s.recv.addSum c).takeSeq (j % 64), none) := by
      rw [KRecv.step, hplace, hn]
      simp only [if_neg hc]
    have hjm : j ≤ s.accepted := Nat.le_trans (hlink.le_cur j (by simp [tags])) hlink.cur_le
    have hheld' := held_takeSeq (r := s.recv.addSum c) hheld hready hlj hjm (hn ▸ hundone hc)
    have hbegun := begun_takeSeq (s := s.recv.addSum c) hready.1 hheld.2.2.2.2.1 j 0 0
    refine inv_quiet hlink (Nat.le_refl j) hstep hheld' ?_
    have htype : ((s.recv.addSum c).takeSeq (j % 64)).place = .type := by
      simp only [KRecv.takeSeq, apply_ite KRecv.place]
      exact ite_self _
    have hin' := hin.step (c := c) (by rw [hstep]; exact hbegun.hisQuote)
    rw [hstep] at hin'
    rw [placeInv_inside (by rw [htype]; trivial), consume, if_neg (by simp [hplace])]
    exact ⟨hm, hbegun.lastN, Nat.le_of_eq hbegun.addr.symm, hin'⟩

theorem inv_read_inside (hlink : Link s.cur ((j, c) :: line) s.replies s.accepted) (hlj : l ≤ j) (hplace : Inside s.recv.place)
    (hheld : Held t start l s.accepted s.recv) (hinv : PlaceInv t start l s.accepted s.damaged s.consumed s.recv)
    (hend : s.recv.place = .end_ → c = END_CHAR → ∃ p, t.packets[j]? = some p ∧ s.consumed ++ [c] = p.body t.quote j) :
    Inv t start (s.read j c line) := by
  obtain ⟨hm, hlast, haddr, hin⟩ := (placeInv_inside hplace).1 hinv
  rcases step_inside hplace c with herr | ⟨r, hstep, ⟨⟨h1, h2, h3, h4, h5⟩, hle, hmem⟩, hplace'⟩ | ⟨hp, hc, hacc⟩
  · exact inv_nack hlink hlj herr hm hheld
  · obtain ⟨hrange, hlast', hstart, hq, hes, hsaved, hstored⟩ := hheld
    have hheld' : Held t start l s.accepted r := by
      refine ⟨hrange, h1 ▸ hlast', h5.trans hstart, fun h => h4.trans (hq h), h3.trans hes, h2.trans hsaved, ?_⟩
      intro i x hx
      have hi := (List.getElem?_eq_some_iff.1 hx).1
      rw [hmem (start + i) (by omega)]
      exact hstored i x hx
    refine inv_quiet hlink hlj hstep hheld' ?_
    have hin' := hin.step (c := c) (by rw [hstep]; exact h4)
    rw [hstep] at hin'
    have hne : s.recv.place ≠ .start := by
      intro h
      rw [h] at hplace
      exact hplace
    rw [placeInv_inside hplace', consume, if_neg hne]
    exact ⟨hm, h1.trans hlast, by omega, hin'⟩
  · obtain ⟨p, hget, hbody⟩ := hend hp hc
    subst hc
    exact inv_accept hlink hlj hacc hheld hlast hin hget hbody

theorem inv_read (hline : s.line = (j, c) :: line) (hinv : Inv t start s) (hok : LineOk t s .read) (hundone : NothingUndone t s .read) :
    Inv t start (s.read j c line) := by
  obtain ⟨l, hlink, hge, hcur, hheld, hplace⟩ := hinv
  rw [hline] at hlink
  have hlj : l ≤ j := hge (j, c) (by simp [hline])
  have hhead : (j, c) ∈ s.line.head? := by simp [hline]
  obtain ⟨hseq, hend⟩ := hok (j, c) hhead
  rcases hp : s.recv.place with _ | _ | _ | _ | _ | _ | _ | _ | _ | _ | size
  · have h := hplace
    rw [PlaceInv, hp] at h
    exact inv_read_start hlink hlj hp hheld h.1 h.2.1 h.2.2
  · have h := hplace
    rw [PlaceInv, hp] at h
    exact inv_read_length hlink hlj hp hheld h.1 h.2.1 h.2.2
  · have h := hplace
    rw [PlaceInv, hp] at h
    exact inv_read_seq hlink hlj hp hheld h.1 h.2.1 h.2.2 (hseq hp) (hundone (j, c) hhead hp)
  iterate 7 exact inv_read_inside hlink hlj (by rw [hp]; trivial) hheld hplace hend
  · have hstep : s.recv.step c = (s.recv, none) := by
      rw [KRecv.step, hp]
    refine inv_quiet hlink hlj hstep hheld ?_
    rw [PlaceInv, hp] at hplace ⊢
    exact hplace

theorem inv_step {s' : KSys} {e : KEvent} (hinv : Inv t start s) (hok : LineOk t s e) (hundone : NothingUndone t s e)
    (h : kStep t s e = some s') : Inv t start s' := by
  cases e with
  | send delivered =>
    simp only [kStep] at h
    split at h
    · obtain rfl := some.inj h
      obtain ⟨l, hlink, hge, hcur, hheld, hplace⟩ := hinv
      refine ⟨l, hlink.send delivered, ?_, hcur, hheld, hplace⟩
      intro x hx
      rcases mem_append.1 hx with hx | hx
      · exact hge x hx
      · obtain ⟨_, -, rfl⟩ := mem_map.1 hx
        exact hcur
    · cases h
  | read =>
    simp only [kStep] at h
    split at h
    · cases h
    · rename_i j c line hline
      obtain rfl := some.inj h
      exact inv_read hline hinv hok hundone
  | lose =>
    simp only [kStep] at h
    split at h
    · cases h
    · rename_i reply replies hreplies
      obtain rfl := some.inj h
      obtain ⟨l, hlink, hge, hcur, hheld, hplace⟩ := hinv
      rw [hreplies] at hlink
      exact ⟨l, hlink.lose, hge, hcur, hheld, hplace⟩
  | take =>
    simp only [kStep] at h
    split at h
    · cases h
    · rename_i i reply replies hreplies
      obtain rfl := some.inj h
      obtain ⟨l, hlink, hge, hcur, hheld, hplace⟩ := hinv
      rw [hreplies] at hlink
      by_cases hack : reply = .ack (s.cur % 64)
      · subst hack
        simp only [KSys.take, if_true]
        exact ⟨l, hlink.take, hge, Nat.le_succ_of_le hcur, hheld, hplace⟩
      · simp only [KSys.take, if_neg hack]
        exact ⟨l, hlink.lose, hge, hcur, hheld, hplace⟩

end

end KermitAux

/-- If no acknowledged data are undone, a download that ends with an acknowledged break packet returns the length of the file, and the bytes
of the file are in memory. -/
theorem k_recv_receives (t : KTransfer) (binStart : Nat) (mem : Nat → UInt8) (events : List KEvent) (s : KSys)
    (h : Exec (Guarded (fun s e => LineOk t s e ∧ NothingUndone t s e) (stepOf (kStep t))) (KSys.init binStart mem) events s)
    (hbreak : s.accepted = t.packets.length) :
    s.recv.place = .returned t.file.length ∧ Stored s.recv.mem binStart t.file := by
  have hinv : KermitAux.Inv t binStart s := by
    refine h.invariant ?_ (KermitAux.inv_init t binStart mem)
    intro s i s' hs hstep
    exact KermitAux.inv_step hs hstep.1.1 hstep.1.2 hstep.2
  obtain ⟨l, -, -, -, -, hplace⟩ := hinv
  unfold KermitAux.PlaceInv at hplace
  split at hplace
  · rename_i size hp
    obtain ⟨rfl, hstored⟩ := hplace hbreak
    exact ⟨hp, hstored⟩
  all_goals exact absurd hbreak (Nat.ne_of_lt hplace.1)

namespace KermitAux

/-- A file of two bytes in two packets. -/
def twoBytes : KTransfer where
  quote := K_ESCAPE
  quote_ok := by decide
  parms := []
  parms_quote := rfl
  middle := [.data [0x41] false, .data [0x42] true]
  middle_ok := by
    intro p hp
    simp only [mem_cons, not_mem_nil, or_false] at hp
    rcases hp with rfl | rfl
    · exact ⟨⟨by decide, by simp, by decide⟩, by decide, by decide, by simp⟩
    · exact ⟨⟨by decide, by simp, by decide⟩, by decide, by decide, by simp⟩
  parms_ok := by
    refine ⟨by decide, ?_, by decide⟩
    rintro type text long h
    cases h
    simp

/-- The line delivers some characters for the packet, the receiver reads them, and the sender takes the reply. -/
def exchange (cs : List UInt8) : List KEvent := .send cs :: List.replicate cs.length .read ++ [.take]

/-- The packet with the number `j` arrives. -/
def whole (j : Nat) : List KEvent := exchange (START_CHAR :: (twoBytes.packets[j]?.map (KPacket.body K_ESCAPE j)).getD [])

/-- The second data packet is damaged behind its sequence number and sent again. -/
def damagedLate : List KEvent := whole 0 ++ whole 1 ++ exchange [START_CHAR, 0x20, 0x22, 0x44, 0x00] ++ whole 2 ++ whole 3

/-- The second data packet is damaged in its length and sent again. -/
def damagedEarly : List KEvent := whole 0 ++ whole 1 ++ exchange [START_CHAR, 0x00] ++ whole 2 ++ whole 3

end KermitAux

open KermitAux in
theorem k_recv_receives_again : ∃ s, Exec (Guarded (fun s e => LineOk twoBytes s e ∧ NothingUndone twoBytes s e) (stepOf (kStep twoBytes)))
      (KSys.init 0x1000 fun _ => 0) damagedLate s ∧ s.accepted = twoBytes.packets.length ∧
      s.recv.place = .returned twoBytes.file.length ∧ Stored s.recv.mem 0x1000 twoBytes.file := by
  obtain ⟨s, hs⟩ := isSome_iff_exists.1 (show (damagedLate.foldlM
    (fun s e => if LineOk twoBytes s e ∧ NothingUndone twoBytes s e then kStep twoBytes s e else none)
    (KSys.init 0x1000 fun _ => 0)).isSome from by decide)
  have hbreak : s.accepted = twoBytes.packets.length := by
    have := congrArg (Option.map KSys.accepted) hs
    exact some.inj (this.symm.trans (by decide))
  have hrun := Exec.of_guarded_foldlM hs
  exact ⟨s, hrun, hbreak, k_recv_receives twoBytes 0x1000 _ damagedLate s hrun hbreak⟩

open KermitAux in
/-- A packet error in front of the sequence number undoes the packet before, which was acknowledged. -/
theorem k_recv_receives_false : ¬∀ (t : KTransfer) (binStart : Nat) (mem : Nat → UInt8) (events : List KEvent) (s : KSys),
    Exec (Guarded (LineOk t) (stepOf (kStep t))) (KSys.init binStart mem) events s → s.accepted = t.packets.length →
      s.recv.place = .returned t.file.length ∧ Stored s.recv.mem binStart t.file := by
  intro h
  obtain ⟨s, hs⟩ := isSome_iff_exists.1 (show (damagedEarly.foldlM
    (fun s e => if LineOk twoBytes s e then kStep twoBytes s e else none) (KSys.init 0x1000 fun _ => 0)).isSome from by decide)
  have hend : (s.accepted, s.recv.place) = (twoBytes.packets.length, .returned 1) := by
    have := congrArg (Option.map fun s => (s.accepted, s.recv.place)) hs
    exact some.inj (this.symm.trans (by decide))
  obtain ⟨hbreak, hplace⟩ := Prod.mk.inj hend
  have hsize := (h twoBytes 0x1000 _ damagedEarly s (Exec.of_guarded_foldlM hs) hbreak).1
  rw [hplace] at hsize
  exact absurd hsize (by decide)

end UBoot
