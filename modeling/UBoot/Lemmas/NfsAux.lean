import UBoot.Nfs

/-!
# Steps of the NFS client

What the parsers and `NfsSend` can do, for any packet and in any state.
-/

namespace UBoot

open Lib List Option

/-- What `NfsSend` asks for. -/
def Nfs.request (c : Nfs) : NfsRequest :=
  match c.state with
  | .prclookupProgMount => .getport .mount
  | .prclookupProgNfs => .getport .nfs
  | .mount => .mount c.path
  | .umount => .umountAll
  | .lookup => .lookup c.dirfh c.filename
  | .read => .read c.filefh c.offset c.len
  | .readlink => .readlink c.filefh

namespace NfsAux

variable {c c' : Nfs} {out : List NfsCall} {b pkt : List UInt8} {words : List Nat} {keep : List UInt8 → Option Nfs}
  {len i n : Nat} {r : Int} {id : UInt32}
variable {offset : Nat} {bs : List UInt8} {w : UInt32}

/-! ## Words and bytes -/

theorem replyBytes_eq_some (h : replyBytes b offset n = some bs) :
    offset + n ≤ b.length ∧ bs = (b.drop offset).take n := by
  unfold replyBytes at h
  split at h
  · rename_i hle
    exact ⟨hle, (some.inj h).symm⟩
  · cases h

theorem replyBytes_of_le (h : offset + n ≤ b.length) : replyBytes b offset n = some ((b.drop offset).take n) :=
  if_pos h

theorem replyBytes_append (h : replyBytes b offset n = some bs) (rest : List UInt8) :
    replyBytes (b ++ rest) offset n = some bs := by
  obtain ⟨hle, rfl⟩ := replyBytes_eq_some h
  have hle' : offset + n ≤ (b ++ rest).length := by
    rw [length_append]
    omega
  rw [replyBytes_of_le hle', drop_append_of_le_length (by omega), take_append_of_le_length]
  rw [length_drop]
  omega

theorem replyWord_eq_some_iff :
    replyWord b i = some w ↔ ∃ a₀ a₁ a₂ a₃ rest, b.drop (4 * i) = a₀ :: a₁ :: a₂ :: a₃ :: rest ∧ ntohl a₀ a₁ a₂ a₃ = w := by
  unfold replyWord
  constructor
  · intro h
    split at h
    · rename_i a₀ a₁ a₂ a₃ rest he
      exact ⟨a₀, a₁, a₂, a₃, rest, he, some.inj h⟩
    · cases h
  · rintro ⟨a₀, a₁, a₂, a₃, rest, he, rfl⟩
    rw [he]

theorem replyWord_append (h : replyWord b i = some w) (rest : List UInt8) : replyWord (b ++ rest) i = some w := by
  obtain ⟨a₀, a₁, a₂, a₃, tail, he, hw⟩ := replyWord_eq_some_iff.1 h
  have hlt : 4 * i < b.length := by
    by_contra hge
    rw [drop_of_length_le (by omega)] at he
    cases he
  refine replyWord_eq_some_iff.2 ⟨a₀, a₁, a₂, a₃, tail ++ rest, ?_, hw⟩
  rw [drop_append_of_le_length hlt.le, he]
  rfl

theorem replyWord_of_take (h : replyWord (b.take n) i = some w) : replyWord b i = some w := by
  have h' := replyWord_append h (b.drop n)
  rwa [take_append_drop] at h'

theorem exists_replyWord (h : 4 * i + 4 ≤ b.length) : ∃ w, replyWord b i = some w := by
  have hlen : 4 ≤ (b.drop (4 * i)).length := by
    rw [length_drop]
    omega
  unfold replyWord
  split
  · exact ⟨_, rfl⟩
  · rename_i hne
    match hd : b.drop (4 * i), hlen with
    | a₀ :: a₁ :: a₂ :: a₃ :: rest, _ => exact absurd hd (hne a₀ a₁ a₂ a₃ rest)

theorem rpcCopy_of_le (hlen : len ≤ pkt.length) (hsize : len ≤ RPC_SIZE) : rpcCopy pkt len = some (pkt.take len) := by
  rw [rpcCopy, if_pos hsize, replyBytes_of_le (by omega)]
  rfl

/-! ## The parsers -/

/-- A parser that returns has refused the packet and kept nothing of it, or has accepted it. -/
theorem parseReply_eq_some (h : c.parseReply words keep pkt len = some (r, c')) :
    r = -1 ∧ c' = c ∨ r = 0 ∧ len ≤ pkt.length ∧ c.accepts (pkt.take len) words = some true ∧ keep (pkt.take len) = some c' := by
  unfold Nfs.parseReply at h
  obtain ⟨b, hb, h⟩ := bind_eq_some_iff.1 h
  obtain ⟨ok, hok, h⟩ := bind_eq_some_iff.1 h
  have hb' : len ≤ pkt.length ∧ b = pkt.take len := by
    unfold rpcCopy at hb
    split at hb
    · have := replyBytes_eq_some hb
      exact ⟨by omega, this.2⟩
    · cases hb
  obtain ⟨hle, rfl⟩ := hb'
  cases ok with
  | true =>
    obtain ⟨c₁, hk, he⟩ := map_eq_some_iff.1 h
    obtain ⟨rfl, rfl⟩ := Prod.mk.inj he
    exact Or.inr ⟨rfl, hle, hok, hk⟩
  | false =>
    obtain ⟨rfl, rfl⟩ := Prod.mk.inj (some.inj h)
    exact Or.inl ⟨rfl, rfl⟩

theorem anyNonzero_eq_false (h : anyNonzero b words = some false) : ∀ i ∈ words, replyWord b i = some 0 := by
  induction words with
  | nil => simp
  | cons j js ih =>
    rw [anyNonzero] at h
    obtain ⟨w, hw, hrest⟩ := bind_eq_some_iff.1 h
    split at hrest
    · cases hrest
    · rename_i h0
      rw [not_not] at h0
      intro i hi
      rcases mem_cons.1 hi with rfl | hi
      · exact h0 ▸ hw
      · exact ih hrest i hi

theorem accepts_eq_true (h : c.accepts b words = some true) : replyWord b replyId = some c.rpcId ∧ ∀ i ∈ words, replyWord b i = some 0 := by
  unfold Nfs.accepts at h
  obtain ⟨id, hid, h⟩ := bind_eq_some_iff.1 h
  split at h
  · cases h
  · rename_i hne
    rw [not_not] at hne
    obtain ⟨bad, hbad, hb⟩ := map_eq_some_iff.1 h
    cases bad with
    | false => exact ⟨hne ▸ hid, anyNonzero_eq_false hbad⟩
    | true => cases hb

theorem parseReply_packet {rest : List UInt8} (h : c.parseReply words keep (pkt ++ rest) pkt.length = some (r, c')) : r = -1 ∧ c' = c ∨
    r = 0 ∧ replyWord pkt replyId = some c.rpcId ∧ (∀ i ∈ words, replyWord pkt i = some 0) ∧ keep pkt = some c' := by
  obtain hr | ⟨hr, -, hok, hk⟩ := parseReply_eq_some h
  · exact Or.inl hr
  · rw [take_left] at hok hk
    obtain ⟨hid, hz⟩ := accepts_eq_true hok
    exact Or.inr ⟨hr, hid, hz, hk⟩

theorem accepts_stale (h : replyWord b replyId = some id) (hne : id ≠ c.rpcId) : c.accepts b words = some false := by
  rw [Nfs.accepts, h, bind_some, if_pos hne]

theorem parseReply_stale (hid : replyWord (pkt.take len) replyId = some id) (hne : id ≠ c.rpcId) (hlen : len ≤ pkt.length) :
    c.parseReply words keep pkt len = if len ≤ RPC_SIZE then some (-1, c) else none := by
  split
  · rename_i hsize
    rw [Nfs.parseReply, rpcCopy_of_le hlen hsize, bind_some, accepts_stale hid hne]
    rfl
  · rename_i hsize
    rw [Nfs.parseReply, rpcCopy, if_neg hsize]
    rfl

/-- The words before the first data word, and it, as `nfs_read_reply` sees them. -/
structure ReadHead (pkt : List UInt8) (rstatus verifier astatus status : UInt32) : Prop where
  rstatus : replyWord pkt replyRstatus = some rstatus
  verifier : replyWord pkt replyVerifier = some verifier
  astatus : replyWord pkt replyAstatus = some astatus
  status : replyWord pkt (replyData 0) = some status

/-- What `nfs_read_reply` does with a packet that has the id of the last call. -/
inductive ReadResult (c : Nfs) (pkt : List UInt8) : Int → Nfs → Prop where
  | notExecuted {rstatus verifier astatus status : UInt32} (head : ReadHead pkt rstatus verifier astatus status)
      (h : rstatus ≠ 0 ∨ astatus ≠ 0) : ReadResult c pkt (-9999) c
  | error {verifier status : UInt32} (head : ReadHead pkt 0 verifier 0 status) (h : verifier ≠ 0 ∨ status ≠ 0) :
      ReadResult c pkt (asInt (-status)) c
  | block {rlen : UInt32} {src : List UInt8} (head : ReadHead pkt 0 0 0 0) (hlen : replyWord pkt (replyData 18) = some rlen)
      (hsrc : replyBytes pkt RPC_REPLY_SIZE rlen.toNat = some src) :
      ReadResult c pkt (asInt rlen) (c.storeBlock src c.offset rlen)

/-- `nfs_read_reply` refuses a packet with another id, and takes the others as `ReadResult` says. -/
theorem readReply_eq_some (h : c.readReply pkt = some (r, c')) : r = -1 ∧ c' = c ∧ replyWord pkt replyId ≠ some c.rpcId ∨
    replyWord pkt replyId = some c.rpcId ∧ ReadResult c pkt r c' := by
  unfold Nfs.readReply at h
  obtain ⟨b, hb, h⟩ := bind_eq_some_iff.1 h
  obtain ⟨id, hid, h⟩ := bind_eq_some_iff.1 h
  obtain ⟨hle, hb⟩ := replyBytes_eq_some hb
  rw [drop_zero] at hb
  subst hb
  have hword : ∀ {i w}, replyWord (pkt.take RPC_REPLY_SIZE) i = some w → replyWord pkt i = some w :=
    fun hw => replyWord_of_take hw
  by_cases hne : id ≠ c.rpcId
  · rw [if_pos hne] at h
    obtain ⟨rfl, rfl⟩ := Prod.mk.inj (some.inj h)
    refine Or.inl ⟨rfl, rfl, fun he => hne ?_⟩
    exact some.inj ((hword hid).symm.trans he)
  · rw [if_neg hne] at h
    rw [not_not] at hne
    have hex : ∀ i, i ≤ 24 → ∃ w, replyWord (pkt.take RPC_REPLY_SIZE) i = some w := by
      intro i hi
      refine exists_replyWord ?_
      rw [length_take_of_le (by omega), RPC_REPLY_SIZE]
      omega
    obtain ⟨rstatus, h2⟩ := hex replyRstatus (by decide)
    obtain ⟨verifier, h3⟩ := hex replyVerifier (by decide)
    obtain ⟨astatus, h5⟩ := hex replyAstatus (by decide)
    obtain ⟨status, h6⟩ := hex (replyData 0) (by decide)
    have head : ReadHead pkt rstatus verifier astatus status := ⟨hword h2, hword h3, hword h5, hword h6⟩
    refine Or.inr ⟨hne ▸ hword hid, ?_⟩
    obtain ⟨bad, hbad, h⟩ := bind_eq_some_iff.1 h
    cases bad with
    | true =>
      simp only [if_true, h2, h5, h6, bind_some] at h
      by_cases hr : rstatus ≠ 0
      · rw [if_pos hr] at h
        obtain ⟨rfl, rfl⟩ := Prod.mk.inj (some.inj h)
        exact .notExecuted head (Or.inl hr)
      · rw [if_neg hr] at h
        by_cases ha : astatus ≠ 0
        · rw [if_pos ha] at h
          obtain ⟨rfl, rfl⟩ := Prod.mk.inj (some.inj h)
          exact .notExecuted head (Or.inr ha)
        · rw [if_neg ha] at h
          obtain ⟨rfl, rfl⟩ := Prod.mk.inj (some.inj h)
          rw [not_not] at hr ha
          subst hr ha
          refine .error head ?_
          by_contra hz
          rw [not_or, not_not, not_not] at hz
          simp [anyNonzero, h2, h3, h5, h6, hz.1, hz.2] at hbad
    | false =>
      obtain ⟨rlen, hrlen, h⟩ := bind_eq_some_iff.1 h
      obtain ⟨src, hsrc, h⟩ := bind_eq_some_iff.1 h
      obtain ⟨rfl, rfl⟩ := Prod.mk.inj (some.inj h)
      have hz := anyNonzero_eq_false hbad
      exact .block ⟨hword (hz _ (by simp)), hword (hz _ (by simp)), hword (hz _ (by simp)), hword (hz _ (by simp))⟩ (hword hrlen) hsrc

theorem readReply_stale (hid : replyWord pkt replyId = some id) (hne : id ≠ c.rpcId) {p : Int × Nfs}
    (h : c.readReply pkt = some p) : p = (-1, c) := by
  obtain ⟨hr, hc, -⟩ | ⟨he, -⟩ := readReply_eq_some h
  · exact Prod.ext hr hc
  · exact absurd (some.inj (hid.symm.trans he)) hne

theorem rpcLookupReply_eq_some {prog : RpcProg} (h : c.rpcLookupReply prog pkt len = some (r, c')) :
    ∃ p q, c' = { c with srvMountPort := p, srvNfsPort := q } := by
  obtain ⟨-, rfl⟩ | ⟨-, -, -, hk⟩ := parseReply_eq_some h
  · exact ⟨_, _, rfl⟩
  · cases prog with
    | portmap =>
      obtain rfl := some.inj hk
      exact ⟨_, _, rfl⟩
    | mount =>
      obtain ⟨p, -, rfl⟩ := map_eq_some_iff.1 hk
      exact ⟨_, _, rfl⟩
    | nfs =>
      obtain ⟨p, -, rfl⟩ := map_eq_some_iff.1 hk
      exact ⟨_, _, rfl⟩

/-! ## NfsSend -/

/-- `NfsSend` sends what its state asks for under a new id, or has nothing to unmount. -/
theorem send_cases (h : c.send = some (c', out)) : c.state = .umount ∧ c' = c ∧ out = [] ∨
    c' = { c with rpcId := c.rpcId + 1 } ∧ ∃ ip port, out = [⟨ip, port, c.rpcId + 1, c.request⟩] := by
  have hreq : ∀ r, c.rpcReq r = some (c', out) → c' = { c with rpcId := c.rpcId + 1 } ∧ ∃ ip port, out = [⟨ip, port, c.rpcId + 1, r⟩] := by
    intro r hr
    unfold Nfs.rpcReq at hr
    split at hr
    · obtain ⟨rfl, rfl⟩ := Prod.mk.inj (some.inj hr)
      exact ⟨rfl, _, _, rfl⟩
    · cases hr
  cases hs : c.state with
  | umount =>
    have hr : c.request = .umountAll := by rw [Nfs.request, hs]
    have hu : c.umountallReq = some (c', out) := by rwa [Nfs.send, hs] at h
    unfold Nfs.umountallReq at hu
    split at hu
    · obtain ⟨rfl, rfl⟩ := Prod.mk.inj (some.inj hu)
      exact Or.inl ⟨rfl, rfl, rfl⟩
    · exact Or.inr (hr ▸ hs ▸ hreq _ hu)
  | _ =>
    right
    have hr : c.send = c.rpcReq c.request := by simp only [Nfs.send, Nfs.request, hs]
    exact hs ▸ hreq _ (hr ▸ h)

theorem send_eq (h : c.send = some (c', out)) : ∃ id, c' = { c with rpcId := id } := by
  rcases send_cases h with ⟨-, rfl, -⟩ | ⟨rfl, -⟩
  · exact ⟨c'.rpcId, rfl⟩
  · exact ⟨c.rpcId + 1, rfl⟩

/-! ## NfsHandler -/

section Handler

variable (pkt : List UInt8) (len : Nat)

theorem handler_prclookupProgMount (hs : c.state = .prclookupProgMount) :
    c.handler pkt c.ourPort len = (c.rpcLookupReply .mount pkt len).bind fun r => r.2.goto .prclookupProgNfs := by
  rw [Nfs.handler, if_neg (not_not.2 rfl), hs]

theorem handler_prclookupProgNfs (hs : c.state = .prclookupProgNfs) :
    c.handler pkt c.ourPort len = (c.rpcLookupReply .nfs pkt len).bind fun r => r.2.goto .mount := by
  rw [Nfs.handler, if_neg (not_not.2 rfl), hs]

theorem handler_mount (hs : c.state = .mount) : c.handler pkt c.ourPort len =
      (c.mountReply pkt len).bind fun r => if r.1 ≠ 0 then r.2.goto .umount else r.2.goto .lookup := by
  rw [Nfs.handler, if_neg (not_not.2 rfl), hs]

theorem handler_umount (hs : c.state = .umount) : c.handler pkt c.ourPort len = (c.umountallReply pkt len).map fun r =>
      if r.1 ≠ 0 then ({ r.2 with net := .fail }, []) else ({ r.2 with net := r.2.downloadState }, []) := by
  rw [Nfs.handler, if_neg (not_not.2 rfl), hs]

theorem handler_lookup (hs : c.state = .lookup) : c.handler pkt c.ourPort len = (c.lookupReply pkt len).bind fun r =>
      if r.1 ≠ 0 then r.2.goto .umount else Nfs.goto { r.2 with offset := 0, len := NFS_READ_SIZE } .read := by
  rw [Nfs.handler, if_neg (not_not.2 rfl), hs]

theorem handler_readlink (hs : c.state = .readlink) : c.handler pkt c.ourPort len =
      (c.readlinkReply pkt len).bind fun r => if r.1 ≠ 0 then r.2.goto .umount else r.2.followLink := by
  rw [Nfs.handler, if_neg (not_not.2 rfl), hs]

theorem handler_read (hs : c.state = .read) : c.handler pkt c.ourPort len = (c.readReply pkt).bind fun r => r.2.afterRead r.1 := by
  rw [Nfs.handler, if_neg (not_not.2 rfl), hs]

end Handler

/-! ## Memory -/

theorem toNat_add_sub_add (a off : UInt32) (i : Nat) : (a + UInt32.ofNat i - (a + off)).toNat = (i + (2 ^ 32 - off.toNat)) % 2 ^ 32 := by
  have h : a + UInt32.ofNat i - (a + off) = UInt32.ofNat i - off := by grind
  rw [h, UInt32.toNat_sub, UInt32.toNat_ofNat']
  omega

end NfsAux

end UBoot
