import UBoot.Lemmas.NfsAux

/-!
# What an NFS download stores

What the client takes over from an answer is what the server has, except where the answer has a verifier or a negative status.
-/

namespace UBoot

open Lib NfsAux List Option

/-- The bytes from an address on. -/
def HoldsAt (mem : UInt32 → UInt8) (a : UInt32) (F : List UInt8) : Prop :=
  ∀ i x, F[i]? = some x → mem (a + UInt32.ofNat i) = x

/-- The bytes stored from `load_addr` on are those of `F`, and `NetBootFileXferSize` is their number. -/
def Nfs.Loaded (c : Nfs) (F : List UInt8) : Prop := c.xferSize.toNat = F.length ∧ HoldsAt c.mem c.loadAddr F

/-- An answer to READ that carries bytes has no verifier, and its NFS status is not above 2^31. -/
def ReadOk (pkt : List UInt8) : Prop :=
  (Succeeded pkt → replyWord pkt replyVerifier = some 0 ∨ replyWord pkt (replyData 18) = some 0) ∧
  (replyWord pkt (replyData 0)).all (fun status => status.toNat ≤ 2 ^ 31) = true

instance (pkt : List UInt8) : Decidable (ReadOk pkt) := inferInstanceAs (Decidable (_ ∧ _))

/-- The step is not the delivery of a packet with the current id that answers a call 2^32 or more calls old, or, while the client
reads, of one that was executed and is not `ReadOk`. -/
def NfsOk (s : NfsNet) : NfsStep → Prop
  | .deliver k pkt _ => replyWord pkt replyId = some s.client.rpcId →
      s.calls.length ≤ k + 2 ^ 32 ∧ (s.client.state = .read → Executed pkt → ReadOk pkt)
  | .start _ | .timeout _ => True

instance (s : NfsNet) : (i : NfsStep) → Decidable (NfsOk s i)
  | .deliver .. => inferInstanceAs (Decidable (_ → _))
  | .start _ | .timeout _ => inferInstanceAs (Decidable True)

namespace NfsDownloadAux

variable {srv : NfsServer} {dir name : List UInt8} {c c' : Nfs} {out : List NfsCall} {pkt rest F : List UInt8} {id : UInt32}
variable {src buf : List UInt8} {len : Nat} {r : Int} {offset w status : UInt32} {node : NfsNode}

/-! ## Memory -/

theorem HoldsAt.memcpy {mem : UInt32 → UInt8} {a off : UInt32} (h : HoldsAt mem a F)
    (hoff : F.length = off.toNat) (hfit : off.toNat + src.length ≤ 2 ^ 32) :
    HoldsAt (memcpy mem (a + off) src) a (F ++ src) := by
  intro i x hx
  have hlt := off.toNat_lt
  unfold UBoot.memcpy
  rw [toNat_add_sub_add]
  rcases Nat.lt_or_ge i F.length with hi | hi
  · rw [getElem?_append_left hi] at hx
    have hd : (i + (2 ^ 32 - off.toNat)) % 2 ^ 32 = i + (2 ^ 32 - off.toNat) := Nat.mod_eq_of_lt (by omega)
    rw [hd, getElem?_eq_none (by omega), getD_none]
    exact h i x hx
  · rw [List.getElem?_append_right hi] at hx
    have hj := (List.getElem?_eq_some_iff.1 hx).1
    have hd : (i + (2 ^ 32 - off.toNat)) % 2 ^ 32 = i - F.length := by omega
    rw [hd, hx, getD_some]

/-! ## What the client knows -/

/-- The client looks for what the transfer was started for, and has not ended with success. -/
def Seeks (srv : NfsServer) (dir name : List UInt8) (c : Nfs) : Prop :=
  (∀ F, srv.NamesFile c.path c.filename F → srv.NamesFile dir name F) ∧ c.downloadState = .fail

/-- The client has read the bytes before its offset. An offset has 32 bits, and never reaches the end of a longer file. -/
def Reading (c : Nfs) : NfsNode → Prop
  | .file F => 2 ^ 32 ≤ F.length ∨ c.offset.toNat ≤ F.length ∧ c.Loaded (F.take c.offset.toNat)
  | _ => c.xferSize = 0

/-- The file that the transfer was started for is in memory. -/
def Complete (srv : NfsServer) (dir name : List UInt8) (c : Nfs) : Prop := ∃ F, srv.NamesFile dir name F ∧ c.Loaded F

/-- What holds in each state of the client. -/
def Progress (srv : NfsServer) (dir name : List UInt8) (c : Nfs) : Prop :=
  match c.state with
  | .prclookupProgMount | .prclookupProgNfs | .mount => Seeks srv dir name c ∧ c.xferSize = 0
  | .lookup => Seeks srv dir name c ∧ c.xferSize = 0 ∧ srv.mount c.path = some c.dirfh
  | .read => Seeks srv dir name c ∧ srv.find c.path c.filename = some c.filefh ∧ Reading c (srv.node c.filefh)
  | .readlink => Seeks srv dir name c ∧ srv.find c.path c.filename = some c.filefh ∧ c.xferSize = 0
  | .umount => c.downloadState = .fail ∨ Complete srv dir name c

/-- What holds of the client after a step. -/
structure After (srv : NfsServer) (dir name : List UInt8) (c : Nfs) : Prop where
  running : c.net = .running → Progress srv dir name c
  success : c.net = .success → Complete srv dir name c

/-- The calls of a step of a client that had an id: none if it waits for nothing, else the one its state asks for. -/
def Sent (id : UInt32) (c : Nfs) (out : List NfsCall) : Prop :=
  out = [] ∧ c.rpcId = id ∧ (c.net = .running → c.state = .umount) ∨
  c.rpcId = id + 1 ∧ ∃ ip port, out = [⟨ip, port, c.rpcId, c.request⟩]

/-! ## Steps of the client -/

theorem send_after (hp : Progress srv dir name c) (hrun : c.net = .running) (h : c.send = some (c', out)) :
    After srv dir name c' ∧ Sent c.rpcId c' out := by
  obtain ⟨hs, rfl, rfl⟩ | ⟨rfl, ip, port, rfl⟩ := send_cases h
  · refine ⟨⟨fun _ => hp, ?_⟩, Or.inl ⟨rfl, rfl, fun _ => hs⟩⟩
    intro he
    rw [hrun] at he
    cases he
  · refine ⟨⟨fun _ => hp, ?_⟩, Or.inr ⟨rfl, ip, port, rfl⟩⟩
    intro he
    exact absurd (hrun.symm.trans he) (by decide)

theorem umount_after (hf : c.downloadState = .fail) (hrun : c.net = .running) (h : c.goto .umount = some (c', out)) :
    After srv dir name c' ∧ Sent c.rpcId c' out :=
  send_after (c := { c with state := .umount }) (Or.inl hf) hrun h

theorem prclookup_after {prog : RpcProg} {state : NfsState}
    (hstate : state = .prclookupProgNfs ∨ state = .mount) (hseek : Seeks srv dir name c) (hsize : c.xferSize = 0)
    (hrun : c.net = .running) (h : ((c.rpcLookupReply prog buf len).bind fun r => r.2.goto state) = some (c', out)) :
    After srv dir name c' ∧ Sent c.rpcId c' out := by
  obtain ⟨⟨r, c₁⟩, hr, h⟩ := bind_eq_some_iff.1 h
  obtain ⟨p, q, rfl⟩ := rpcLookupReply_eq_some hr
  rcases hstate with rfl | rfl
  · exact send_after (c := { c with srvMountPort := p, srvNfsPort := q, state := .prclookupProgNfs }) ⟨hseek, hsize⟩ hrun h
  · exact send_after (c := { c with srvMountPort := p, srvNfsPort := q, state := .mount }) ⟨hseek, hsize⟩ hrun h

theorem succeeded_of_zeros (h : ∀ i ∈ [replyRstatus, replyVerifier, replyAstatus, replyData 0], replyWord pkt i = some 0) : Succeeded pkt :=
  ⟨⟨h _ (by simp), h _ (by simp)⟩, h _ (by simp)⟩

theorem handleReply_packet {put : List UInt8 → Nfs} {found : Option (List UInt8)}
    (hans : replyWord pkt replyId = some c.rpcId → Succeeded pkt → Carries (replyBytes pkt (4 * replyData 1) NFS_FHSIZE) found)
    (h : c.parseReply [replyRstatus, replyVerifier, replyAstatus, replyData 0]
      (fun b => (replyBytes b (4 * replyData 1) NFS_FHSIZE).map put) (pkt ++ rest) pkt.length = some (r, c')) :
    r = -1 ∧ c' = c ∨ r = 0 ∧ ∃ fh, found = some fh ∧ c' = put fh := by
  obtain hr | ⟨hr, hid, hz, hk⟩ := parseReply_packet h
  · exact Or.inl hr
  · obtain ⟨fh, hfh, he⟩ := map_eq_some_iff.1 hk
    have hfound := (hans hid (succeeded_of_zeros hz)).2
    rw [hfh] at hfound
    exact Or.inr ⟨hr, fh, hfound.symm, he.symm⟩

theorem mount_after (hseek : Seeks srv dir name c) (hsize : c.xferSize = 0) (hrun : c.net = .running)
    (hans : replyWord pkt replyId = some c.rpcId → srv.Answers pkt (.mount c.path))
    (h : ((c.mountReply (pkt ++ rest) pkt.length).bind fun r =>
      if r.1 ≠ 0 then r.2.goto .umount else r.2.goto .lookup) = some (c', out)) :
    After srv dir name c' ∧ Sent c.rpcId c' out := by
  obtain ⟨⟨r, c₁⟩, hr, hgo⟩ := bind_eq_some_iff.1 h
  obtain ⟨rfl, rfl⟩ | ⟨rfl, fh, hfound, rfl⟩ := handleReply_packet hans hr
  · exact umount_after hseek.2 hrun hgo
  · exact send_after (c := { c with fsMounted := true, dirfh := fh, state := .lookup }) ⟨hseek, hsize, hfound⟩ hrun hgo

theorem lookup_after (hseek : Seeks srv dir name c) (hsize : c.xferSize = 0) (hdir : srv.mount c.path = some c.dirfh) (hrun : c.net = .running)
    (hans : replyWord pkt replyId = some c.rpcId → srv.Answers pkt (.lookup c.dirfh c.filename))
    (h : ((c.lookupReply (pkt ++ rest) pkt.length).bind fun r =>
      if r.1 ≠ 0 then r.2.goto .umount else Nfs.goto { r.2 with offset := 0, len := NFS_READ_SIZE } .read) = some (c', out)) :
    After srv dir name c' ∧ Sent c.rpcId c' out := by
  obtain ⟨⟨r, c₁⟩, hr, hgo⟩ := bind_eq_some_iff.1 h
  obtain ⟨rfl, rfl⟩ | ⟨rfl, fh, hfound, rfl⟩ := handleReply_packet hans hr
  · exact umount_after hseek.2 hrun hgo
  · have hfind : srv.find c.path c.filename = some fh := by
      rw [NfsServer.find, hdir, bind_some, hfound]
    refine send_after (c := { c with filefh := fh, offset := 0, len := NFS_READ_SIZE, state := .read }) ?_ hrun hgo
    refine ⟨hseek, hfind, ?_⟩
    -- nothing was read yet
    cases hn : srv.node fh with
    | file F =>
      refine Or.inr ⟨Nat.zero_le _, ?_, ?_⟩
      · exact congrArg UInt32.toNat hsize
      · intro i x hx
        cases hx
    | link target => exact hsize
    | other => exact hsize

/-- The first byte of a link is the one `nfs_readlink_reply` looks at. -/
theorem head?_replyBytes {offset n : Nat} {link : List UInt8} (h : replyBytes pkt offset n = some link) (hne : link ≠ []) :
    link.head? = pkt[offset]? := by
  obtain ⟨-, rfl⟩ := replyBytes_eq_some h
  have hn : 0 < n := by
    by_contra h0
    rw [Nat.eq_zero_of_not_pos h0, take_zero] at hne
    exact hne rfl
  rw [head?_eq_getElem?, getElem?_take_of_lt hn, getElem?_drop, Nat.add_zero]

theorem readlinkReply_packet (h : c.readlinkReply (pkt ++ rest) pkt.length = some (r, c')) : r = -1 ∧ c' = c ∨
    r = 0 ∧ replyWord pkt replyId = some c.rpcId ∧ Succeeded pkt ∧ ∃ rlen link path, replyWord pkt (replyData 1) = some rlen ∧
      replyBytes pkt (4 * replyData 2) rlen.toNat = some link ∧ c' = { c with path := path } ∧
      (path = linkPath c.path link ∨ path = []) := by
  obtain hr | ⟨hr, hid, hz, hk⟩ := parseReply_packet h
  · exact Or.inl hr
  · obtain ⟨rlen, hrlen, hk⟩ := bind_eq_some_iff.1 hk
    obtain ⟨first, hfirst, hk⟩ := bind_eq_some_iff.1 hk
    obtain ⟨link, hlink, hk⟩ := bind_eq_some_iff.1 hk
    have hif : ∀ {start : List UInt8}, (if start.length + rlen.toNat < NFS_PATH_SIZE then
        some { c with path := (start ++ link).takeWhile (· ≠ 0) } else none) = some c' →
        c' = { c with path := (start ++ link).takeWhile (· ≠ 0) } := by
      intro start hc
      split at hc
      · exact (some.inj hc).symm
      · cases hc
    refine Or.inr ⟨hr, hid, succeeded_of_zeros hz, rlen, link, _, hrlen, hlink, hif hk, ?_⟩
    by_cases hempty : link = []
    · subst hempty
      by_cases hslash : first = chSlash
      · right
        simp [hslash]
      · left
        simp [hslash, linkPath]
    · left
      have hhead := (head?_replyBytes hlink hempty).trans hfirst
      by_cases hslash : first = chSlash
      · simp [hslash, linkPath, hhead]
      · simp [hslash, linkPath, hhead]

theorem readlink_after (hseek : Seeks srv dir name c) (hfind : srv.find c.path c.filename = some c.filefh)
    (hsize : c.xferSize = 0) (hrun : c.net = .running)
    (hans : replyWord pkt replyId = some c.rpcId → srv.Answers pkt (.readlink c.filefh))
    (h : ((c.readlinkReply (pkt ++ rest) pkt.length).bind fun r =>
      if r.1 ≠ 0 then r.2.goto .umount else r.2.followLink) = some (c', out)) :
    After srv dir name c' ∧ Sent c.rpcId c' out := by
  obtain ⟨⟨r, c₁⟩, hr, hgo⟩ := bind_eq_some_iff.1 h
  obtain ⟨rfl, rfl⟩ | ⟨rfl, hid, hz, rlen, link, path, hrlen, hlink, rfl, hpath⟩ := readlinkReply_packet hr
  · exact umount_after hseek.2 hrun hgo
  · have hnode : srv.node c.filefh = .link link := by
      have hc := hans hid hz
      simp only [hrlen, any_some, decide_eq_true_eq, hlink] at hc
      have ht : (srv.node c.filefh).target = some link := hc.2.symm
      cases hn : srv.node c.filefh with
      | link target =>
        rw [hn] at ht
        exact congrArg NfsNode.link (some.inj ht)
      | _ =>
        rw [hn] at ht
        cases ht
    obtain ⟨⟨dir', name'⟩, hsplit, hgo⟩ := bind_eq_some_iff.1 hgo
    rcases hpath with rfl | rfl
    · refine send_after (c := { c with path := dir', filename := name', state := .mount }) ⟨⟨?_, hseek.2⟩, hsize⟩ hrun hgo
      intro F hF
      exact hseek.1 F (.link hfind hnode hsplit hF)
    · cases hsplit

/-! ## READ -/

theorem asInt_of_lt (h : w.toNat < 2 ^ 31) : asInt w = w.toNat := if_pos h

theorem asInt_neg (h0 : status ≠ 0) (h : status.toNat ≤ 2 ^ 31) : asInt (-status) = -(status.toNat : Int) := by
  have hpos : status.toNat ≠ 0 := by
    intro he
    exact h0 (UInt32.toNat_inj.1 he)
  have hneg : (-status).toNat = 2 ^ 32 - status.toNat := by
    rw [UInt32.toNat_neg, UInt32.size]
    omega
  unfold asInt
  rw [hneg]
  split <;> omega

theorem word_agree {i : Nat} {w' : UInt32} (h : replyWord pkt i = some w) (h' : replyWord (pkt ++ rest) i = some w') : w = w' :=
  some.inj ((replyWord_append h rest).symm.trans h')

/-- An honest answer to READ, where the client finds that the call was executed. -/
theorem answersRead_cases {verifier : UInt32} (hans : AnswersRead node offset pkt)
    (head : ReadHead (pkt ++ rest) 0 verifier 0 status) :
    Executed pkt ∧ replyWord pkt (replyData 0) = some status ∧
      (status ≠ 0 ∧ (status = 21 ∨ status = 22 → node.isFile = false) ∨ status = 0 ∧ CarriesBlock offset pkt node) := by
  rcases hans with (hn | hn) | ⟨hx, hs, he⟩ | ⟨hs, hb⟩
  · obtain ⟨w, hw, hne⟩ := (any_eq_true _ _).1 hn
    exact absurd (word_agree hw head.rstatus) (by simpa using hne)
  · obtain ⟨w, hw, hne⟩ := (any_eq_true _ _).1 hn
    exact absurd (word_agree hw head.astatus) (by simpa using hne)
  · obtain ⟨w, hw, hne⟩ := (any_eq_true _ _).1 hs
    obtain rfl := word_agree hw head.status
    refine ⟨hx, hw, Or.inl ⟨by simpa using hne, fun h => he ?_⟩⟩
    rw [hw]
    exact h.imp (congrArg some) (congrArg some)
  · obtain rfl := word_agree hs.2 head.status
    exact ⟨hs.1, hs.2, Or.inr ⟨rfl, hb⟩⟩

theorem carriesBlock_cases (h : CarriesBlock offset pkt node) :
    ∃ F count, node = .file F ∧ replyWord pkt (replyData 18) = some count ∧
      replyBytes pkt RPC_REPLY_SIZE count.toNat = some ((F.drop offset.toNat).take count.toNat) ∧
      (count = 0 → F.length ≤ offset.toNat) := by
  cases node with
  | file F =>
    obtain ⟨count, hcount, hb⟩ := (any_eq_true _ _).1 h
    exact ⟨F, count, rfl, hcount, of_decide_eq_true hb⟩
  | link target => exact h.elim
  | other => exact h.elim

theorem Reading.loaded (h : Reading c (.file F)) (hend : F.length ≤ c.offset.toNat) : c.Loaded F := by
  have hlt := c.offset.toNat_lt
  rcases h with h | ⟨-, h⟩
  · omega
  · rwa [take_of_length_le hend] at h

/-- The client after a block: the bytes are behind those before, and the offset and the size have moved by their number. -/
theorem Reading.storeBlock {rlen : UInt32} (h : Reading c (.file F))
    (hsrc : src = (F.drop c.offset.toNat).take rlen.toNat) (hlen : src.length = rlen.toNat) :
    Reading { c.storeBlock src c.offset rlen with offset := c.offset + rlen } (.file F) := by
  rcases h with h | ⟨hle, hsize, hbytes⟩
  · exact Or.inl h
  · by_cases hbig : 2 ^ 32 ≤ F.length
    · exact Or.inl hbig
    · have hfit : c.offset.toNat + rlen.toNat ≤ F.length := by
        have := congrArg List.length hsrc
        rw [length_take, length_drop] at this
        omega
      have hadd : (c.offset + rlen).toNat = c.offset.toNat + rlen.toNat := by
        rw [UInt32.toNat_add]
        exact Nat.mod_eq_of_lt (by omega)
      rw [length_take_of_le hle] at hsize
      have htake : F.take (c.offset.toNat + rlen.toNat) = F.take c.offset.toNat ++ src := by
        rw [take_add, hsrc]
      refine Or.inr ⟨hadd ▸ hfit, ?_, ?_⟩
      · show (if c.xferSize < c.offset + rlen then c.offset + rlen else c.xferSize).toNat = (F.take (c.offset + rlen).toNat).length
        rw [hadd, length_take_of_le hfit]
        split
        · exact hadd
        · rename_i hnlt
          rw [UInt32.lt_iff_toNat_lt] at hnlt
          omega
      · show HoldsAt (memcpy c.mem (c.loadAddr + c.offset) src) c.loadAddr (F.take (c.offset + rlen).toNat)
        rw [hadd, htake]
        exact HoldsAt.memcpy hbytes (length_take_of_le hle) (by omega)

theorem eof_after (hseek : Seeks srv dir name c) (hfind : srv.find c.path c.filename = some c.filefh)
    (hnode : srv.node c.filefh = .file F) (hl : c.Loaded F) (hrun : c.net = .running)
    (h : c.afterRead 0 = some (c', out)) : After srv dir name c' ∧ Sent c.rpcId c' out :=
  send_after (c := { c with downloadState := .success, state := .umount }) (Or.inr ⟨F, hseek.1 F (.file hfind hnode), hl⟩) hrun h

theorem giveup_after (hneg : r < 0) (h21 : r ≠ -21) (h22 : r ≠ -22) (hf : c.downloadState = .fail)
    (hrun : c.net = .running) (h : c.afterRead r = some (c', out)) : After srv dir name c' ∧ Sent c.rpcId c' out := by
  rw [Nfs.afterRead, if_neg (by omega), if_neg (by omega), if_neg (by omega)] at h
  exact umount_after hf hrun h

/-- An error: a link or a directory is looked at further, and nothing of it was read. -/
theorem error_after (hs0 : status ≠ 0) (hle : status.toNat ≤ 2 ^ 31)
    (hlink : status = 21 ∨ status = 22 → (srv.node c.filefh).isFile = false) (hseek : Seeks srv dir name c)
    (hfind : srv.find c.path c.filename = some c.filefh) (hread : Reading c (srv.node c.filefh)) (hrun : c.net = .running)
    (h : c.afterRead (asInt (-status)) = some (c', out)) : After srv dir name c' ∧ Sent c.rpcId c' out := by
  have hneg := asInt_neg hs0 hle
  have hpos : status.toNat ≠ 0 := fun he => hs0 (UInt32.toNat_inj.1 he)
  by_cases hno : status = 21 ∨ status = 22
  · have hr : asInt (-status) = -21 ∨ asInt (-status) = -22 := by
      rcases hno with rfl | rfl
      · exact Or.inl hneg
      · exact Or.inr hneg
    have hsize : c.xferSize = 0 := by
      have hfile := hlink hno
      cases hn : srv.node c.filefh with
      | file F =>
        rw [hn] at hfile
        cases hfile
      | _ =>
        rw [hn] at hread
        exact hread
    rw [Nfs.afterRead, if_neg (by omega), if_pos hr] at h
    exact send_after (c := { c with state := .readlink }) ⟨hseek, hfind, hsize⟩ hrun h
  · have hne : status.toNat ≠ 21 ∧ status.toNat ≠ 22 := by
      rw [not_or] at hno
      exact ⟨fun he => hno.1 (UInt32.toNat_inj.1 he), fun he => hno.2 (UInt32.toNat_inj.1 he)⟩
    exact giveup_after (by omega) (by omega) (by omega) hseek.2 hrun h

theorem block_after {count : UInt32} (hst : c.state = .read) (hseek : Seeks srv dir name c)
    (hfind : srv.find c.path c.filename = some c.filefh) (hnode : srv.node c.filefh = .file F) (hread : Reading c (.file F))
    (hrun : c.net = .running) (hsmall : count.toNat < 2 ^ 31) (hsrc : src = (F.drop c.offset.toNat).take count.toNat)
    (hlen : src.length = count.toNat) (hend : count = 0 → F.length ≤ c.offset.toNat)
    (h : (c.storeBlock src c.offset count).afterRead (asInt count) = some (c', out)) :
    After srv dir name c' ∧ Sent c.rpcId c' out := by
  have hnext := hread.storeBlock hsrc hlen
  have hint := asInt_of_lt hsmall
  by_cases h0 : count = 0
  · subst h0
    have hl : (c.storeBlock src c.offset 0).Loaded F := by
      refine hnext.loaded ?_
      rw [UInt32.add_zero]
      exact hend rfl
    exact eof_after (c := c.storeBlock src c.offset 0) hseek hfind hnode hl hrun h
  · have hpos : 0 < asInt count := by
      have : count.toNat ≠ 0 := fun he => h0 (UInt32.toNat_inj.1 he)
      omega
    rw [Nfs.afterRead, if_pos hpos, hint, Int.toNat_natCast, UInt32.ofNat_toNat] at h
    refine send_after (c := { c.storeBlock src c.offset count with offset := c.offset + count }) ?_ hrun h
    have hstate : (c.storeBlock src c.offset count).state = .read := hst
    simp only [Progress, hstate]
    exact ⟨hseek, hfind, hnode ▸ hnext⟩

theorem read_after (hst : c.state = .read) (hseek : Seeks srv dir name c)
    (hfind : srv.find c.path c.filename = some c.filefh) (hread : Reading c (srv.node c.filefh)) (hrun : c.net = .running)
    (hlen : pkt.length < 2 ^ 16) (hid : replyWord pkt replyId = some id)
    (hans : id = c.rpcId → AnswersRead (srv.node c.filefh) c.offset pkt) (hok : id = c.rpcId → Executed pkt → ReadOk pkt)
    (h : ((c.readReply (pkt ++ rest)).bind fun r => r.2.afterRead r.1) = some (c', out)) :
    After srv dir name c' ∧ Sent c.rpcId c' out := by
  obtain ⟨⟨r, c₁⟩, hr, hgo⟩ := bind_eq_some_iff.1 h
  obtain ⟨rfl, rfl, -⟩ | ⟨hcur, hres⟩ := readReply_eq_some hr
  · exact giveup_after (r := -1) (by decide) (by decide) (by decide) hseek.2 hrun hgo
  · obtain rfl := word_agree hid hcur
    cases hres with
    | notExecuted head hne => exact giveup_after (r := -9999) (by decide) (by decide) (by decide) hseek.2 hrun hgo
    | @error verifier status head hne =>
      obtain ⟨hx, hs, ⟨hs0, hlink⟩ | ⟨rfl, hb⟩⟩ := answersRead_cases (hans rfl) head
      · have hall := (hok rfl hx).2
        rw [hs] at hall
        exact error_after hs0 (of_decide_eq_true hall) hlink hseek hfind hread hrun hgo
      · -- the bytes of the file under a verifier: only the end of the file is left
        obtain ⟨F, count, hnode, hcount, -, hend⟩ := carriesBlock_cases hb
        have hzero : count = 0 := by
          rcases (hok rfl hx).1 ⟨hx, hs⟩ with hv | hc
          · exact absurd (word_agree hv head.verifier).symm (hne.resolve_right (not_not.2 rfl))
          · exact some.inj (hcount.symm.trans hc)
        rw [hnode] at hread
        exact eof_after hseek hfind hnode (hread.loaded (hend hzero)) hrun hgo
    | @block rlen src head hrlen hsrc =>
      obtain ⟨hx, hs, ⟨hs0, -⟩ | ⟨-, hb⟩⟩ := answersRead_cases (hans rfl) head
      · exact absurd rfl hs0
      · obtain ⟨F, count, hnode, hcount, hbytes, hend⟩ := carriesBlock_cases hb
        obtain rfl := word_agree hcount hrlen
        have hle := (replyBytes_eq_some hbytes).1
        have hsrc' := replyBytes_eq_some hsrc
        have hsrclen : src.length = count.toNat := by
          rw [hsrc'.2, length_take_of_le]
          rw [length_drop]
          omega
        rw [hnode] at hread
        exact block_after hst hseek hfind hnode hread hrun (by omega)
          (some.inj (hsrc.symm.trans (replyBytes_append hbytes rest))) hsrclen hend hgo

/-- The answer to UMOUNTALL, or any other packet while the client waits for it. -/
theorem unmounted_after (hst : c.state = .umount) (hend : c.downloadState = .fail ∨ Complete srv dir name c)
    (h : ((c.umountallReply buf len).map fun r =>
      if r.1 ≠ 0 then ({ r.2 with net := .fail }, []) else ({ r.2 with net := r.2.downloadState }, [])) = some (c', out)) :
    After srv dir name c' ∧ Sent c.rpcId c' out := by
  obtain ⟨⟨r, c₁⟩, hr, he⟩ := map_eq_some_iff.1 h
  obtain ⟨rfl, rfl⟩ | ⟨rfl, -, -, hk⟩ := parseReply_eq_some hr
  · obtain ⟨rfl, rfl⟩ := Prod.mk.inj he
    exact ⟨⟨nofun, nofun⟩, Or.inl ⟨rfl, rfl, nofun⟩⟩
  · obtain rfl := some.inj hk
    obtain ⟨rfl, rfl⟩ := Prod.mk.inj he
    refine ⟨⟨?_, ?_⟩, Or.inl ⟨rfl, rfl, fun _ => hst⟩⟩
    · intro _
      simp only [Progress, hst]
      exact hend
    · intro hs
      rcases hend with hf | hc
      · exact absurd (hf.symm.trans hs) (by decide)
      · exact hc

theorem handler_after (hp : Progress srv dir name c) (hrun : c.net = .running) (hlen : pkt.length < 2 ^ 16)
    (hid : replyWord pkt replyId = some id) (hans : id = c.rpcId → srv.Answers pkt c.request)
    (hok : id = c.rpcId → c.state = .read → Executed pkt → ReadOk pkt)
    (h : c.handler (pkt ++ rest) c.ourPort pkt.length = some (c', out)) :
    After srv dir name c' ∧ Sent c.rpcId c' out := by
  have hcur : replyWord pkt replyId = some c.rpcId → id = c.rpcId := fun he => some.inj (hid.symm.trans he)
  cases hst : c.state with
  | prclookupProgMount =>
    simp only [Progress, hst] at hp
    rw [handler_prclookupProgMount _ _ hst] at h
    exact prclookup_after (Or.inl rfl) hp.1 hp.2 hrun h
  | prclookupProgNfs =>
    simp only [Progress, hst] at hp
    rw [handler_prclookupProgNfs _ _ hst] at h
    exact prclookup_after (Or.inr rfl) hp.1 hp.2 hrun h
  | mount =>
    simp only [Progress, hst] at hp
    simp only [Nfs.request, hst] at hans
    rw [handler_mount _ _ hst] at h
    exact mount_after hp.1 hp.2 hrun (fun he => hans (hcur he)) h
  | umount =>
    simp only [Progress, hst] at hp
    rw [handler_umount _ _ hst] at h
    exact unmounted_after hst hp h
  | lookup =>
    simp only [Progress, hst] at hp
    simp only [Nfs.request, hst] at hans
    rw [handler_lookup _ _ hst] at h
    exact lookup_after hp.1 hp.2.1 hp.2.2 hrun (fun he => hans (hcur he)) h
  | read =>
    simp only [Progress, hst] at hp
    simp only [Nfs.request, hst] at hans
    rw [handler_read _ _ hst] at h
    exact read_after hst hp.1 hp.2.1 hp.2.2 hrun hlen hid hans (fun he hx => hok he hst hx) h
  | readlink =>
    simp only [Progress, hst] at hp
    simp only [Nfs.request, hst] at hans
    rw [handler_readlink _ _ hst] at h
    exact readlink_after hp.1 hp.2.1 hp.2.2 hrun (fun he => hans (hcur he)) h

theorem timeout_after {retry : Bool} (hp : Progress srv dir name c) (hrun : c.net = .running)
    (h : c.timeout retry = some (c', out)) : After srv dir name c' ∧ Sent c.rpcId c' out := by
  rw [Nfs.timeout] at h
  split at h
  · obtain ⟨rfl, rfl⟩ := Prod.mk.inj (some.inj h)
    have hnet : ∀ net : NetState, (if retry then .restart else .fail : NetState) = net → net ≠ .running ∧ net ≠ .success := by
      intro net he
      rw [← he]
      cases retry <;> decide
    exact ⟨⟨fun he => absurd rfl (hnet _ he).1, fun he => absurd rfl (hnet _ he).2⟩, Or.inl ⟨rfl, rfl, fun he => absurd rfl (hnet _ he).1⟩⟩
  · exact send_after (c := { c with timeoutCount := c.timeoutCount + 1 }) hp hrun h

theorem goto_first_after (srv : NfsServer) (h : c.goto .prclookupProgMount = some (c', out)) (hrun : c.net = .running)
    (hf : c.downloadState = .fail) (hsize : c.xferSize = 0) : After srv c'.path c'.filename c' ∧ Sent c.rpcId c' out := by
  have hpath : c'.path = c.path ∧ c'.filename = c.filename := by
    obtain ⟨i, rfl⟩ := send_eq h
    exact ⟨rfl, rfl⟩
  rw [hpath.1, hpath.2]
  exact send_after (c := { c with state := .prclookupProgMount }) ⟨⟨fun F hF => hF, hf⟩, hsize⟩ hrun h

theorem start_after (srv : NfsServer) {b : NfsBoot} (h : c.start b = some (c', out)) :
    After srv c'.path c'.filename c' ∧ Sent c.rpcId c' out := by
  rw [Nfs.start] at h
  obtain ⟨⟨dir, name⟩, -, hgo⟩ := bind_eq_some_iff.1 h
  have hfirst := goto_first_after srv hgo rfl rfl rfl
  exact hfirst

/-! ## The system -/

/-- What holds in every state of the system: the calls are numbered by their ids, the last one is what the client waits for, and
what the client has taken over is what the server has. -/
structure NetInv (srv : NfsServer) (s : NfsNet) : Prop where
  ids : ∀ k call, s.calls[k]? = some call → call.id = UInt32.ofNat (k + 1)
  rpcId : s.client.rpcId = UInt32.ofNat s.calls.length
  last : s.client.net = .running → s.client.state ≠ .umount → ∃ call, s.calls[s.calls.length - 1]? = some call ∧ call.request = s.client.request
  after : After srv s.dir s.name s.client

variable {s s' : NfsNet}

theorem netInv_powerOn (mem : UInt32 → UInt8) : NetInv srv (NfsNet.powerOn mem) :=
  ⟨nofun, rfl, nofun, nofun, nofun⟩

/-- The calls of a step keep the numbering. -/
theorem NetInv.update (h : NetInv srv s) (hsent : Sent s.client.rpcId c' out) {dir' name' : List UInt8}
    (hafter : After srv dir' name' c') : NetInv srv ⟨c', s.calls ++ out, dir', name'⟩ := by
  obtain ⟨rfl, hid, hst⟩ | ⟨hid, ip, port, rfl⟩ := hsent
  · rw [append_nil]
    refine ⟨h.ids, hid.trans h.rpcId, fun hr hne => absurd (hst hr) hne, hafter⟩
  · have hnew : c'.rpcId = UInt32.ofNat (s.calls.length + 1) := by
      rw [hid, h.rpcId, UInt32.ofNat_add]
      rfl
    refine ⟨?_, ?_, ?_, hafter⟩
    · intro k call hk
      rcases Nat.lt_trichotomy k s.calls.length with hlt | rfl | hgt
      · rw [getElem?_append_left hlt] at hk
        exact h.ids k call hk
      · rw [getElem?_concat_length] at hk
        obtain rfl := some.inj hk
        exact hnew
      · rw [getElem?_eq_none (by simp; omega)] at hk
        cases hk
    · simpa using hnew
    · intro _ _
      exact ⟨⟨ip, port, c'.rpcId, c'.request⟩, by simp, rfl⟩

theorem NetInv.answers (h : NetInv srv s) (hrun : s.client.net = .running) {k : Nat} {call : NfsCall}
    (hk : s.calls[k]? = some call) (hans : srv.Answers pkt call.request) (hold : s.calls.length ≤ k + 2 ^ 32)
    (hid : call.id = s.client.rpcId) : srv.Answers pkt s.client.request := by
  by_cases hst : s.client.state = .umount
  · simp only [Nfs.request, hst]
    trivial
  · obtain ⟨last, hlast, hreq⟩ := h.last hrun hst
    have hlt := (List.getElem?_eq_some_iff.1 hk).1
    have hmod : (k + 1) % 2 ^ 32 = s.calls.length % 2 ^ 32 := by
      have := congrArg UInt32.toNat ((h.ids k call hk).symm.trans (hid.trans h.rpcId))
      rwa [UInt32.toNat_ofNat', UInt32.toNat_ofNat'] at this
    have hkn : k = s.calls.length - 1 := by omega
    rw [← hkn, hk] at hlast
    obtain rfl := some.inj hlast
    exact hreq ▸ hans

theorem step_netInv {i : NfsStep} (h : NetInv srv s) (hok : NfsOk s i) (hs : s.step srv i = some s') : NetInv srv s' := by
  cases i with
  | start b =>
    rw [NfsNet.step] at hs
    split at hs
    · obtain ⟨s₁, hs₁, rfl⟩ := map_eq_some_iff.1 hs
      obtain ⟨⟨c', out⟩, hc, rfl⟩ := map_eq_some_iff.1 hs₁
      obtain ⟨hafter, hsent⟩ := start_after srv hc
      exact h.update hsent hafter
    · cases hs
  | timeout retry =>
    rw [NfsNet.step] at hs
    split at hs
    · rename_i hrun
      obtain ⟨⟨c', out⟩, hc, rfl⟩ := map_eq_some_iff.1 hs
      obtain ⟨hafter, hsent⟩ := timeout_after (h.after.running hrun) hrun hc
      exact h.update hsent hafter
    · cases hs
  | deliver k pkt rest =>
    rw [NfsNet.step] at hs
    split at hs
    · cases hs
    · rename_i call hk
      split at hs
      · rename_i hcond
        obtain ⟨hrun, hlen, hid, hans⟩ := hcond
        obtain ⟨⟨c', out⟩, hc, rfl⟩ := map_eq_some_iff.1 hs
        have hcur : ∀ he : call.id = s.client.rpcId, replyWord pkt replyId = some s.client.rpcId :=
          fun he => he ▸ hid
        obtain ⟨hafter, hsent⟩ := handler_after (h.after.running hrun) hrun hlen hid
          (fun he => h.answers hrun hk hans (hok (hcur he)).1 he) (fun he => (hok (hcur he)).2) hc
        exact h.update hsent hafter
      · cases hs

end NfsDownloadAux

open NfsDownloadAux

/-- NFS download integrity: over every run of the client against an honest server, in which no step delivers one of the answers
that `NfsOk` excludes, a transfer that ends with success has loaded the file it was started for, and all of it. -/
theorem nfs_download_intact (srv : NfsServer) (mem : UInt32 → UInt8) {is : List NfsStep} {s : NfsNet}
    (hrun : Exec (Guarded NfsOk (stepOf (NfsNet.step srv))) (NfsNet.powerOn mem) is s) (hs : s.client.net = .success) :
    ∃ F, (∀ F', srv.NamesFile s.dir s.name F' ↔ F' = F) ∧ s.client.Loaded F := by
  have hstep : ∀ s i s', NetInv srv s → Guarded NfsOk (stepOf (NfsNet.step srv)) s i s' → NetInv srv s' := by
    rintro s i s' h ⟨hok, hs⟩
    exact step_netInv h hok hs
  have hinv := hrun.invariant hstep (netInv_powerOn mem)
  obtain ⟨F, hF, hl⟩ := hinv.after.success hs
  refine ⟨F, fun F' => ⟨fun h => h.unique hF, ?_⟩, hl⟩
  rintro rfl
  exact hF

namespace NfsDownloadAux

/-- The handle made of one byte. -/
def handle (n : UInt8) : List UInt8 := List.replicate NFS_FHSIZE n

/-- A server with the file `/b/k`, which has the one byte 7. -/
def smallNfsServer : NfsServer where
  mount dir := if dir = [0x2f, 0x62] then some (handle 1) else none
  lookup fh name := if fh = handle 1 ∧ name = [0x6b] then some (handle 2) else none
  node fh := if fh = handle 2 then .file [7] else .other

/-- The head of an answer with an id and a verifier: accepted and executed. -/
def answerHead (id verifier : UInt8) : List UInt8 :=
  [0, 0, 0, id, 0, 0, 0, 1, 0, 0, 0, 0, 0, 0, 0, verifier, 0, 0, 0, 0, 0, 0, 0, 0]

/-- An answer to READ with some bytes. -/
def readAnswer (id verifier : UInt8) (bytes : List UInt8) : List UInt8 :=
  answerHead id verifier ++ List.replicate 72 0 ++ [0, 0, 0, UInt8.ofNat bytes.length] ++ bytes

/-- `nfs /b/k` up to the first READ. -/
def upToRead : List NfsStep :=
  [.start ⟨[0x2f, 0x62, 0x2f, 0x6b], [10, 0, 0, 2], [10, 0, 0, 1], 0x1000, fun _ => 0⟩, .deliver 0 (answerHead 1 0 ++ [0, 0, 2, 0x7b]) [],
    .deliver 1 (answerHead 2 0 ++ [0, 0, 8, 1]) [],
    .deliver 2 (answerHead 3 0 ++ [0, 0, 0, 0] ++ handle 1) [],
    .deliver 3 (answerHead 4 0 ++ [0, 0, 0, 0] ++ handle 2) []]

/-- The rest: the file, its end, and UMOUNTALL. -/
def readAll : List NfsStep :=
  upToRead ++ [.deliver 4 (readAnswer 5 0 [7]) [], .deliver 5 (readAnswer 6 0 []) [], .deliver 6 (answerHead 7 0) []]

/-- The rest, where the file comes with a verifier. -/
def readVerified : List NfsStep := upToRead ++ [.deliver 4 (readAnswer 5 2 [7]) [], .deliver 5 (answerHead 6 0) []]

end NfsDownloadAux

theorem nfs_download_intact_small : ∃ is s, Exec (Guarded NfsOk (stepOf (NfsNet.step smallNfsServer))) (NfsNet.powerOn fun _ => 0) is s ∧
      s.client.net = .success ∧
      ∃ F, (∀ F', smallNfsServer.NamesFile s.dir s.name F' ↔ F' = F) ∧ s.client.Loaded F := by
  obtain ⟨s, hs⟩ := isSome_iff_exists.1 (show (readAll.foldlM
    (fun s i => if NfsOk s i then NfsNet.step smallNfsServer s i else none) (NfsNet.powerOn fun _ => 0)).isSome from rfl)
  have hnet : s.client.net = .success := by
    have := congrArg (Option.map fun s => s.client.net) hs
    exact (some.inj this).symm
  have hrun := Exec.of_guarded_foldlM hs
  exact ⟨readAll, s, hrun, hnet, nfs_download_intact smallNfsServer _ hrun hnet⟩

/-- An answer that carries the file under a verifier ends the transfer with success, and nothing was loaded. -/
theorem nfs_download_intact_false : ¬∀ (srv : NfsServer) (mem : UInt32 → UInt8) (is : List NfsStep) (s : NfsNet),
      Exec (stepOf (NfsNet.step srv)) (NfsNet.powerOn mem) is s → s.client.net = .success →
      ∃ F, (∀ F', srv.NamesFile s.dir s.name F' ↔ F' = F) ∧ s.client.Loaded F := by
  intro h
  obtain ⟨s, hs⟩ := isSome_iff_exists.1 (show (readVerified.foldlM (NfsNet.step smallNfsServer) (NfsNet.powerOn fun _ => 0)).isSome from rfl)
  have hend : (NetState.success, [0x2f, 0x62], [0x6b], (0 : UInt32)) = (s.client.net, s.dir, s.name, s.client.xferSize) := by
    have := congrArg (Option.map fun s => (s.client.net, s.dir, s.name, s.client.xferSize)) hs
    exact some.inj this
  simp only [Prod.mk.injEq] at hend
  obtain ⟨hnet, hdir, hname, hsize⟩ := hend
  obtain ⟨F, hF, hl, -⟩ := h smallNfsServer _ readVerified s (Exec.of_foldlM hs) hnet.symm
  have hfile : [7] = F := by
    rw [← hF, ← hdir, ← hname]
    exact .file rfl rfl
  rw [← hfile, ← hsize] at hl
  cases hl

end UBoot
