import UBoot.Lemmas.NfsAux

/-!
# Stale replies of the NFS server

Every parser of nfs.c compares the id of a reply with that of the last call, and returns -1 for another one. `NfsHandler` then
treats the packet like an error of the server, or not at all: no state ignores it.
-/

namespace UBoot

open List Option

section

open Lib NfsAux

/-- What a transfer has found out and stored so far is as before. -/
structure NfsKept (c c' : Nfs) : Prop where
  state : c'.state = c.state
  srvMountPort : c'.srvMountPort = c.srvMountPort
  srvNfsPort : c'.srvNfsPort = c.srvNfsPort
  dirfh : c'.dirfh = c.dirfh
  filefh : c'.filefh = c.filefh
  path : c'.path = c.path
  offset : c'.offset = c.offset
  downloadState : c'.downloadState = c.downloadState
  mem : c'.mem = c.mem
  xferSize : c'.xferSize = c.xferSize

/-- `NfsHandler` returns from a packet with everything kept. -/
def KeptBy (c : Nfs) (pkt : List UInt8) (len : Nat) : Prop :=
  ∃ c' out, c.handler pkt c.ourPort len = some (c', out) ∧ NfsKept c c'

/-- `NfsHandler` ignores a packet: everything is kept, and the transfer goes on. -/
def IgnoredBy (c : Nfs) (pkt : List UInt8) (len : Nat) : Prop :=
  ∃ c' out, c.handler pkt c.ourPort len = some (c', out) ∧ NfsKept c c' ∧ c'.net = c.net

namespace NfsStaleAux

variable {c c' : Nfs} {out : List NfsCall} {pkt : List UInt8} {len : Nat} {id : UInt32}
variable {s : NfsState}

theorem goto_state (h : c.goto s = some (c', out)) : c'.state = s := by
  obtain ⟨id, rfl⟩ := send_eq h
  rfl

/-- The state after a stale packet: the two portmap states go on, the others give up. -/
def staleNext : NfsState → NfsState
  | .prclookupProgMount => .prclookupProgNfs
  | .prclookupProgNfs => .mount
  | _ => .umount

theorem staleNext_eq_self (h : staleNext s = s) : s = .umount := by
  cases s with
  | umount => rfl
  | _ => cases h

/-- What a refused packet leads to when it fits the buffer of the parser. -/
theorem handler_stale_state (hid : replyWord (pkt.take len) replyId = some id) (hne : id ≠ c.rpcId) (hlen : len ≤ pkt.length)
    (h : c.handler pkt c.ourPort len = some (c', out)) : c'.state = staleNext c.state := by
  have hparse : ∀ {words keep p}, c.parseReply words keep pkt len = some p → p = (-1, c) := by
    intro words keep p hp
    rw [parseReply_stale hid hne hlen] at hp
    split at hp
    · exact (some.inj hp).symm
    · cases hp
  rw [Nfs.handler, if_neg (not_not.2 rfl)] at h
  cases hs : c.state with
  | umount =>
    simp only [hs] at h
    obtain ⟨r, hr, he⟩ := map_eq_some_iff.1 h
    rw [hparse hr] at he
    obtain ⟨rfl, -⟩ := Prod.mk.inj he
    exact hs
  | read =>
    simp only [hs] at h
    obtain ⟨r, hr, he⟩ := bind_eq_some_iff.1 h
    rw [readReply_stale (replyWord_of_take hid) hne hr] at he
    exact goto_state he
  | _ =>
    simp only [hs] at h
    obtain ⟨r, hr, he⟩ := bind_eq_some_iff.1 h
    rw [hparse hr] at he
    exact goto_state he

/-- In `STATE_UMOUNT_REQ` a stale packet ends the transfer. -/
theorem handler_stale_umount (hs : c.state = .umount) (hid : replyWord (pkt.take len) replyId = some id) (hne : id ≠ c.rpcId)
    (hlen : len ≤ pkt.length) :
    c.handler pkt c.ourPort len = if len ≤ RPC_SIZE then some ({ c with net := .fail }, []) else none := by
  rw [handler_umount _ _ hs, Nfs.umountallReply, parseReply_stale hid hne hlen]
  split
  · rfl
  · rfl

end NfsStaleAux

open NfsStaleAux

/-- A reply with another id than that of the last call is never ignored. What the transfer has found out is kept in
`STATE_UMOUNT_REQ` only, and the transfer fails there. -/
theorem nfs_stale_never_ignored (c : Nfs) (pkt : List UInt8) (len : Nat) (id : UInt32) (hrun : c.net = .running)
    (hlen : len ≤ pkt.length) (hid : replyWord (pkt.take len) replyId = some id) (hne : id ≠ c.rpcId) :
    (KeptBy c pkt len ↔ c.state = .umount ∧ len ≤ RPC_SIZE) ∧ ¬IgnoredBy c pkt len := by
  have hkept : KeptBy c pkt len ↔ c.state = .umount ∧ len ≤ RPC_SIZE := by
    constructor
    · rintro ⟨c', out, h, hk⟩
      have hs : c.state = .umount := by
        refine staleNext_eq_self ?_
        rw [← handler_stale_state hid hne hlen h, hk.state]
      refine ⟨hs, ?_⟩
      by_contra hsize
      rw [handler_stale_umount hs hid hne hlen, if_neg hsize] at h
      cases h
    · rintro ⟨hs, hsize⟩
      refine ⟨{ c with net := .fail }, [], ?_, ?_⟩
      · rw [handler_stale_umount hs hid hne hlen, if_pos hsize]
      · exact ⟨rfl, rfl, rfl, rfl, rfl, rfl, rfl, rfl, rfl, rfl⟩
  refine ⟨hkept, ?_⟩
  rintro ⟨c', out, h, hk, hnet⟩
  obtain ⟨hs, hsize⟩ := hkept.1 ⟨c', out, h, hk⟩
  rw [handler_stale_umount hs hid hne hlen, if_pos hsize] at h
  obtain ⟨rfl, -⟩ := Prod.mk.inj (some.inj h)
  rw [hrun] at hnet
  cases hnet

namespace NfsStaleAux

/-- A client in the middle of a file, which has called 7 times. -/
def reading : Nfs where
  fsMounted := true
  rpcId := 7
  offset := 1024
  len := 1024
  dirfh := List.replicate 32 1
  filefh := List.replicate 32 2
  downloadState := .fail
  serverIP := [10, 0, 0, 1]
  srvMountPort := 635
  srvNfsPort := 2049
  ourPort := 1000
  timeoutCount := 1
  state := .read
  filename := [0x6b]
  path := [0x2f, 0x74]
  loadAddr := 0x1000
  xferSize := 1024
  mem := fun _ => 0
  net := .running

/-- The late answer to the 6th call, which the client has repeated since: the last 4 bytes of the file. -/
def lateAnswer : List UInt8 := [0, 0, 0, 6, 0, 0, 0, 1] ++ List.replicate 88 0 ++ [0, 0, 0, 4] ++ [5, 6, 7, 8]

end NfsStaleAux

theorem nfs_stale_ends_download : ¬IgnoredBy reading lateAnswer 104 :=
  (nfs_stale_never_ignored reading lateAnswer 104 6 rfl (by decide) rfl (by decide)).2

/-- The late answer to a call that was repeated makes the client give up the file it was reading. -/
theorem nfs_stale_ignored_false : ¬∀ (c : Nfs) (pkt : List UInt8) (len : Nat) (id : UInt32), c.net = .running → len ≤ pkt.length →
      replyWord (pkt.take len) replyId = some id → id ≠ c.rpcId → IgnoredBy c pkt len := by
  intro h
  obtain ⟨c', out, hh, hk, -⟩ := h reading lateAnswer 104 6 rfl (by decide) rfl (by decide)
  have hid : replyWord (lateAnswer.take 104) replyId = some 6 := rfl
  have hs : c'.state = .umount := handler_stale_state hid (by decide) (by decide) hh
  rw [hk.state] at hs
  cases hs

end

/-!
## Which NFS replies are handled inside their bounds

The length of the packet, and those of a path and of a block in it, are not tested.
-/

section

/-- A call fits into its `struct rpc_t`. -/
def CallFits (r : NfsRequest) : Prop := 24 + 4 * r.datalen ≤ RPC_SIZE

/-- The words that are zero in a reply to a call that was executed. -/
def executedWords : List Nat := [replyRstatus, replyVerifier, replyAstatus]

/-- The words that are zero in a reply to a call that succeeded. -/
def succeededWords : List Nat := [replyRstatus, replyVerifier, replyAstatus, replyData 0]

/-- A reply goes into a `struct rpc_t`, has the words that are tested, and if it is accepted, `kept` holds. -/
def ReplyFits (c : Nfs) (words : List Nat) (b : List UInt8) (kept : Prop) : Prop :=
  b.length ≤ RPC_SIZE ∧ ∃ ok, c.accepts b words = some ok ∧ (ok = true → kept)

/-- The path that a link leads to. -/
def Nfs.linkedPath (c : Nfs) (first : UInt8) (link : List UInt8) : List UInt8 :=
  ((if first ≠ chSlash then c.path ++ [chSlash] else []) ++ link).takeWhile (· ≠ 0)

/-- A link of a reply is inside it, the path with the link is inside `nfs_path_buff`, and the path has a directory that fits into the
next call. -/
def LinkFits (c : Nfs) (b : List UInt8) : Prop :=
  ∃ (rlen : UInt32) (first : UInt8), replyWord b (replyData 1) = some rlen ∧ b[4 * replyData 2]? = some first ∧
    4 * replyData 2 + rlen.toNat ≤ b.length ∧
    (if first ≠ chSlash then c.path ++ [chSlash] else []).length + rlen.toNat < NFS_PATH_SIZE ∧
    ∃ dir name, splitPath (c.linkedPath first ((b.drop (4 * replyData 2)).take rlen.toNat)) = some (dir, name) ∧ CallFits (.mount dir)

/-- The bytes of a reply that are used are in `b`, and what is built from them fits into its buffers. -/
def NfsFits (c : Nfs) (b : List UInt8) : Prop :=
  match c.state with
  | .prclookupProgMount => ReplyFits c executedWords b (4 * replyData 1 ≤ b.length)
  | .prclookupProgNfs => ReplyFits c executedWords b (4 * replyData 1 ≤ b.length) ∧ CallFits (.mount c.path)
  | .mount => ReplyFits c succeededWords b (4 * replyData 1 + NFS_FHSIZE ≤ b.length ∧ CallFits (.lookup c.dirfh c.filename))
  | .umount => ReplyFits c executedWords b True
  | .lookup => ReplyFits c succeededWords b (4 * replyData 1 + NFS_FHSIZE ≤ b.length)
  | .readlink => ReplyFits c succeededWords b (LinkFits c b)
  | .read => RPC_REPLY_SIZE ≤ b.length ∧ (c.accepts (b.take RPC_REPLY_SIZE) succeededWords = some true →
      ∀ rlen, replyWord b (replyData 18) = some rlen → RPC_REPLY_SIZE + rlen.toNat ≤ b.length)

/-- A packet is handled inside its bounds, and what is stored in the memory are bytes of the packet. -/
def NfsInside (c : Nfs) (pkt : List UInt8) (dest : Nat) : Prop :=
  ∃ c' out, c.handler pkt dest pkt.length = some (c', out) ∧ (c'.mem = c.mem ∨ ∃ n, RPC_REPLY_SIZE + n ≤ pkt.length ∧
      c'.mem = memcpy c.mem (c.loadAddr + c.offset) ((pkt.drop RPC_REPLY_SIZE).take n))

/-- `NfsHandler` where a `struct rpc_t` holds what was on the stack behind a packet that is shorter. -/
def Nfs.handlerOn (stack : List UInt8) (c : Nfs) (pkt : List UInt8) (dest : Nat) : Option (Nfs × List NfsCall) :=
  if dest ≠ c.ourPort then some (c, [])
  else if c.state = .read then c.handler pkt dest pkt.length
  else if pkt.length ≤ RPC_SIZE then c.handler (pkt ++ stack.drop pkt.length) dest RPC_SIZE
  else none

namespace NfsInsideAux

variable {c : Nfs} {b : List UInt8}
variable {s : NfsState} {β : Type} {words : List Nat} {P : β → Prop} {prog : RpcProg} {dest : Nat} {c' : Nfs} {out : List NfsCall}
    {keep : List UInt8 → Option Nfs} {p : Int × Nfs}

/-! ### Calls -/

theorem rpcReq_isSome_iff (r : NfsRequest) : (c.rpcReq r).isSome ↔ CallFits r := by
  unfold Nfs.rpcReq CallFits
  split
  next h => exact iff_of_true rfl h
  next h => exact iff_of_false Bool.false_ne_true h

/-- `NfsSend` stays inside when the call of its state fits. -/
theorem send_isSome_iff : c.send.isSome ↔ CallFits c.request := by
  cases hs : c.state with
  | umount =>
    have hall : CallFits .umountAll := by
      show 24 + 4 * 9 ≤ RPC_SIZE
      decide
    have hfits : CallFits c.request := by
      rw [Nfs.request, hs]
      exact hall
    refine iff_of_true ?_ hfits
    rw [Nfs.send, hs]
    dsimp only
    unfold Nfs.umountallReq
    split
    · rfl
    · exact (rpcReq_isSome_iff _).2 hall
  | _ => simp only [Nfs.send, Nfs.request, hs, rpcReq_isSome_iff]

theorem goto_isSome (hs : s ≠ .mount ∧ s ≠ .lookup) : (c.goto s).isSome := by
  rw [Nfs.goto, send_isSome_iff]
  cases s with
  | mount => exact absurd rfl hs.1
  | lookup => exact absurd rfl hs.2
  | _ => simp [CallFits, Nfs.request, NfsRequest.datalen, RPC_SIZE]

theorem goto_mount_isSome_iff : (c.goto .mount).isSome ↔ CallFits (.mount c.path) := by
  rw [Nfs.goto, send_isSome_iff]
  rfl

theorem goto_lookup_isSome_iff : (c.goto .lookup).isSome ↔ CallFits (.lookup c.dirfh c.filename) := by
  rw [Nfs.goto, send_isSome_iff]
  rfl

/-! ### Parsers -/

/-- A parser and what follows it stay inside when the reply is tested inside, and whichever way the test goes, the rest stays inside. -/
theorem parseReply_bind_isSome_iff (words : List Nat) (keep : List UInt8 → Option Nfs) (f : Int × Nfs → Option β) :
    ((c.parseReply words keep b b.length).bind f).isSome ↔ b.length ≤ RPC_SIZE ∧ ∃ ok, c.accepts b words = some ok ∧
      (if ok then ∃ c', keep b = some c' ∧ (f (0, c')).isSome else (f (-1, c)).isSome) := by
  unfold Nfs.parseReply rpcCopy
  by_cases hsize : b.length ≤ RPC_SIZE
  · rw [if_pos hsize, and_iff_right hsize, NfsAux.replyBytes_of_le (by omega), drop_zero, take_length, bind_some]
    cases hok : c.accepts b words with
    | none => simp
    | some ok =>
      cases ok with
      | false => simp
      | true =>
        cases hkeep : keep b with
        | none => simp
        | some c' => simp
  · rw [if_neg hsize]
    exact iff_of_false Bool.false_ne_true fun h => hsize h.1

theorem replyFits_iff {kept refused : Prop} (hrefused : refused) :
    (b.length ≤ RPC_SIZE ∧ ∃ ok, c.accepts b words = some ok ∧ if ok then kept else refused) ↔ ReplyFits c words b kept := by
  unfold ReplyFits
  refine and_congr_right fun _ => exists_congr fun ok => and_congr_right fun _ => ?_
  cases ok with
  | true => simp
  | false => simp [hrefused]

theorem replyWord_isSome_iff {i : Nat} : (∃ w, replyWord b i = some w) ↔ 4 * i + 4 ≤ b.length := by
  constructor
  · rintro ⟨w, hw⟩
    obtain ⟨a₀, a₁, a₂, a₃, rest, he, -⟩ := NfsAux.replyWord_eq_some_iff.1 hw
    have := congrArg List.length he
    simp only [length_drop, length_cons] at this
    omega
  · exact NfsAux.exists_replyWord

theorem replyBytes_isSome_iff {offset n : Nat} : (∃ bs, replyBytes b offset n = some bs) ↔ offset + n ≤ b.length :=
  ⟨fun ⟨_, h⟩ => (NfsAux.replyBytes_eq_some h).1, fun h => ⟨_, NfsAux.replyBytes_of_le h⟩⟩

theorem anyNonzero_isSome (words : List Nat) (h : ∀ i ∈ words, 4 * i + 4 ≤ b.length) : ∃ bad, anyNonzero b words = some bad := by
  induction words with
  | nil => exact ⟨false, rfl⟩
  | cons i words ih =>
    obtain ⟨w, hw⟩ := NfsAux.exists_replyWord (h i mem_cons_self)
    rw [anyNonzero, hw, bind_some]
    split
    · exact ⟨true, rfl⟩
    · exact ih fun j hj => h j (mem_cons_of_mem _ hj)

theorem exists_map_iff {α : Type} {o : Option α} {f : α → β} : (∃ y, o.map f = some y ∧ P y) ↔ ∃ x, o = some x ∧ P (f x) := by
  cases o with
  | none => simp
  | some x => simp

theorem exists_bind_iff {α : Type} {o : Option α} {f : α → Option β} :
    (∃ y, o.bind f = some y ∧ P y) ↔ ∃ x, o = some x ∧ ∃ y, f x = some y ∧ P y := by
  cases o with
  | none => simp
  | some x => simp

/-! ### The states -/

/-- `rpc_lookup_reply` and the call that follows it, which is made whether or not the reply is accepted. -/
theorem prclookup_isSome_iff (hprog : prog ≠ .portmap) {next : NfsState} {fits : Prop}
    (hnext : ∀ p q, (Nfs.goto { c with srvMountPort := p, srvNfsPort := q } next).isSome ↔ fits) :
    ((c.rpcLookupReply prog b b.length).bind fun r => r.2.goto next).isSome ↔
      ReplyFits c executedWords b (4 * replyData 1 ≤ b.length) ∧ fits := by
  have hself : (c.goto next).isSome ↔ fits := hnext c.srvMountPort c.srvNfsPort
  have hport : (∃ w, replyWord b (replyData 0) = some w) ↔ 4 * replyData 1 ≤ b.length := replyWord_isSome_iff
  have hrun : ((c.rpcLookupReply prog b b.length).bind fun r => r.2.goto next).isSome ↔
      b.length ≤ RPC_SIZE ∧ ∃ ok, c.accepts b executedWords = some ok ∧
        if ok then 4 * replyData 1 ≤ b.length ∧ fits else fits := by
    unfold Nfs.rpcLookupReply
    rw [parseReply_bind_isSome_iff]
    cases prog with
    | portmap => exact absurd rfl hprog
    | mount => simp only [exists_map_iff, hnext _ c.srvNfsPort, exists_and_right, hport, executedWords]
    | nfs => simp only [exists_map_iff, hnext c.srvMountPort, exists_and_right, hport, executedWords]
  rw [hrun]
  unfold ReplyFits
  constructor
  · rintro ⟨hsize, ok, hok, h⟩
    cases ok with
    | true => exact ⟨⟨hsize, true, hok, fun _ => h.1⟩, h.2⟩
    | false => exact ⟨⟨hsize, false, hok, fun hno => nomatch hno⟩, h⟩
  · rintro ⟨⟨hsize, ok, hok, h⟩, hfits⟩
    cases ok with
    | true => exact ⟨hsize, true, hok, h rfl, hfits⟩
    | false => exact ⟨hsize, false, hok, hfits⟩

theorem handle_isSome_iff : (∃ fh, replyBytes b (4 * replyData 1) NFS_FHSIZE = some fh) ↔ 4 * replyData 1 + NFS_FHSIZE ≤ b.length :=
  replyBytes_isSome_iff

theorem mount_isSome_iff : ((c.mountReply b b.length).bind fun r => if r.1 ≠ 0 then r.2.goto .umount else r.2.goto .lookup).isSome ↔
      ReplyFits c succeededWords b (4 * replyData 1 + NFS_FHSIZE ≤ b.length ∧ CallFits (.lookup c.dirfh c.filename)) := by
  have hlookup (fh : List UInt8) : (Nfs.goto { c with fsMounted := true, dirfh := fh } .lookup).isSome ↔
      CallFits (.lookup c.dirfh c.filename) := goto_lookup_isSome_iff
  unfold Nfs.mountReply
  rw [parseReply_bind_isSome_iff, ← replyFits_iff True.intro]
  simp only [exists_map_iff, ne_eq, not_true_eq_false, if_false, hlookup, exists_and_right, handle_isSome_iff,
    show ¬(-1 : Int) = 0 by decide, not_false_eq_true, if_true, goto_isSome (s := .umount) (by decide), succeededWords]

theorem lookup_isSome_iff : ((c.lookupReply b b.length).bind fun r =>
        if r.1 ≠ 0 then r.2.goto .umount else Nfs.goto { r.2 with offset := 0, len := NFS_READ_SIZE } .read).isSome ↔
      ReplyFits c succeededWords b (4 * replyData 1 + NFS_FHSIZE ≤ b.length) := by
  unfold Nfs.lookupReply
  rw [parseReply_bind_isSome_iff, ← replyFits_iff True.intro]
  simp only [exists_map_iff, ne_eq, not_true_eq_false, if_false, goto_isSome (s := .read) (by decide), show ¬(-1 : Int) = 0 by decide,
    not_false_eq_true, if_true, goto_isSome (s := .umount) (by decide), succeededWords]
  simp only [and_true, handle_isSome_iff]

theorem umount_isSome_iff : ((c.umountallReply b b.length).map fun r =>
        if r.1 ≠ 0 then (({ r.2 with net := .fail }, []) : Nfs × List NfsCall) else ({ r.2 with net := r.2.downloadState }, [])).isSome ↔
      ReplyFits c executedWords b True := by
  have hbind {α β : Type} (o : Option α) (f : α → β) : (o.map f).isSome ↔ (o.bind fun x => some (f x)).isSome := by
    cases o with
    | none => exact Iff.rfl
    | some x => exact Iff.rfl
  unfold Nfs.umountallReply
  rw [hbind, parseReply_bind_isSome_iff, ← replyFits_iff True.intro]
  simp [executedWords]

theorem followLink_isSome_iff : c.followLink.isSome ↔ ∃ dir name, splitPath c.path = some (dir, name) ∧ CallFits (.mount dir) := by
  unfold Nfs.followLink
  cases hsplit : splitPath c.path with
  | none => simp
  | some p =>
    obtain ⟨dir, name⟩ := p
    have hgoto : (Nfs.goto { c with path := dir, filename := name } .mount).isSome ↔ CallFits (.mount dir) := goto_mount_isSome_iff
    simp [hgoto]

theorem readlink_isSome_iff : ((c.readlinkReply b b.length).bind fun r => if r.1 ≠ 0 then r.2.goto .umount else r.2.followLink).isSome ↔
      ReplyFits c succeededWords b (LinkFits c b) := by
  unfold Nfs.readlinkReply
  rw [parseReply_bind_isSome_iff, ← replyFits_iff True.intro]
  have hlink (start link : List UInt8) (n : Nat) : (∃ c', (if start.length + n < NFS_PATH_SIZE then
      some { c with path := (start ++ link).takeWhile (· ≠ 0) } else none) = some c' ∧ c'.followLink.isSome) ↔
      start.length + n < NFS_PATH_SIZE ∧
        ∃ dir name, splitPath ((start ++ link).takeWhile (· ≠ 0)) = some (dir, name) ∧ CallFits (.mount dir) := by
    split
    next h => simp [followLink_isSome_iff, h]
    next h => simp [h]
  have hbytes (n : Nat) (P : List UInt8 → Prop) : (∃ link, replyBytes b (4 * replyData 2) n = some link ∧ P link) ↔
      4 * replyData 2 + n ≤ b.length ∧ P ((b.drop (4 * replyData 2)).take n) := by
    constructor
    · rintro ⟨link, h, hP⟩
      obtain ⟨hle, rfl⟩ := NfsAux.replyBytes_eq_some h
      exact ⟨hle, hP⟩
    · rintro ⟨hle, hP⟩
      exact ⟨_, NfsAux.replyBytes_of_le hle, hP⟩
  simp only [exists_bind_iff, ne_eq, not_true_eq_false, if_false, hlink, hbytes, show ¬(-1 : Int) = 0 by decide, not_false_eq_true,
    if_true, goto_isSome (s := .umount) (by decide), succeededWords]
  unfold LinkFits Nfs.linkedPath
  simp only [← exists_and_left]

/-- The end of `STATE_READ_REQ` sends a call without a path. -/
theorem afterRead_isSome (hs : c.state = .read) (rlen : Int) : (c.afterRead rlen).isSome := by
  unfold Nfs.afterRead
  split
  · rw [send_isSome_iff, Nfs.request]
    simp only [hs]
    show 24 + 4 * 20 ≤ RPC_SIZE
    decide
  · split
    · exact goto_isSome (by decide)
    · exact goto_isSome (by decide)

theorem read_isSome_iff (hs : c.state = .read) : ((c.readReply b).bind fun r => r.2.afterRead r.1).isSome ↔
    RPC_REPLY_SIZE ≤ b.length ∧ (c.accepts (b.take RPC_REPLY_SIZE) succeededWords = some true →
      ∀ rlen, replyWord b (replyData 18) = some rlen → RPC_REPLY_SIZE + rlen.toNat ≤ b.length) := by
  unfold Nfs.readReply
  by_cases hlen : RPC_REPLY_SIZE ≤ b.length
  · have hword (i : Nat) (hi : i ≤ 24) : ∃ w, replyWord (b.take RPC_REPLY_SIZE) i = some w := by
      refine NfsAux.exists_replyWord ?_
      rw [length_take_of_le hlen, RPC_REPLY_SIZE]
      omega
    obtain ⟨id, hid⟩ := hword replyId (by decide)
    obtain ⟨bad, hbad⟩ := anyNonzero_isSome (b := b.take RPC_REPLY_SIZE) succeededWords (by
      rw [length_take_of_le hlen]
      decide)
    have hbad' : anyNonzero (b.take RPC_REPLY_SIZE) [replyRstatus, replyVerifier, replyAstatus, replyData 0] = some bad := hbad
    rw [NfsAux.replyBytes_of_le (by omega), drop_zero, bind_some, hid, bind_some, and_iff_right hlen, Nfs.accepts, hid, bind_some, hbad, hbad']
    by_cases hne : id ≠ c.rpcId
    · rw [if_pos hne, if_pos hne]
      exact iff_of_true (afterRead_isSome hs _) fun hno => Bool.noConfusion (some.inj hno)
    · rw [if_neg hne, if_neg hne, map_some, bind_some]
      cases bad with
      | true =>
        -- a reply with an error is left as it is
        obtain ⟨rstatus, hrstatus⟩ := hword replyRstatus (by decide)
        obtain ⟨astatus, hastatus⟩ := hword replyAstatus (by decide)
        obtain ⟨status, hstatus⟩ := hword (replyData 0) (by decide)
        refine iff_of_true ?_ fun hno => Bool.noConfusion (some.inj hno)
        rw [if_pos rfl, hrstatus, hastatus, hstatus, bind_some, bind_some, bind_some]
        split
        · exact afterRead_isSome hs _
        · split
          · exact afterRead_isSome hs _
          · exact afterRead_isSome hs _
      | false =>
        obtain ⟨rlen, hrlen⟩ := hword (replyData 18) (by decide)
        have hrlen' : replyWord b (replyData 18) = some rlen := NfsAux.replyWord_of_take hrlen
        rw [if_neg Bool.false_ne_true, hrlen, hrlen', bind_some]
        by_cases hsrc : RPC_REPLY_SIZE + rlen.toNat ≤ b.length
        · rw [NfsAux.replyBytes_of_le hsrc, bind_some, bind_some]
          have hstored : (c.storeBlock ((b.drop RPC_REPLY_SIZE).take rlen.toNat) c.offset rlen).state = .read := hs
          exact iff_of_true (afterRead_isSome hstored _) fun _ _ h => some.inj h ▸ hsrc
        · rw [replyBytes, if_neg hsrc]
          exact iff_of_false Bool.false_ne_true fun h => hsrc (h rfl rlen rfl)
  · rw [replyBytes, if_neg (by omega)]
    exact iff_of_false Bool.false_ne_true fun h => hlen h.1

/-! ### The handler -/

/-- A packet to the port of the client is handled when it fits. -/
theorem handler_isSome_iff : (c.handler b dest b.length).isSome ↔ dest ≠ c.ourPort ∨ NfsFits c b := by
  by_cases hdest : dest ≠ c.ourPort
  · rw [Nfs.handler, if_pos hdest]
    exact iff_of_true rfl (Or.inl hdest)
  · rw [not_not] at hdest
    rw [or_iff_right fun h => h hdest, hdest]
    unfold NfsFits
    cases hs : c.state with
    | prclookupProgMount =>
      rw [NfsAux.handler_prclookupProgMount b _ hs,
        prclookup_isSome_iff (by decide) fun p q => iff_of_true (goto_isSome (by decide)) True.intro, and_true]
    | prclookupProgNfs =>
      have hmount (p q : UInt32) : (Nfs.goto { c with srvMountPort := p, srvNfsPort := q } .mount).isSome ↔ CallFits (.mount c.path) :=
        goto_mount_isSome_iff
      rw [NfsAux.handler_prclookupProgNfs b _ hs, prclookup_isSome_iff (by decide) hmount]
    | mount => rw [NfsAux.handler_mount b _ hs, mount_isSome_iff]
    | umount => rw [NfsAux.handler_umount b _ hs, umount_isSome_iff]
    | lookup => rw [NfsAux.handler_lookup b _ hs, lookup_isSome_iff]
    | readlink => rw [NfsAux.handler_readlink b _ hs, readlink_isSome_iff]
    | read => rw [NfsAux.handler_read b _ hs, read_isSome_iff hs]

/-! ### The memory -/

theorem send_mem (h : c.send = some (c', out)) : c'.mem = c.mem := by
  obtain ⟨id, rfl⟩ := NfsAux.send_eq h
  rfl

theorem goto_mem (h : c.goto s = some (c', out)) : c'.mem = c.mem := by
  have hmem := send_mem h
  exact hmem

theorem parseReply_mem (hkeep : ∀ b c', keep b = some c' → c'.mem = c.mem) (h : c.parseReply words keep b b.length = some p) : p.2.mem = c.mem := by
  obtain ⟨-, hc⟩ | ⟨-, -, -, hk⟩ := NfsAux.parseReply_eq_some h
  · rw [hc]
  · exact hkeep _ _ hk

theorem rpcLookupReply_mem (h : c.rpcLookupReply prog b b.length = some p) : p.2.mem = c.mem := by
  obtain ⟨q, r, hc⟩ := NfsAux.rpcLookupReply_eq_some h
  rw [hc]

theorem handle_mem {f : List UInt8 → Nfs}
    (h : c.parseReply words (fun b => (replyBytes b (4 * replyData 1) NFS_FHSIZE).map f) b b.length = some p)
    (hf : ∀ fh, (f fh).mem = c.mem) : p.2.mem = c.mem := by
  refine parseReply_mem (fun b c' hk => ?_) h
  obtain ⟨fh, -, rfl⟩ := map_eq_some_iff.1 hk
  exact hf fh

theorem readlinkReply_mem (h : c.readlinkReply b b.length = some p) : p.2.mem = c.mem := by
  refine parseReply_mem (fun b c' hk => ?_) h
  obtain ⟨rlen, -, hk⟩ := bind_eq_some_iff.1 hk
  obtain ⟨first, -, hk⟩ := bind_eq_some_iff.1 hk
  obtain ⟨link, -, hk⟩ := bind_eq_some_iff.1 hk
  dsimp only at hk
  by_cases hroom : (if first ≠ chSlash then c.path ++ [chSlash] else []).length + rlen.toNat < NFS_PATH_SIZE
  · rw [if_pos hroom] at hk
    cases hk
    rfl
  · rw [if_neg hroom] at hk
    cases hk

theorem afterRead_mem {rlen : Int} (h : c.afterRead rlen = some (c', out)) : c'.mem = c.mem := by
  unfold Nfs.afterRead at h
  split at h
  · have hmem := send_mem h
    exact hmem
  · split at h
    · exact goto_mem h
    · have hmem := goto_mem h
      exact hmem

/-- Only a block that was read is stored, and it is in the packet. -/
theorem handler_mem (h : c.handler b dest b.length = some (c', out)) :
    c'.mem = c.mem ∨ ∃ n, RPC_REPLY_SIZE + n ≤ b.length ∧ c'.mem = memcpy c.mem (c.loadAddr + c.offset) ((b.drop RPC_REPLY_SIZE).take n) := by
  by_cases hdest : dest ≠ c.ourPort
  · rw [Nfs.handler, if_pos hdest] at h
    cases h
    exact Or.inl rfl
  rw [not_not] at hdest
  subst hdest
  cases hs : c.state with
  | prclookupProgMount =>
    rw [NfsAux.handler_prclookupProgMount b _ hs] at h
    obtain ⟨r, hr, h⟩ := bind_eq_some_iff.1 h
    exact Or.inl ((goto_mem h).trans (rpcLookupReply_mem hr))
  | prclookupProgNfs =>
    rw [NfsAux.handler_prclookupProgNfs b _ hs] at h
    obtain ⟨r, hr, h⟩ := bind_eq_some_iff.1 h
    exact Or.inl ((goto_mem h).trans (rpcLookupReply_mem hr))
  | mount =>
    rw [NfsAux.handler_mount b _ hs] at h
    obtain ⟨r, hr, h⟩ := bind_eq_some_iff.1 h
    have hmem : r.2.mem = c.mem := handle_mem hr fun _ => rfl
    split at h
    · exact Or.inl ((goto_mem h).trans hmem)
    · exact Or.inl ((goto_mem h).trans hmem)
  | umount =>
    rw [NfsAux.handler_umount b _ hs] at h
    obtain ⟨r, hr, h⟩ := map_eq_some_iff.1 h
    have hmem : r.2.mem = c.mem := parseReply_mem (fun _ _ hk => by cases hk; rfl) hr
    split at h
    · cases h
      exact Or.inl hmem
    · cases h
      exact Or.inl hmem
  | lookup =>
    rw [NfsAux.handler_lookup b _ hs] at h
    obtain ⟨r, hr, h⟩ := bind_eq_some_iff.1 h
    have hmem : r.2.mem = c.mem := handle_mem hr fun _ => rfl
    split at h
    · exact Or.inl ((goto_mem h).trans hmem)
    · exact Or.inl ((goto_mem h).trans hmem)
  | readlink =>
    rw [NfsAux.handler_readlink b _ hs] at h
    obtain ⟨r, hr, h⟩ := bind_eq_some_iff.1 h
    have hmem : r.2.mem = c.mem := readlinkReply_mem hr
    split at h
    · exact Or.inl ((goto_mem h).trans hmem)
    · obtain ⟨p, -, h⟩ := bind_eq_some_iff.1 h
      exact Or.inl ((goto_mem h).trans hmem)
  | read =>
    rw [NfsAux.handler_read b _ hs] at h
    obtain ⟨⟨r, c₁⟩, hr, h⟩ := bind_eq_some_iff.1 h
    have hmem := afterRead_mem h
    obtain ⟨-, rfl, -⟩ | ⟨-, hread⟩ := NfsAux.readReply_eq_some hr
    · exact Or.inl hmem
    · cases hread with
      | notExecuted => exact Or.inl hmem
      | error => exact Or.inl hmem
      | @block rlen src _ _ hsrc =>
        obtain ⟨hle, rfl⟩ := NfsAux.replyBytes_eq_some hsrc
        exact Or.inr ⟨rlen.toNat, hle, hmem⟩

theorem inside_iff : NfsInside c b dest ↔ (c.handler b dest b.length).isSome := by
  constructor
  · rintro ⟨c', out, h, -⟩
    rw [h]
    rfl
  · intro h
    obtain ⟨⟨c', out⟩, h⟩ := isSome_iff_exists.1 h
    exact ⟨c', out, h, handler_mem h⟩

/-- The same with what is on the stack behind a packet: the words that are tested may be from there. -/
theorem handlerOn_isSome_iff {stack : List UInt8} (hstack : stack.length = RPC_SIZE) :
    (c.handlerOn stack b dest).isSome ↔ dest ≠ c.ourPort ∨
      (if c.state = .read then NfsFits c b else b.length ≤ RPC_SIZE ∧ NfsFits c (b ++ stack.drop b.length)) := by
  unfold Nfs.handlerOn
  by_cases hdest : dest ≠ c.ourPort
  · rw [if_pos hdest]
    exact iff_of_true rfl (Or.inl hdest)
  · rw [if_neg hdest, or_iff_right hdest]
    split
    · rw [handler_isSome_iff, or_iff_right hdest]
    · by_cases hsize : b.length ≤ RPC_SIZE
      · have hlen : (b ++ stack.drop b.length).length = RPC_SIZE := by
          rw [length_append, length_drop, hstack]
          omega
        rw [if_pos hsize, and_iff_right hsize, ← hlen, handler_isSome_iff, or_iff_right hdest]
      · rw [if_neg hsize]
        exact iff_of_false Bool.false_ne_true fun h => hsize h.1

/-- A client in the middle of a file, which has called 7 times. -/
def nfsReader : Nfs where
  fsMounted := true
  rpcId := 7
  offset := 0
  len := 1024
  dirfh := List.replicate 32 1
  filefh := List.replicate 32 2
  downloadState := .fail
  serverIP := [10, 0, 0, 1]
  srvMountPort := 635
  srvNfsPort := 2049
  ourPort := 1000
  timeoutCount := 0
  state := .read
  filename := [0x6b]
  path := [0x2f, 0x74]
  loadAddr := 0x1000
  xferSize := 0
  mem := fun _ => 0
  net := .running

/-- An answer to that client with a block that should have `rlen` bytes, and some bytes. -/
def blockReply (rlen : UInt8) (bytes : List UInt8) : List UInt8 :=
  [0, 0, 0, 7, 0, 0, 0, 1] ++ List.replicate 88 0 ++ [0, 0, 0, rlen] ++ bytes

end NfsInsideAux

open NfsInsideAux

/-- A packet is handled inside its bounds exactly if it is not for the client, or fits. With the words that are tested taken from the
stack where the packet does not have them, it is the packet with these bytes that has to fit, and it must not be longer than a
`struct rpc_t` itself. -/
theorem nfsHandler_inside_iff (c : Nfs) (pkt : List UInt8) (dest : Nat) : (NfsInside c pkt dest ↔ dest ≠ c.ourPort ∨ NfsFits c pkt) ∧
    ∀ (stack : List UInt8), stack.length = RPC_SIZE → ((c.handlerOn stack pkt dest).isSome ↔ dest ≠ c.ourPort ∨
        (if c.state = .read then NfsFits c pkt else pkt.length ≤ RPC_SIZE ∧ NfsFits c (pkt ++ stack.drop pkt.length))) :=
  ⟨inside_iff.trans handler_isSome_iff, fun _ hstack => handlerOn_isSome_iff hstack⟩

/-- A block of four bytes is stored. -/
theorem nfsHandler_inside_block : NfsInside nfsReader (blockReply 4 [5, 6, 7, 8]) 1000 ∧
      (nfsReader.handlerOn (List.replicate RPC_SIZE 0) (blockReply 4 [5, 6, 7, 8]) 1000).isSome := by
  have hfits : NfsFits nfsReader (blockReply 4 [5, 6, 7, 8]) := by
    refine ⟨by decide, fun _ rlen hrlen => ?_⟩
    obtain rfl : 4 = rlen := some.inj hrlen
    decide
  obtain ⟨hinside, hstack⟩ := nfsHandler_inside_iff nfsReader (blockReply 4 [5, 6, 7, 8]) 1000
  refine ⟨hinside.2 (Or.inr hfits), (hstack _ ?_).2 (Or.inr ?_)⟩
  · exact length_replicate
  · rw [if_pos (show nfsReader.state = .read from rfl)]
    exact hfits

/-- A block that is longer than its packet is not, in a packet of any network. -/
theorem nfsHandler_outside : ¬∀ (c : Nfs) (pkt : List UInt8) (dest : Nat), pkt.length ≤ 1472 → NfsInside c pkt dest := by
  intro h
  obtain ⟨c', out, hrun, -⟩ := h nfsReader (blockReply 8 [5, 6, 7, 8]) 1000 (by decide)
  have hnone : nfsReader.handler (blockReply 8 [5, 6, 7, 8]) 1000 (blockReply 8 [5, 6, 7, 8]).length = none := rfl
  rw [hnone] at hrun
  cases hrun

end

end UBoot
