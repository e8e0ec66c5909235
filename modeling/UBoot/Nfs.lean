import UBoot.Tftp

/-!
# The NFS client

net/nfs.c, without the direct-to-flash option. The global variables are the fields of `Nfs`, with `load_addr`,
`NetBootFileXferSize`, the memory and the state of `NetLoop` beside them. `int`, `ulong` and pointers have 32 bits, and an `int`
is kept as its bits. An IP address is its four octets. `nfs_path` always points to the start of `nfs_path_buff` and
`nfs_filename` behind the NUL that ends it, so the two are strings of their own here. A function that writes outside a buffer,
or reads what was never written, has the result `none`.
-/

namespace UBoot

section

open Lib

/-- `STATE_..._REQ` -/
inductive NfsState where
  | prclookupProgMount | prclookupProgNfs | mount | umount | lookup | read | readlink
  deriving DecidableEq, Repr

inductive RpcProg where
  | portmap | mount | nfs
  deriving DecidableEq, Repr

def NFS_FHSIZE : Nat := 32

def NFS_READ_SIZE : UInt32 := 1024

def NFS_RETRY_COUNT : Nat := 30

/-- The size of `struct rpc_t`, and of its `reply`. -/
def RPC_SIZE : Nat := 2048
def RPC_REPLY_SIZE : Nat := 100

/-- The size of `nfs_path_buff`. -/
def NFS_PATH_SIZE : Nat := 2048

/-- What a call asks for, with the arguments of the functions that build it. The credentials are the same in every call. -/
inductive NfsRequest where
  | getport (prog : RpcProg)
  | mount (path : List UInt8)
  | umountAll
  | lookup (dirfh name : List UInt8)
  | read (fh : List UInt8) (offset readlen : UInt32)
  | readlink (fh : List UInt8)
  deriving DecidableEq

/-- A packet the client sends. -/
structure NfsCall where
  ip : List UInt8
  port : UInt32
  id : UInt32
  request : NfsRequest
  deriving DecidableEq

/-- The state of the client. -/
structure Nfs where
  fsMounted : Bool
  rpcId : UInt32
  offset : UInt32
  len : UInt32
  dirfh : List UInt8
  filefh : List UInt8
  downloadState : NetState
  serverIP : List UInt8
  srvMountPort : UInt32
  srvNfsPort : UInt32
  ourPort : Nat
  timeoutCount : Nat
  state : NfsState
  filename : List UInt8
  path : List UInt8
  loadAddr : UInt32
  xferSize : UInt32
  mem : UInt32 → UInt8
  net : NetState

/-! ## Paths -/

/-- `'/'` -/
def chSlash : UInt8 := 0x2f

def lastSlash (path : List UInt8) : Option Nat :=
  (List.range path.length).reverse.find? fun i => path[i]? = some chSlash

/-- `basename` and then `dirname`: the directory and the file name. Without a slash `dirname` writes before the path. -/
def splitPath (path : List UInt8) : Option (List UInt8 × List UInt8) :=
  (lastSlash path).map fun i => (path.take i, path.drop (i + 1))

/-- `"%02X"` of a byte. -/
def hexByte (b : UInt8) : List UInt8 :=
  let digit (d : Nat) : UInt8 := UInt8.ofNat (if d < 10 then 0x30 + d else 0x41 + (d - 10))
  [digit (b.toNat / 16), digit (b.toNat % 16)]

/-- `default_filename`: `"/nfsroot/%02X%02X%02X%02X.img"`. -/
def defaultFilename (ourIP : List UInt8) : List UInt8 :=
  [0x2f, 0x6e, 0x66, 0x73, 0x72, 0x6f, 0x6f, 0x74, 0x2f] ++ ourIP.flatMap hexByte ++ [0x2e, 0x69, 0x6d, 0x67]

/-- `simple_strtoul` for a base of 10: the number, and `endp`. -/
def strtoulEndTen : List UInt8 → Nat × List UInt8
  | 0x30 :: 0x78 :: d :: cp =>
    if (xdigit d).isSome then strtoulEndLoop 16 0 (d :: cp) else strtoulEndLoop 10 0 (0x78 :: d :: cp)
  | cp => strtoulEndLoop 10 0 cp

/-- The loop of `string_to_ip`, for the octets that are left. -/
def stringToIp : Nat → List UInt8 → List UInt8
  | 0, _ => []
  | n + 1, s => UInt8.ofNat (strtoulEndTen s).1 :: stringToIp n ((strtoulEndTen s).2.drop 1)

/-- The server and the path that `NfsStart` takes from `BootFile`. -/
def bootPath (bootFile ourIP serverIP : List UInt8) : List UInt8 × List UInt8 :=
  if bootFile = [] then (serverIP, defaultFilename ourIP)
  else if chColon ∈ bootFile then (stringToIp 4 bootFile, (bootFile.dropWhile (· ≠ chColon)).drop 1)
  else (serverIP, bootFile)

/-! ## Requests -/

/-- The program a call is made to, which decides the port. -/
def NfsRequest.prog : NfsRequest → RpcProg
  | .getport _ => .portmap
  | .mount _ | .umountAll => .mount
  | .lookup .. | .read .. | .readlink _ => .nfs

/-- `datalen`: the words of a call behind its header. The credentials are 9 words, a handle is 8. -/
def NfsRequest.datalen : NfsRequest → Nat
  | .getport _ => 8
  | .mount path => 9 + 1 + (path.length + 3) / 4
  | .umountAll => 9
  | .lookup _ name => 9 + 8 + 1 + (name.length + 3) / 4
  | .read .. => 9 + 8 + 3
  | .readlink _ => 9 + 8

/-- `rpc_req`: a new id, and the call is sent. `SUNRPC_PORT` is 111. -/
def Nfs.rpcReq (c : Nfs) (r : NfsRequest) : Option (Nfs × List NfsCall) :=
  if 24 + 4 * r.datalen ≤ RPC_SIZE then
    let port := match r.prog with
      | .portmap => 111
      | .mount => c.srvMountPort
      | .nfs => c.srvNfsPort
    some ({ c with rpcId := c.rpcId + 1 }, [⟨c.serverIP, port, c.rpcId + 1, r⟩])
  else none

def Nfs.umountallReq (c : Nfs) : Option (Nfs × List NfsCall) :=
  if c.srvMountPort = 0xffffffff ∨ c.fsMounted = false then some (c, []) else c.rpcReq .umountAll

def Nfs.send (c : Nfs) : Option (Nfs × List NfsCall) :=
  match c.state with
  | .prclookupProgMount => c.rpcReq (.getport .mount)
  | .prclookupProgNfs => c.rpcReq (.getport .nfs)
  | .mount => c.rpcReq (.mount c.path)
  | .umount => c.umountallReq
  | .lookup => c.rpcReq (.lookup c.dirfh c.filename)
  | .read => c.rpcReq (.read c.filefh c.offset c.len)
  | .readlink => c.rpcReq (.readlink c.filefh)

/-! ## Replies -/

/-- Four bytes as a number, the first one high. -/
def ntohl (a b c d : UInt8) : UInt32 :=
  UInt32.ofNat (((a.toNat * 256 + b.toNat) * 256 + c.toNat) * 256 + d.toNat)

/-- A word of a packet. -/
def replyWord (b : List UInt8) (i : Nat) : Option UInt32 :=
  match b.drop (4 * i) with
  | a₀ :: a₁ :: a₂ :: a₃ :: _ => some (ntohl a₀ a₁ a₂ a₃)
  | _ => none

/-- Some bytes of a packet. -/
def replyBytes (b : List UInt8) (offset n : Nat) : Option (List UInt8) :=
  if offset + n ≤ b.length then some ((b.drop offset).take n) else none

/-! The words of `reply` in `struct rpc_t`. -/

def replyId : Nat := 0
def replyRstatus : Nat := 2
def replyVerifier : Nat := 3
def replyAstatus : Nat := 5
def replyData (i : Nat) : Nat := 6 + i

/-- `memcpy` of a packet to a `struct rpc_t`. -/
def rpcCopy (pkt : List UInt8) (len : Nat) : Option (List UInt8) :=
  if len ≤ RPC_SIZE then replyBytes pkt 0 len else none

/-- Whether one of some words is not zero. The words behind the first such one are not read. -/
def anyNonzero (b : List UInt8) : List Nat → Option Bool
  | [] => some false
  | i :: is => (replyWord b i).bind fun w => if w ≠ 0 then some true else anyNonzero b is

/-- The tests at the start of every parser: the id is that of the last call, and some words are zero. -/
def Nfs.accepts (c : Nfs) (b : List UInt8) (words : List Nat) : Option Bool :=
  (replyWord b replyId).bind fun id => if id ≠ c.rpcId then some false else (anyNonzero b words).map (! ·)

/-- A parser other than `nfs_read_reply`: -1 if the tests fail, else 0 and what it keeps of the packet. -/
def Nfs.parseReply (c : Nfs) (words : List Nat) (keep : List UInt8 → Option Nfs) (pkt : List UInt8) (len : Nat) : Option (Int × Nfs) :=
  (rpcCopy pkt len).bind fun b => (c.accepts b words).bind fun ok => if ok then (keep b).map (0, ·) else some (-1, c)

def Nfs.rpcLookupReply (c : Nfs) (prog : RpcProg) : List UInt8 → Nat → Option (Int × Nfs) :=
  c.parseReply [replyRstatus, replyVerifier, replyAstatus] fun b =>
    match prog with
    | .mount => (replyWord b (replyData 0)).map fun port => { c with srvMountPort := port }
    | .nfs => (replyWord b (replyData 0)).map fun port => { c with srvNfsPort := port }
    | .portmap => some c

def Nfs.mountReply (c : Nfs) : List UInt8 → Nat → Option (Int × Nfs) :=
  c.parseReply [replyRstatus, replyVerifier, replyAstatus, replyData 0] fun b =>
    (replyBytes b (4 * replyData 1) NFS_FHSIZE).map fun fh => { c with fsMounted := true, dirfh := fh }

def Nfs.umountallReply (c : Nfs) : List UInt8 → Nat → Option (Int × Nfs) :=
  c.parseReply [replyRstatus, replyVerifier, replyAstatus] fun _ =>
    some { c with fsMounted := false, dirfh := List.replicate NFS_FHSIZE 0 }

def Nfs.lookupReply (c : Nfs) : List UInt8 → Nat → Option (Int × Nfs) :=
  c.parseReply [replyRstatus, replyVerifier, replyAstatus, replyData 0] fun b =>
    (replyBytes b (4 * replyData 1) NFS_FHSIZE).map fun fh => { c with filefh := fh }

/-- `nfs_readlink_reply`. The first byte of the link is looked at even if its length is 0. -/
def Nfs.readlinkReply (c : Nfs) : List UInt8 → Nat → Option (Int × Nfs) :=
  c.parseReply [replyRstatus, replyVerifier, replyAstatus, replyData 0] fun b =>
    (replyWord b (replyData 1)).bind fun rlen => (b[4 * replyData 2]?).bind fun first =>
      (replyBytes b (4 * replyData 2) rlen.toNat).bind fun link =>
        let start := if first ≠ chSlash then c.path ++ [chSlash] else []
        if start.length + rlen.toNat < NFS_PATH_SIZE then
          some { c with path := (start ++ link).takeWhile (· ≠ 0) }
        else none

/-- An `int` from its bits. -/
def asInt (w : UInt32) : Int := if w.toNat < 2 ^ 31 then w.toNat else (w.toNat : Int) - 2 ^ 32

/-- `memcpy` to an address. -/
def memcpy (mem : UInt32 → UInt8) (dst : UInt32) (src : List UInt8) : UInt32 → UInt8 :=
  fun a => src[(a - dst).toNat]?.getD (mem a)

def Nfs.storeBlock (c : Nfs) (src : List UInt8) (offset len : UInt32) : Nfs :=
  { c with
    mem := memcpy c.mem (c.loadAddr + offset) src
    xferSize := if c.xferSize < offset + len then offset + len else c.xferSize }

/-- `nfs_read_reply`, without the progress marks. It copies a whole `reply` whatever the length of the packet. -/
def Nfs.readReply (c : Nfs) (pkt : List UInt8) : Option (Int × Nfs) :=
  (replyBytes pkt 0 RPC_REPLY_SIZE).bind fun b => (replyWord b replyId).bind fun id =>
    if id ≠ c.rpcId then some (-1, c)
    else
      (anyNonzero b [replyRstatus, replyVerifier, replyAstatus, replyData 0]).bind fun bad =>
        if bad then
          (replyWord b replyRstatus).bind fun rstatus => (replyWord b replyAstatus).bind fun astatus =>
            (replyWord b (replyData 0)).bind fun status =>
              if rstatus ≠ 0 then some (-9999, c)
              else if astatus ≠ 0 then some (-9999, c)
              else some (asInt (-status), c)
        else
          (replyWord b (replyData 18)).bind fun rlen => (replyBytes pkt RPC_REPLY_SIZE rlen.toNat).bind fun src =>
            some (asInt rlen, c.storeBlock src c.offset rlen)

/-! ## NfsStart, NfsHandler and NfsTimeout -/

/-- A new value of `NfsState`, and `NfsSend`. -/
def Nfs.goto (c : Nfs) (state : NfsState) : Option (Nfs × List NfsCall) := Nfs.send { c with state := state }

/-- `STATE_READLINK_REQ` after a link was read: split the new path and mount its directory. -/
def Nfs.followLink (c : Nfs) : Option (Nfs × List NfsCall) :=
  (splitPath c.path).bind fun p => Nfs.goto { c with path := p.1, filename := p.2 } .mount

/-- `STATE_READ_REQ` with the result of `nfs_read_reply`. `NFSERR_ISDIR` is 21 and `NFSERR_INVAL` is 22. -/
def Nfs.afterRead (c : Nfs) (rlen : Int) : Option (Nfs × List NfsCall) :=
  if 0 < rlen then Nfs.send { c with offset := c.offset + UInt32.ofNat rlen.toNat }
  else if rlen = -21 ∨ rlen = -22 then c.goto .readlink
  else Nfs.goto { c with downloadState := if rlen = 0 then .success else c.downloadState } .umount

/-- `NfsHandler`: the state after a packet and the packets sent. `pkt` is the receive buffer from the packet on, which is
`len` bytes long. -/
def Nfs.handler (c : Nfs) (pkt : List UInt8) (dest len : Nat) : Option (Nfs × List NfsCall) :=
  if dest ≠ c.ourPort then some (c, [])
  else
    match c.state with
    | .prclookupProgMount => (c.rpcLookupReply .mount pkt len).bind fun r => r.2.goto .prclookupProgNfs
    | .prclookupProgNfs => (c.rpcLookupReply .nfs pkt len).bind fun r => r.2.goto .mount
    | .mount => (c.mountReply pkt len).bind fun r => if r.1 ≠ 0 then r.2.goto .umount else r.2.goto .lookup
    | .umount => (c.umountallReply pkt len).map fun r =>
        if r.1 ≠ 0 then ({ r.2 with net := .fail }, []) else ({ r.2 with net := r.2.downloadState }, [])
    | .lookup => (c.lookupReply pkt len).bind fun r =>
        if r.1 ≠ 0 then r.2.goto .umount else Nfs.goto { r.2 with offset := 0, len := NFS_READ_SIZE } .read
    | .readlink => (c.readlinkReply pkt len).bind fun r => if r.1 ≠ 0 then r.2.goto .umount else r.2.followLink
    | .read => (c.readReply pkt).bind fun r => r.2.afterRead r.1

/-- `NfsTimeout`. Whether `NetStartAgain` retries is up to `netretry`. -/
def Nfs.timeout (c : Nfs) (retry : Bool) : Option (Nfs × List NfsCall) :=
  let c := { c with timeoutCount := c.timeoutCount + 1 }
  if c.timeoutCount > NFS_RETRY_COUNT then some ({ c with net := if retry then .restart else .fail }, [])
  else c.send

/-- What `NetLoop` finds when it calls `NfsStart`. -/
structure NfsBoot where
  bootFile : List UInt8
  ourIP : List UInt8
  serverIP : List UInt8
  loadAddr : UInt32
  mem : UInt32 → UInt8

/-- `NfsStart` as `NetLoop` calls it, with the size cleared. -/
def Nfs.start (c : Nfs) (b : NfsBoot) : Option (Nfs × List NfsCall) :=
  let sp := bootPath b.bootFile b.ourIP b.serverIP
  (splitPath sp.2).bind fun p =>
    Nfs.goto
      { c with
        net := .running, xferSize := 0, loadAddr := b.loadAddr, mem := b.mem
        downloadState := .fail, serverIP := sp.1, path := p.1, filename := p.2, timeoutCount := 0, ourPort := 1000 }
      .prclookupProgMount

end

/-!
## The NFS client and a server

The system the client is part of, from power-on and over any number of transfers. An honest server answers a call with the id
of the call and with what its file system has. The channel delivers any answer to any call made so far, at any time and any
number of times; a lost answer is one that no step delivers. The call numbers below count every call of the client, which has
only 32 bits for them.
-/

section

open Lib

/-! ## The server -/

/-- What a file handle stands for. -/
inductive NfsNode where
  | file (bytes : List UInt8)
  | link (target : List UInt8)
  | other
  deriving DecidableEq

def NfsNode.isFile : NfsNode → Bool
  | .file _ => true
  | _ => false

/-- Where a link leads. -/
def NfsNode.target : NfsNode → Option (List UInt8)
  | .link target => some target
  | _ => none

/-- The file system of the server: the handles of directories that can be mounted, of names in a directory, and what they stand
for. -/
structure NfsServer where
  mount : List UInt8 → Option (List UInt8)
  lookup : List UInt8 → List UInt8 → Option (List UInt8)
  node : List UInt8 → NfsNode

/-- The path that a link found in directory `dir` leads to. -/
def linkPath (dir target : List UInt8) : List UInt8 :=
  (if target.head? = some chSlash then target else dir ++ chSlash :: target).takeWhile (· ≠ 0)

/-- The handle of a name in a directory. -/
def NfsServer.find (srv : NfsServer) (dir name : List UInt8) : Option (List UInt8) :=
  (srv.mount dir).bind fun dirfh => srv.lookup dirfh name

/-- The file that a name in a directory leads to, through any number of links. -/
inductive NfsServer.NamesFile (srv : NfsServer) : List UInt8 → List UInt8 → List UInt8 → Prop where
  | file {dir name fh bytes : List UInt8} : srv.find dir name = some fh → srv.node fh = .file bytes →
      NamesFile srv dir name bytes
  | link {dir name fh target dir' name' bytes : List UInt8} : srv.find dir name = some fh → srv.node fh = .link target →
      splitPath (linkPath dir target) = some (dir', name') → NamesFile srv dir' name' bytes → NamesFile srv dir name bytes

theorem NfsServer.NamesFile.unique {srv : NfsServer} {dir name F F' : List UInt8} (h : srv.NamesFile dir name F)
    (h' : srv.NamesFile dir name F') : F = F' := by
  induction h with
  | file hf hn =>
    cases h' with
    | file hf' hn' =>
      obtain rfl := Option.some.inj (hf.symm.trans hf')
      exact NfsNode.file.inj (hn.symm.trans hn')
    | link hf' hn' _ _ =>
      obtain rfl := Option.some.inj (hf.symm.trans hf')
      cases hn.symm.trans hn'
  | link hf hn hp _ ih =>
    cases h' with
    | file hf' hn' =>
      obtain rfl := Option.some.inj (hf.symm.trans hf')
      cases hn.symm.trans hn'
    | link hf' hn' hp' h' =>
      obtain rfl := Option.some.inj (hf.symm.trans hf')
      obtain rfl := NfsNode.link.inj (hn.symm.trans hn')
      obtain ⟨rfl, rfl⟩ := Prod.mk.inj (Option.some.inj (hp.symm.trans hp'))
      exact ih h'

/-! ## Honest answers -/

/-- The server denied the call, or did not execute it. -/
def NotExecuted (pkt : List UInt8) : Prop :=
  (replyWord pkt replyRstatus).any (· ≠ 0) = true ∨ (replyWord pkt replyAstatus).any (· ≠ 0) = true

/-- The server executed the call. -/
def Executed (pkt : List UInt8) : Prop := replyWord pkt replyRstatus = some 0 ∧ replyWord pkt replyAstatus = some 0

/-- The server executed the call without an error. -/
def Succeeded (pkt : List UInt8) : Prop := Executed pkt ∧ replyWord pkt (replyData 0) = some 0

/-- The bytes of a packet are what was found. -/
def Carries (bytes found : Option (List UInt8)) : Prop := bytes.isSome = true ∧ bytes = found

instance (bytes found : Option (List UInt8)) : Decidable (Carries bytes found) := inferInstanceAs (Decidable (_ ∧ _))

/-- The bytes of a file from the requested offset on and their number, which is 0 at or behind the end only. -/
def CarriesBlock (offset : UInt32) (pkt : List UInt8) : NfsNode → Prop
  | .file bytes => (replyWord pkt (replyData 18)).any fun count =>
      replyBytes pkt RPC_REPLY_SIZE count.toNat = some ((bytes.drop offset.toNat).take count.toNat) ∧
      (count = 0 → bytes.length ≤ offset.toNat)
  | _ => False

/-- What the server does with a READ: it is not executed, or fails (a link or a directory with its own errors), or carries
bytes of the file. -/
def AnswersRead (node : NfsNode) (offset : UInt32) (pkt : List UInt8) : Prop :=
  NotExecuted pkt ∨
  Executed pkt ∧ (replyWord pkt (replyData 0)).any (· ≠ 0) = true ∧
    (replyWord pkt (replyData 0) = some 21 ∨ replyWord pkt (replyData 0) = some 22 → node.isFile = false) ∨
  Succeeded pkt ∧ CarriesBlock offset pkt node

/-- What the server does with a READLINK. -/
def AnswersReadlink (node : NfsNode) (pkt : List UInt8) : Prop :=
  Succeeded pkt → (replyWord pkt (replyData 1)).any fun count =>
    Carries (replyBytes pkt (4 * replyData 2) count.toNat) node.target

/-- What an honest server answers. The portmapper's and the unmounting answers may hold anything. -/
def NfsServer.Answers (srv : NfsServer) (pkt : List UInt8) : NfsRequest → Prop
  | .getport _ | .umountAll => True
  | .mount path => Succeeded pkt → Carries (replyBytes pkt (4 * replyData 1) NFS_FHSIZE) (srv.mount path)
  | .lookup dirfh name => Succeeded pkt → Carries (replyBytes pkt (4 * replyData 1) NFS_FHSIZE) (srv.lookup dirfh name)
  | .read fh offset _ => AnswersRead (srv.node fh) offset pkt
  | .readlink fh => AnswersReadlink (srv.node fh) pkt

instance (pkt : List UInt8) : Decidable (NotExecuted pkt) := inferInstanceAs (Decidable (_ ∨ _))

instance (pkt : List UInt8) : Decidable (Executed pkt) := inferInstanceAs (Decidable (_ ∧ _))

instance (pkt : List UInt8) : Decidable (Succeeded pkt) := inferInstanceAs (Decidable (_ ∧ _))

instance (offset : UInt32) (pkt : List UInt8) : (node : NfsNode) → Decidable (CarriesBlock offset pkt node)
  | .file _ => inferInstanceAs (Decidable (_ = true))
  | .link _ | .other => inferInstanceAs (Decidable False)

instance (node : NfsNode) (offset : UInt32) (pkt : List UInt8) : Decidable (AnswersRead node offset pkt) :=
  inferInstanceAs (Decidable (_ ∨ _))

instance (node : NfsNode) (pkt : List UInt8) : Decidable (AnswersReadlink node pkt) := inferInstanceAs (Decidable (_ → _))

instance (srv : NfsServer) (pkt : List UInt8) : (r : NfsRequest) → Decidable (srv.Answers pkt r)
  | .getport _ | .umountAll => inferInstanceAs (Decidable True)
  | .mount _ | .lookup .. => inferInstanceAs (Decidable (_ → _))
  | .read fh offset _ => inferInstanceAs (Decidable (AnswersRead (srv.node fh) offset pkt))
  | .readlink fh => inferInstanceAs (Decidable (AnswersReadlink (srv.node fh) pkt))

/-! ## The system -/

/-- The client, every call it has made, the oldest first, and the directory and the name of the file the transfer is for. -/
structure NfsNet where
  client : Nfs
  calls : List NfsCall
  dir : List UInt8
  name : List UInt8

/-- What can happen next: `NetLoop` starts a transfer, an answer to the `k`-th call reaches the client, in a receive buffer with
`rest` behind it, or the client's timer runs out. -/
inductive NfsStep where
  | start (b : NfsBoot)
  | deliver (k : Nat) (pkt rest : List UInt8)
  | timeout (retry : Bool)

/-- Power-on: no transfer, and the variables as the loader clears them. -/
def NfsNet.powerOn (mem : UInt32 → UInt8) : NfsNet where
  client :=
    { fsMounted := false, rpcId := 0, offset := 0xffffffff, len := 0
      dirfh := List.replicate NFS_FHSIZE 0, filefh := List.replicate NFS_FHSIZE 0
      downloadState := .running, serverIP := [0, 0, 0, 0], srvMountPort := 0, srvNfsPort := 0, ourPort := 0
      timeoutCount := 0, state := .umount, filename := [], path := [], loadAddr := 0, xferSize := 0, mem := mem, net := .fail }
  calls := []
  dir := []
  name := []

/-- The calls of a step are added to those made before. -/
def NfsNet.update (s : NfsNet) (r : Option (Nfs × List NfsCall)) : Option NfsNet :=
  r.map fun r => { s with client := r.1, calls := s.calls ++ r.2 }

def NfsNet.step (srv : NfsServer) (s : NfsNet) : NfsStep → Option NfsNet
  | .start b =>
    if s.client.net ≠ .running then
      (s.update (s.client.start b)).map fun s => { s with dir := s.client.path, name := s.client.filename }
    else none
  | .deliver k pkt rest =>
    match s.calls[k]? with
    | none => none
    | some call =>
      if s.client.net = .running ∧ pkt.length < 2 ^ 16 ∧ replyWord pkt replyId = some call.id ∧ srv.Answers pkt call.request then
        s.update (s.client.handler (pkt ++ rest) s.client.ourPort pkt.length)
      else none
  | .timeout retry => if s.client.net = .running then s.update (s.client.timeout retry) else none

end

end UBoot
