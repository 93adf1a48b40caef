import Bsd386.Kern.Descrip.Integrity

/-!
# Rights in flight

Sending open files over local sockets, after `un/unusrreq.c`. A control message in the queue of a
socket holds pointers to files, each of which counts in `f_count` and in `f_msgcount`; a pointer
that was cleared is `none`. The socket that refers to a pending connection has it in one of its two
queues, and a connection to a socket is known at the socket that made it, so that the inverse links
`so_head` and `unp_refs` are not kept. The data behind the control message of a record are mbufs
with a length.
-/

namespace Bsd386.Un

open Kern (Fault)
open Kern.Descrip (Filedesc Proc short fdalloc)

/-- The errors of the requests; `lookup` is one of the path name of an address. -/
inductive Errno
  | einval
  | ebadf
  | emsgsize
  | enobufs
  | eisconn
  | enotconn
  | epipe
  | eprototype
  | lookup (errno : ℕ)
  deriving DecidableEq

/-- What an mbuf has in it. -/
inductive Contents (F : Type) where
  | data
  | soname
  | control (rights : List (Option F))

/-- `struct mbuf`, with the memory that counts against the limit. -/
structure Mbuf (F : Type) where
  mLen : ℕ
  space : ℤ
  contents : Contents F

/-- A record of a receive buffer. -/
abbrev Chain (F : Type) : Type := List (Mbuf F)

/-- `struct sockbuf`. -/
structure Sockbuf (F : Type) where
  sbCc : ℤ
  sbHiwat : ℤ
  sbMbcnt : ℤ
  sbMbmax : ℤ
  sbMb : List (Chain F)

/-- A local socket: `struct socket` and its `struct unpcb`. `pending` are the connections of `so_q0`
and `so_q` that wait for `accept`, and `addr` is the length of the name. -/
structure Socket (F S : Type) where
  stream : Bool
  cantsendmore : Bool
  pending : List S
  conn : Option S
  addr : Option ℕ
  sndHiwat : ℤ
  sndMbmax : ℤ
  unpCc : ℤ
  unpMbcnt : ℤ
  rcv : Sockbuf F

/-- The processes, the open files with the local socket behind a file, the local sockets, and
`unp_rights` and `unp_gcing`. -/
structure System (F S : Type) where
  procs : List (Proc F)
  filehead : List F
  count : F → ℤ
  msgcount : F → ℤ
  socketOf : F → Option S
  socks : List S
  socket : S → Socket F S
  unpRights : ℤ
  unpGcing : Bool

/-- The flags `FMARK` and `FDEFER` of the files, and `unp_defer`. -/
structure Marks (F : Type) where
  mark : F → Bool
  defer : F → Bool
  unpDefer : ℤ

variable {F S : Type}

/-- The pointers in a control message. -/
def Mbuf.rights (m : Mbuf F) : List (Option F) :=
  match m.contents with
  | .control rights => rights
  | _ => []

/-- The mbuf is a control message. -/
def Mbuf.isControl (m : Mbuf F) : Bool :=
  match m.contents with
  | .control _ => true
  | _ => false

/-- `sbspace`. -/
def Sockbuf.sbspace (sb : Sockbuf F) : ℤ := min (sb.sbHiwat - sb.sbCc) (sb.sbMbmax - sb.sbMbcnt)

/-- The data of a chain. -/
def chainLen (chain : Chain F) : ℕ := (chain.map Mbuf.mLen).sum

/-- Put a record behind the others. -/
def Sockbuf.append (sb : Sockbuf F) (record : Chain F) : Sockbuf F :=
  { sb with
    sbCc := sb.sbCc + chainLen record
    sbMbcnt := sb.sbMbcnt + (record.map Mbuf.space).sum
    sbMb := sb.sbMb ++ [record] }

/-- `sbappendaddr`, with `fresh` whether there is an mbuf for the address. -/
def Sockbuf.sbappendaddr (sb : Sockbuf F) (asa : ℕ) (m0 control : Chain F) (fresh : Bool) :
    Option (Sockbuf F) :=
  if sb.sbspace < asa + chainLen m0 + chainLen control ∨ 108 < asa ∨ fresh = false then none
  else some (sb.append (⟨asa, 128, .soname⟩ :: (control ++ m0)))

/-- `sbappendcontrol`. -/
def Sockbuf.sbappendcontrol (sb : Sockbuf F) (m0 control : Chain F) : Option (Sockbuf F) :=
  if sb.sbspace < chainLen m0 + chainLen control then none else some (sb.append (control ++ m0))

/-- `sbfree`, with the queue that is left. -/
def Sockbuf.sbfree (sb : Sockbuf F) (m : Mbuf F) : Sockbuf F :=
  { sb with sbCc := sb.sbCc - m.mLen, sbMbcnt := sb.sbMbcnt - m.space }

/-- `unp_scan` of one record: it stops at the first control message. -/
def scanRecord (record : Chain F) : List (Option F) :=
  ((record.find? Mbuf.isControl).map Mbuf.rights).getD []

/-- `unp_scan`: the pointers that it applies the operation to. -/
def scan (records : List (Chain F)) : List (Option F) := records.flatMap scanRecord

/-- The message that a control mbuf holds, of which `words` are the descriptors behind the header.
The system call checks that the header is complete. -/
structure Control where
  mLen : ℕ
  cmsgLen : ℕ
  isRights : Bool
  words : List ℕ
  sizeof_le : 12 ≤ mLen

/-- The descriptors that are sent. -/
def Control.fds (control : Control) : List ℕ := control.words.take ((control.cmsgLen - 12) / 4)

/-- The control mbuf with pointers in it. -/
def Control.message (control : Control) (files : List F) : Chain F :=
  [⟨control.mLen, 128, .control (files.map some)⟩]

/-- The mbufs of the data, each with its length and its memory. -/
def dataChain (m : List (ℕ × ℤ)) : Chain F := m.map fun d ↦ ⟨d.1, d.2, .data⟩

/-- The loop of `fdavail` over the entries that it looks at, with `n` descriptors wanted. -/
def fdavailLoop : List (Kern.Descrip.Slot F) → ℤ → Bool
  | [], _ => false
  | slot :: slots, n =>
    if slot.file.isNone then if n - 1 ≤ 0 then true else fdavailLoop slots (n - 1)
    else fdavailLoop slots n

/-- `fdavail`. -/
def fdavail (lim : ℤ) (fdp : Filedesc F) (n : ℤ) : Bool :=
  let i := lim - fdp.nfiles
  if 0 < i then n - i ≤ 0 ∨ fdavailLoop (fdp.slots.drop fdp.freefile) (n - i)
  else fdavailLoop (fdp.slots.drop fdp.freefile) n

variable [DecidableEq F] [DecidableEq S]

namespace System

/-- The memory of a file is not free. -/
def file (s : System F S) (fp : F) : Except Fault Unit :=
  if fp ∈ s.filehead then .ok () else .error .wildPointer

/-- The socket at an address. -/
def sock (s : System F S) (x : S) : Except Fault (Socket F S) :=
  if x ∈ s.socks then .ok (s.socket x) else .error .wildPointer

/-- Change a socket. -/
def setSock (s : System F S) (x : S) (so : Socket F S) : System F S :=
  { s with socket := Function.update s.socket x so }

/-- Set `f_count`. -/
def setCount (s : System F S) (fp : F) (n : ℤ) : System F S :=
  { s with count := Function.update s.count fp n }

/-- Add to `f_msgcount` and to `unp_rights`. -/
def addMsg (s : System F S) (fp : F) (n : ℤ) : System F S :=
  { s with
    msgcount := Function.update s.msgcount fp (short (s.msgcount fp + n))
    unpRights := s.unpRights + n }

/-- `ffree`. -/
def ffree (s : System F S) (fp : F) : Except Fault (System F S) :=
  if fp ∈ s.filehead then .ok { s with filehead := s.filehead.erase fp } else .error .wildPointer

/-! ### Disposing of rights

What closes a file when its last reference goes is the argument `close`. -/

section Close

variable (close : F → System F S → Except Fault (System F S))

/-- `unp_discard`. -/
def unpDiscard (fp : Option F) (s : System F S) : Except Fault (System F S) :=
  match fp with
  | none => .error .nullPointer
  | some fp => do
    s.file fp
    if s.msgcount fp = 0 then return s else close fp (s.addMsg fp (-1))

/-- `unp_scan` with `unp_discard`. -/
def discardAll : List (Option F) → System F S → Except Fault (System F S)
  | [], s => .ok s
  | fp :: rights, s => do discardAll rights (← unpDiscard close fp s)

/-- `unp_dispose`. -/
def unpDispose (records : List (Chain F)) (s : System F S) : Except Fault (System F S) :=
  discardAll close (scan records) s

/-- `unp_mark`. -/
def unpMark (s : System F S) (marks : Marks F) (fp : Option F) : Except Fault (Marks F) :=
  match fp with
  | none => .error .nullPointer
  | some fp => do
    s.file fp
    if marks.mark fp then return marks
    else return ⟨Function.update marks.mark fp true, Function.update marks.defer fp true,
      marks.unpDefer + 1⟩

/-- Mark the rights that wait at the socket of a file. -/
def markQueue (s : System F S) (marks : Marks F) (fp : F) : Except Fault (Marks F) :=
  match s.socketOf fp with
  | none => .ok marks
  | some x => do (scan (← s.sock x).rcv.sbMb).foldlM (unpMark s) marks

/-- One file in a pass of `unp_gc`. -/
def markFile (s : System F S) (marks : Marks F) (fp : F) : Except Fault (Marks F) :=
  if s.count fp = 0 then .ok marks
  else if marks.defer fp then
    markQueue s { marks with
      defer := Function.update marks.defer fp false
      unpDefer := marks.unpDefer - 1 } fp
  else if marks.mark fp ∨ s.count fp = s.msgcount fp then .ok marks
  else markQueue s { marks with mark := Function.update marks.mark fp true } fp

/-- The passes of `unp_gc`, at most `fuel` of them. -/
def markLoop (s : System F S) : ℕ → Marks F → Except Fault (Marks F)
  | 0, _ => .error .endless
  | fuel + 1, marks => do
    let marks ← s.filehead.foldlM (markFile s) marks
    if marks.unpDefer = 0 then return marks else markLoop s fuel marks

/-- Discard all the references that messages have to a file, with at most `fuel` turns. -/
def drain (fp : F) : ℕ → System F S → Except Fault (System F S)
  | 0, _ => .error .endless
  | fuel + 1, s => do
    s.file fp
    if s.msgcount fp = 0 then return s else drain fp fuel (← unpDiscard close (some fp) s)

/-- The last loop of `unp_gc`, over those of the files that are still in the list. It reads the link
of a file after it is done with it. -/
def sweep (marked : F → Bool) : List F → System F S → Except Fault (System F S)
  | [], s => .ok s
  | fp :: files, s =>
    if fp ∉ s.filehead then sweep marked files s
    else if s.count fp ≠ 0 ∧ s.count fp = s.msgcount fp ∧ marked fp = false then do
      let s ← drain close fp ((s.msgcount fp).toNat + 1) s
      s.file fp
      sweep marked files s
    else sweep marked files s

/-- `unp_gc`. A pass that is not the last one marks a file. -/
def unpGc (s : System F S) : Except Fault (System F S) :=
  if s.unpGcing then .ok s
  else do
    let s := { s with unpGcing := true }
    let marks ← markLoop s (s.filehead.length + 1) ⟨fun _ ↦ false, fun _ ↦ false, 0⟩
    let s ← sweep close marks.mark s.filehead s
    return { s with unpGcing := false }

/-- `sorflush`. -/
def sorflush (x : S) (s : System F S) : Except Fault (System F S) := do
  let so ← s.sock x
  unpDispose close so.rcv.sbMb (s.setSock x { so with rcv := ⟨0, 0, 0, 0, []⟩ })

/-- `unp_disconnect` of a socket and of those that are connected to it. -/
def unpDisconnect (x : S) (s : System F S) : System F S :=
  { s with socket := fun y ↦
    if y = x ∨ (s.socket y).conn = some x then { s.socket y with conn := none } else s.socket y }

/-- `sofree`. -/
def sofree (x : S) (s : System F S) : Except Fault (System F S) := do
  let s ← sorflush close x s
  return { s with socks := s.socks.erase x }

/-- The loops of `soclose` that abort the pending connections of a listening socket, with at most
`fuel` turns. -/
def abortPending (x : S) : ℕ → System F S → Except Fault (System F S)
  | 0, s => do
    let so ← s.sock x
    if so.pending = [] then return s else .error .endless
  | fuel + 1, s => do
    let so ← s.sock x
    match so.pending with
    | [] => return s
    | y :: pending =>
      let s := unpDisconnect y s
      abortPending x fuel (← sofree close y (s.setSock x { s.socket x with pending := pending }))

/-- `soclose`. -/
def soclose (x : S) (s : System F S) : Except Fault (System F S) := do
  let so ← s.sock x
  let s ← abortPending close x so.pending.length s
  let s := unpDisconnect x s
  let s ← if s.unpRights ≠ 0 then unpGc close s else .ok s
  sofree close x s

end Close

/-- `closef`, for at most `fuel` files that are closed within each other. -/
def closef : ℕ → F → System F S → Except Fault (System F S)
  | 0, _, _ => .error .endless
  | fuel + 1, fp, s => do
    s.file fp
    let n := short (s.count fp - 1)
    let s := s.setCount fp n
    if 0 < n then return s
    else if n < 0 then .error (.panic "closef: count < 0")
    else
      match s.socketOf fp with
      | none => s.ffree fp
      | some x => (← soclose (closef fuel) x s).ffree fp

/-- Close a file: there are no more files to close within each other than there are open ones. -/
def close (fp : F) (s : System F S) : Except Fault (System F S) := closef s.filehead.length fp s

/-! ### Sending and receiving -/

/-- `unp_internalize`, which either leaves all alone or replaces the descriptors by pointers. -/
def unpInternalize (control : Control) (fdp : Filedesc F) (s : System F S) :
    Except Fault (System F S × Except Errno (List F)) :=
  if control.isRights = false ∨ control.cmsgLen ≠ control.mLen then .ok (s, .error .einval)
  else
    match control.fds.mapM fun fd ↦ (fdp.opened fd).map Prod.fst with
    | none => .ok (s, .error .ebadf)
    | some files => do
      let s ← files.foldlM (fun s fp ↦ do
        s.file fp
        return (s.setCount fp (short (s.count fp + 1))).addMsg fp 1) s
      return (s, .ok files)

/-- The socket that a datagram goes to. -/
def target (s : System F S) (nam : Option (Except Errno S)) (conn : Option S) : Except Errno S :=
  match nam, conn with
  | some _, some _ => .error .eisconn
  | some (.error e), none => .error e
  | some (.ok y), none => if (s.socket y).stream then .error .eprototype else .ok y
  | none, none => .error .enotconn
  | none, some y => .ok y

/-- Send on a datagram socket. The socket that `nam` names is connected to for the time of the call.
-/
def sendDgram (x : S) (nam : Option (Except Errno S)) (m control : Chain F) (fresh : Bool)
    (s : System F S) : Except Fault (System F S × Option Errno) := do
  let so ← s.sock x
  match s.target nam so.conn with
  | .error e => return (s, some e)
  | .ok y => do
    let so2 ← s.sock y
    -- Without space the control message is freed at `release`, and with it its pointers.
    match so2.rcv.sbappendaddr (so.addr.getD 16) m control fresh with
    | none => return (s, some .enobufs)
    | some rcv => return (s.setSock y { so2 with rcv := rcv }, none)

/-- Send on a stream socket, and make the sender wait for what the receiver has not read. -/
def sendStream (x : S) (m control : Chain F) (s : System F S) :
    Except Fault (System F S × Option Errno) := do
  let so ← s.sock x
  if so.cantsendmore then return (s, some .epipe)
  else
    match so.conn with
    | none => .error (.panic "uipc 3")
    | some y => do
      let so2 ← s.sock y
      let rcv := (so2.rcv.sbappendcontrol m control).getD so2.rcv
      let s := s.setSock y { so2 with rcv := rcv, unpMbcnt := rcv.sbMbcnt, unpCc := rcv.sbCc }
      let so := s.socket x
      return (s.setSock x { so with
        sndMbmax := so.sndMbmax - (rcv.sbMbcnt - so2.unpMbcnt)
        sndHiwat := so.sndHiwat - (rcv.sbCc - so2.unpCc) }, none)

/-- `PRU_SEND` of a message with rights. -/
def send (x : S) (nam : Option (Except Errno S)) (m : List (ℕ × ℤ)) (control : Control)
    (fresh : Bool) (fdp : Filedesc F) (s : System F S) :
    Except Fault (System F S × Option Errno) := do
  match ← unpInternalize control fdp s with
  | (s, .error e) => return (s, some e)
  | (s, .ok files) =>
    let so ← s.sock x
    if so.stream then sendStream x (dataChain m) (control.message files) s
    else sendDgram x nam (dataChain m) (control.message files) fresh s

/-- The first mbuf in the queue of a socket, with other pointers in it. -/
def setRights (x : S) (rights : List (Option F)) (s : System F S) : System F S :=
  let so := s.socket x
  match so.rcv.sbMb with
  | (m :: chain) :: next =>
    s.setSock x { so with
      rcv := { so.rcv with sbMb := ({ m with contents := .control rights } :: chain) :: next } }
  | _ => s

/-- The loop of `unp_externalize` that discards the rights of the first mbuf in the queue, clearing
one pointer after the other; `done` of them are cleared. -/
def discardRights (x : S) : ℕ → List (Option F) → System F S → Except Fault (System F S)
  | _, [], s => .ok s
  | done, fp :: rights, s => do
    let s ← unpDiscard close fp s
    discardRights x (done + 1) rights (setRights x (List.replicate (done + 1) none ++ rights) s)

/-- The loop of `unp_externalize` that gives each file a descriptor. -/
def installRights (lim : ℤ) : List (Option F) → Filedesc F → System F S →
    Except Fault (Filedesc F × System F S)
  | [], fdp, s => .ok (fdp, s)
  | fp :: rights, fdp, s => do
    match ← fdalloc lim 0 fdp with
    | (_, .error _) => .error (.panic "unp_externalize")
    | (fdp, .ok fd) =>
      match fp with
      | none => .error .nullPointer
      | some fp => do
        let slot ← fdp.entry fd
        let fdp ← fdp.store fd { slot with file := some fp }
        s.file fp
        installRights lim rights fdp (s.addMsg fp (-1))

/-- `unp_externalize` for the first mbuf in the queue of a socket. -/
def unpExternalize (x : S) (rights : List (Option F)) (lim : ℤ) (fdp : Filedesc F)
    (s : System F S) :
    Except Fault (Filedesc F × System F S × Option Errno) :=
  if fdavail lim fdp rights.length then do
    return (fdp, ← discardRights x 0 rights s, some .emsgsize)
  else do
    let (fdp, s) ← installRights lim rights fdp s
    return (fdp, s, none)

/-- Take the first mbuf out of the queue of a socket. -/
def takeMbuf (x : S) (s : System F S) : System F S :=
  let so := s.socket x
  s.setSock x { so with rcv := { so.rcv with sbMb := so.rcv.sbMb.modifyHead List.tail } }

/-- Count the first mbuf in the queue as gone. -/
def freeMbuf (x : S) (m : Mbuf F) (s : System F S) : System F S :=
  let so := s.socket x
  s.setSock x { so with rcv := so.rcv.sbfree m }

/-- The loop of `soreceive` over the control messages of the first record, with `controlp` whether
the caller wants them. -/
def receiveControl (x : S) (controlp : Bool) (lim : ℤ) : Chain F → Filedesc F → System F S →
    Except Fault (Filedesc F × System F S × Option Errno)
  | [], fdp, s => .ok (fdp, s, none)
  | m :: chain, fdp, s =>
    match m.contents with
    | .control rights =>
      if controlp then do
        let (fdp, s, e) ← unpExternalize x rights lim fdp (freeMbuf x m s)
        match e with
        | some e => return (fdp, takeMbuf x s, some e)
        | none => receiveControl x controlp lim chain fdp (takeMbuf x s)
      else receiveControl x controlp lim chain fdp (takeMbuf x (freeMbuf x m s))
    | _ => .ok (fdp, s, none)

/-- What is left of the first record of a queue. A datagram is dropped, and an empty record goes. -/
def closeRecord (x : S) (s : System F S) : System F S :=
  let so := s.socket x
  match so.rcv.sbMb with
  | [] => s
  | record :: next =>
    if so.stream = false ∨ record = [] then
      s.setSock x { so with rcv := { record.foldl Sockbuf.sbfree so.rcv with sbMb := next } }
    else s

/-- `soreceive`, as far as the address and the control messages of the first record go. -/
def receive (x : S) (controlp : Bool) (lim : ℤ) (fdp : Filedesc F) (s : System F S) :
    Except Fault (Filedesc F × System F S × Option Errno) := do
  let so ← s.sock x
  match so.rcv.sbMb with
  | [] => return (fdp, s, none)
  | record :: _ =>
    let (s, chain) :=
      match so.stream, record with
      | false, m :: chain => (takeMbuf x (freeMbuf x m s), chain)
      | _, _ => (s, record)
    let (fdp, s, e) ← receiveControl x controlp lim chain fdp s
    return (fdp, closeRecord x s, e)

end System

end Bsd386.Un
