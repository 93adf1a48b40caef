import Bsd386.Lib.Sequence
import Bsd386.Tcp.Output

/-!
# The receive window

The receive side of a connection: `tcp_input` with `tcp_reass` of `inet/tcp_input.c` as far as the
receive window and the receive buffer go, and the window that `tcp_output` puts into a segment. What
the other parts of the code decide is given with a step: whether the other conditions of header
prediction hold, what the processing of the acknowledgement leads to, whether an urgent byte is
pulled out, how much memory for mbufs the buffer has left, and which segments get out.
-/

namespace Bsd386.Tcp

/-- `TCPS_HAVERCVDFIN`. -/
def TcpState.haveRcvdFin : TcpState → Bool
  | .timeWait => true
  | _ => false

/-- A state behind `TCPS_CLOSE_WAIT`. -/
def TcpState.afterCloseWait : TcpState → Bool
  | .finWait1 | .closing | .lastAck | .finWait2 | .timeWait => true
  | _ => false

/-- The flag `TH_ACK` in `tcp_outflags`. -/
def TcpState.sendsAck : TcpState → Bool
  | .listen | .synSent => false
  | _ => true

namespace Window

open Sequence

/-- `TCP_MAXWIN`. -/
def tcpMaxwin : ℤ := 65535

/-- The largest buffer that `sbreserve` allows, `sb_max * MCLBYTES / (MSIZE + MCLBYTES)`. -/
def sbLimit : ℕ := 65536 * 2048 / (128 + 2048)

/-- `max` of the kernel, which takes its arguments without sign. -/
def umax (u1 u2 : BitVec 32) : BitVec 32 := if u2 < u1 then u1 else u2

/-- What arrives: the fields of a segment that the receive side looks at. The length is that of a
short number. -/
structure Header where
  seq : BitVec 32
  len : BitVec 15
  syn : Bool
  fin : Bool
  rst : Bool

/-- A segment that is being processed or waits in the queue: `ti_seq`, `ti_len`, the bytes in its
mbufs and `TH_FIN`. -/
structure Ti where
  seq : BitVec 32
  len : ℕ
  held : ℕ
  fin : Bool

/-- The segment as it arrives. -/
def Header.ti (h : Header) : Ti := ⟨h.seq, h.len.toNat, h.len.toNat, h.fin⟩

/-- The segment without its first bytes. -/
def Ti.adj (ti : Ti) (n : ℕ) : Ti :=
  { ti with seq := ti.seq + BitVec.ofNat 32 n, len := ti.len - n, held := ti.held - n }

/-- The segment without its last bytes and without `TH_FIN`. -/
def Ti.cut (ti : Ti) (n : ℕ) : Ti :=
  { ti with len := ti.len - n, held := ti.held - n, fin := false }

/-- The segment with its urgent byte pulled out. -/
def Ti.pull (ti : Ti) (oob : Bool) : Ti := { ti with held := ti.held - if oob then 1 else 0 }

/-- The receive side of a connection, with the right edge of the last segment that was sent. -/
structure Rcv where
  tState : TcpState
  rcvNxt : BitVec 32
  rcvAdv : BitVec 32
  queue : List Ti
  cc : ℕ
  hiwat : ℕ
  cantrcvmore : Bool
  edge : Option (BitVec 32)

/-- `sbspace`, with what is left of `sb_mbmax`. -/
def Rcv.sbspace (s : Rcv) (room : ℤ) : ℤ := min (s.hiwat - s.cc) room

/-- `rcv_adv - rcv_nxt`. -/
def Rcv.dist (s : Rcv) : ℤ := diff s.rcvAdv s.rcvNxt

/-- `sbreserve`. -/
def Rcv.sbreserve (s : Rcv) (cc : Option ℕ) : Rcv :=
  { s with hiwat := ((cc.filter fun cc ↦ cc ≤ sbLimit).getD s.hiwat) }

/-- `rcv_wnd`, which has 16 bits. -/
def Rcv.rcvWnd (s : Rcv) (room : ℤ) : BitVec 16 :=
  (umax (BitVec.ofInt 32 (max (s.sbspace room) 0)) (s.rcvAdv - s.rcvNxt)).setWidth 16

/-! ## Trimming -/

/-- The segment without what lies in front of `rcv_nxt`, unless it is a duplicate. -/
def trimBefore (rcvNxt : BitVec 32) (h : Header) : Option Ti :=
  if diff rcvNxt h.seq ≤ 0 then some h.ti
  else
    let ti := if h.syn then { h.ti with seq := h.seq + 1 } else h.ti
    let todrop := if h.syn then diff rcvNxt h.seq - 1 else diff rcvNxt h.seq
    if ti.len < todrop ∨ todrop = ti.len ∧ h.fin = false then
      if h.fin ∧ todrop = ti.len + 1 ∨ h.rst ∧ ti.seq = rcvNxt - 1 then
        some { ti.adj ti.len with fin := false }
      else none
    else some (ti.adj todrop.toNat)

/-- What the trimming at the right edge leads to: the segment is dropped and acknowledged, the
connection is given up for a new one, or the processing goes on. -/
inductive Trimmed
  | afterAck
  | reopen
  | keep (ti : Ti)

/-- How far a segment reaches behind the window. -/
def Ti.beyond (ti : Ti) (rcvNxt : BitVec 32) (wnd : BitVec 16) : ℤ :=
  diff (ti.seq + BitVec.ofNat 32 ti.len) (rcvNxt + wnd.setWidth 32)

/-- The segment without what lies behind the window. -/
def trimAfter (tState : TcpState) (rcvNxt : BitVec 32) (wnd : BitVec 16) (syn : Bool) (ti : Ti) :
    Trimmed :=
  if ti.beyond rcvNxt wnd ≤ 0 then .keep ti
  else if ti.len ≤ ti.beyond rcvNxt wnd then
    if syn ∧ tState = .timeWait ∧ seqGt ti.seq rcvNxt then .reopen
    else if wnd = 0 ∧ ti.seq = rcvNxt then .keep (ti.cut (ti.beyond rcvNxt wnd).toNat)
    else .afterAck
  else .keep (ti.cut (ti.beyond rcvNxt wnd).toNat)

/-! ## Reassembly -/

/-- The segment without what its predecessor in the queue has, unless this is all. -/
def Ti.clip (ti : Ti) (prev : Option Ti) : Option Ti :=
  match prev with
  | none => some ti
  | some q =>
    let i := diff (q.seq + BitVec.ofNat 32 q.len) ti.seq
    if 0 < i then if ti.len ≤ i then none else some (ti.adj i.toNat) else some ti

/-- The rest of the queue without what the segment has. -/
def Ti.cover (ti : Ti) : List Ti → List Ti
  | [] => []
  | q :: queue =>
    let i := diff (ti.seq + BitVec.ofNat 32 ti.len) q.seq
    if i ≤ 0 then q :: queue
    else if i < q.len then q.adj i.toNat :: queue
    else ti.cover queue

/-- The queue with a new segment in front of the first one that begins after it. -/
def Ti.place (ti : Ti) (prev : Option Ti) : List Ti → Option (List Ti)
  | [] => (ti.clip prev).map fun ti ↦ [ti]
  | q :: queue =>
    if seqGt q.seq ti.seq then (ti.clip prev).map fun ti ↦ ti :: ti.cover (q :: queue)
    else (ti.place (some q) queue).map fun queue ↦ q :: queue

/-- The loop of `tcp_reass` that presents data to the user, with `TH_FIN` of the last segment. -/
def Rcv.presentLoop (flags : Bool) (s : Rcv) : List Ti → Bool × Rcv
  | [] => (flags, { s with queue := [] })
  | q :: queue =>
    if q.seq = s.rcvNxt then
      presentLoop q.fin
        { s with
          rcvNxt := s.rcvNxt + BitVec.ofNat 32 q.len
          cc := if s.cantrcvmore then s.cc else s.cc + q.held } queue
    else (flags, { s with queue := q :: queue })

/-- The last part of `tcp_reass`. -/
def Rcv.present (s : Rcv) : Bool × Rcv :=
  if s.tState.haveRcvdSyn = false then (false, s)
  else if s.tState = .synReceived ∧ (s.queue.head?.map Ti.len).getD 0 ≠ 0 then (false, s)
  else s.presentLoop false s.queue

/-- `tcp_reass` for a segment. -/
def Rcv.reass (s : Rcv) (ti : Ti) : Bool × Rcv :=
  match ti.place none s.queue with
  | none => (false, s)
  | some queue => Rcv.present { s with queue := queue }

/-- `TCP_REASS`. -/
def Rcv.tcpReass (s : Rcv) (ti : Ti) : Bool × Rcv :=
  if ti.seq = s.rcvNxt ∧ s.queue.isEmpty ∧ s.tState = .established then
    (ti.fin, { s with rcvNxt := s.rcvNxt + BitVec.ofNat 32 ti.len, cc := s.cc + ti.held })
  else s.reass ti

/-- A `FIN` that has been reached. -/
def Rcv.fin (s : Rcv) : Rcv :=
  { s with
    cantrcvmore := true
    rcvNxt := s.rcvNxt + 1
    tState := match s.tState with
      | .synReceived | .established => .closeWait
      | .finWait1 => .closing
      | .finWait2 => .timeWait
      | state => state }

/-- The text of a segment. -/
def Rcv.text (s : Rcv) (ti : Ti) : Rcv :=
  if (ti.len ≠ 0 ∨ ti.fin) ∧ s.tState.haveRcvdFin = false then
    if (s.tcpReass ti).1 then (s.tcpReass ti).2.fin else (s.tcpReass ti).2
  else s

/-! ## Output -/

/-- A segment that `tcp_output` gets out: `t_maxseg`, the memory for mbufs that is left, and what
`tcp_mss` reserves. -/
structure Send where
  maxseg : ℕ
  room : ℤ
  reserve : Option ℕ

/-- The window in a segment. -/
def Rcv.advertise (s : Rcv) (x : Send) : ℤ :=
  let win :=
    if s.sbspace x.room < ((s.sbreserve x.reserve).hiwat / 4 : ℕ) ∧ s.sbspace x.room < x.maxseg
    then 0 else s.sbspace x.room
  max (min win tcpMaxwin) s.dist

/-- The right edge in a segment, of which the window has 16 bits. -/
def Rcv.rightEdge (s : Rcv) (x : Send) : BitVec 32 :=
  s.rcvNxt + (BitVec.ofInt 16 (s.advertise x)).setWidth 32

/-- What a segment that gets out leaves behind. -/
def Rcv.send (s : Rcv) (x : Send) : Rcv :=
  let adv := s.rcvNxt + BitVec.ofInt 32 (s.advertise x)
  { s.sbreserve x.reserve with
    rcvAdv := if 0 < s.advertise x ∧ seqGt adv s.rcvAdv then adv else s.rcvAdv
    edge := if s.tState.sendsAck then some (s.rightEdge x) else s.edge }

/-- The segments of a call, and the right edges in those with `TH_ACK`. -/
def Rcv.sendAll (s : Rcv) : List Send → List (BitVec 32) × Rcv
  | [] => ([], s)
  | x :: sends =>
    ((if s.tState.sendsAck then [s.rightEdge x] else []) ++ ((s.send x).sendAll sends).1,
      ((s.send x).sendAll sends).2)

/-! ## Input -/

/-- What the processing of the acknowledgement leads to: the connection ends, the segment is
dropped, perhaps with an answer, or its text is processed. -/
inductive Ack
  | gone
  | drop
  | go (ourfinisacked : Bool)

/-- What the other parts of the code decide about a segment. -/
structure Input where
  room : ℤ
  reserve : Option ℕ
  predicted : Bool
  pureAck : Bool
  orphan : Bool
  ack : Ack
  oob : Bool
  sends : List Send

/-- The options of a segment, of which only those with `SYN` change the buffer. -/
def Rcv.dooptions (s : Rcv) (h : Header) (x : Input) : Rcv :=
  if h.syn then s.sbreserve x.reserve else s

/-- A segment that header prediction is for. -/
def Rcv.expects (s : Rcv) (h : Header) (x : Input) : Bool :=
  s.tState = .established && x.predicted && !h.syn && !h.fin && !h.rst && h.seq = s.rcvNxt

/-- The data that header prediction takes. -/
def Rcv.takesData (s : Rcv) (h : Header) (x : Input) : Bool :=
  s.expects h x && h.len ≠ 0 && s.queue.isEmpty && (h.len.toNat : ℤ) ≤ s.sbspace x.room &&
    !s.cantrcvmore

/-- The segments that header prediction handles. -/
def Rcv.predicts (s : Rcv) (h : Header) (x : Input) : Bool :=
  s.expects h x && h.len = 0 && x.pureAck || s.takesData h x

/-- The states behind an acknowledgement. -/
def Rcv.acked (s : Rcv) (ourfinisacked : Bool) : Option Rcv :=
  match s.tState, ourfinisacked with
  | .synReceived, _ => some (Rcv.present { s with tState := .established }).2
  | .finWait1, true => some { s with tState := .finWait2 }
  | .closing, true => some { s with tState := .timeWait }
  | .lastAck, true => none
  | _, _ => some s

/-- The processing of a segment from the acknowledgement on. -/
def Rcv.process (s : Rcv) (x : Input) (ti : Ti) : Option Rcv :=
  match x.ack with
  | .gone => none
  | .drop => some s
  | .go ourfinisacked => (s.acked ourfinisacked).map fun s ↦ s.text (ti.pull x.oob)

/-- `tcp_input` for a segment without header prediction; there is nothing when the connection
ends. -/
def Rcv.slowInput (s : Rcv) (h : Header) (x : Input) : Option Rcv :=
  match trimBefore s.rcvNxt h with
  | none => some s
  | some ti =>
    if x.orphan ∧ s.tState.afterCloseWait ∧ ti.len ≠ 0 then none
    else
      match trimAfter s.tState s.rcvNxt (s.rcvWnd x.room) h.syn ti with
      | .afterAck => some s
      | .reopen => none
      | .keep ti => s.process x ti

/-- `tcp_input` for a segment on a connection that has received a `SYN`. -/
def Rcv.input (s : Rcv) (h : Header) (x : Input) : Option Rcv :=
  let s := s.dooptions h x
  if s.predicts h x then
    if s.takesData h x then
      some { s with
        rcvNxt := s.rcvNxt + BitVec.ofNat 32 h.len.toNat
        cc := s.cc + h.len.toNat }
    else some s
  else s.slowInput h x

/-- The state that the window for a `SYN` is computed in: a listening socket looks at the options
later. -/
def Rcv.atSyn (s : Rcv) (x : Input) : Rcv :=
  if s.tState = .synSent then s.sbreserve x.reserve else s

/-- The text of a `SYN` that is left at the right edge. -/
def Rcv.synText (s : Rcv) (h : Header) (x : Input) : Ti :=
  let ti := { h.ti with seq := h.seq + 1 }
  if ((s.atSyn x).rcvWnd x.room).toNat < ti.len then
    ti.cut (ti.len - ((s.atSyn x).rcvWnd x.room).toNat)
  else ti

/-- `tcp_input` for a `SYN` that was waited for. -/
def Rcv.syn (s : Rcv) (h : Header) (acks : Bool) (x : Input) : Rcv :=
  Rcv.text
    { s.sbreserve x.reserve with
      rcvNxt := h.seq + 1
      rcvAdv := h.seq + 1
      tState := if s.tState = .synSent ∧ acks then .established else .synReceived }
    ((s.synText h x).pull x.oob)

/-- What happens to a connection. -/
inductive Step
  | syn (h : Header) (acks : Bool) (x : Input)
  | segment (h : Header) (x : Input)
  | receive (n : ℕ) (sends : List Send)
  | usrclosed (sends : List Send)
  | output (sends : List Send)

/-- `tcp_usrclosed`. -/
def Rcv.usrclosed (s : Rcv) : Option Rcv :=
  match s.tState with
  | .closed | .listen | .synSent => none
  | .synReceived | .established => some { s with tState := .finWait1 }
  | .closeWait => some { s with tState := .lastAck }
  | _ => some s

/-- A step up to the call of `tcp_output`; there is nothing when the connection ends. -/
def Rcv.react (s : Rcv) : Step → Option Rcv
  | .syn h acks x =>
    if s.tState = .listen ∨ s.tState = .synSent then some (s.syn h acks x) else some s
  | .segment h x => if s.tState.haveRcvdSyn then s.input h x else some s
  | .receive n _ => some { s with cc := s.cc - n }
  | .usrclosed _ => s.usrclosed
  | .output _ => some s

/-- The segments that a step gets out. -/
def Step.sends : Step → List Send
  | .syn _ _ x | .segment _ x => x.sends
  | .receive _ sends | .usrclosed sends | .output sends => sends

/-- A step, with the right edges of the segments that it sends. A connection that ends may send a
last segment in state `TCPS_CLOSED`. -/
def exec (s : Option Rcv) (step : Step) : List (BitVec 32) × Option Rcv :=
  match s with
  | none => ([], none)
  | some r =>
    match r.react step with
    | none => ((Rcv.sendAll { r with tState := .closed } step.sends).1, none)
    | some r => ((r.sendAll step.sends).1, some (r.sendAll step.sends).2)

end Window

end Bsd386.Tcp
