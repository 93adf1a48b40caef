import Bsd386.Tcp.Estimator

/-!
# Deciding what to send

`tcp_output` and `tcp_setpersist` of `inet/tcp_output.c` on the fields of a connection. A call makes
one pass after the other as long as a full segment was sent. What a pass gets from outside, the
header mbuf, the copy of the data, the route for `tcp_mss` and the answer of `ip_output`, is part of
the input; where there are no more answers, there are no more header mbufs.
-/

namespace Bsd386.Tcp

/-- `t_state`. -/
inductive TcpState
  | closed
  | listen
  | synSent
  | synReceived
  | established
  | closeWait
  | finWait1
  | closing
  | lastAck
  | finWait2
  | timeWait
  deriving DecidableEq, Repr

/-- `TCPS_HAVERCVDSYN`. -/
def TcpState.haveRcvdSyn : TcpState → Bool
  | .closed | .listen | .synSent => false
  | _ => true

/-- The flags of a segment that the output side looks at. -/
structure OutFlags where
  syn : Bool
  fin : Bool
  rst : Bool
  deriving DecidableEq, Repr

/-- `tcp_outflags`. -/
def tcpOutflags : TcpState → OutFlags
  | .closed => ⟨false, false, true⟩
  | .synSent | .synReceived => ⟨true, false, false⟩
  | .finWait1 | .closing | .lastAck => ⟨false, true, false⟩
  | _ => ⟨false, false, false⟩

/-- An error of `ip_output`; `EHOSTUNREACH` and `ENETDOWN` are treated alike. -/
inductive IpError
  | enobufs
  | unreachable
  | other
  deriving DecidableEq, Repr

/-- What `tcp_mss` sets from the route. -/
structure Mss where
  tMaxseg : ℕ
  sndCwnd : ℕ
  sndSsthresh : ℕ
  tSrtt : ℤ
  tRttvar : ℤ
  tRttmin : ℤ
  tRxtcur : ℤ
  rcvHiwat : ℕ

/-- A connection: the fields of its `tcpcb`, of which the times are a structure of their own, and
those of its socket buffers. -/
structure Conn where
  tState : TcpState
  tRexmt : ℤ
  tPersist : ℤ
  times : Rtt
  tMaxseg : ℕ
  tForce : Bool
  ackNow : Bool
  delAck : Bool
  noDelay : Bool
  noOpt : Bool
  sentFin : Bool
  sndUna : BitVec 32
  sndNxt : BitVec 32
  sndUp : BitVec 32
  sndMax : BitVec 32
  sndWnd : ℕ
  sndCwnd : ℕ
  sndSsthresh : ℕ
  maxSndwnd : ℕ
  rcvNxt : BitVec 32
  rcvAdv : BitVec 32
  tIdle : ℤ
  tDupacks : ℤ
  tSofterror : Option IpError
  sndCc : ℕ
  rcvSpace : ℤ
  rcvHiwat : ℕ

/-- What one pass of `tcp_output` gets from outside. -/
structure Pass where
  mgethdr : Bool
  mCopy : Bool
  route : Option Mss
  ipOutput : Option IpError

/-- A pass without a header mbuf. -/
def Pass.nospace : Pass := ⟨false, false, none, none⟩

/-- `SEQ_LT`. -/
def seqLt (a b : BitVec 32) : Bool := (a - b).toInt < 0

/-- `TCPTV_PERSMIN`. -/
def tcptvPersmin : ℤ := 10

/-- `TCPTV_PERSMAX`. -/
def tcptvPersmax : ℤ := 120

/-- `tcp_setpersist`. -/
def Conn.setpersist (tp : Conn) : Except String Conn :=
  let t := (tp.times.tSrtt / 4 + tp.times.tRttvar) / 2
  if tp.tRexmt ≠ 0 then .error "tcp_output REXMT"
  else .ok { tp with
    tPersist := tcptRangeset (t * tcpBackoff.getD tp.times.tRxtshift.toNat 0) tcptvPersmin
      tcptvPersmax
    times := { tp.times with
      tRxtshift := if tp.times.tRxtshift < tcpMaxrxtshift then tp.times.tRxtshift + 1
        else tp.times.tRxtshift } }

/-- `tcp_quench`. -/
def Conn.quench (tp : Conn) : Conn := { tp with sndCwnd := tp.tMaxseg }

/-- `tcp_mss`. -/
def Conn.mss (tp : Conn) (route : Option Mss) : Conn :=
  match route with
  | none => tp
  | some r => { tp with
    tMaxseg := r.tMaxseg
    sndCwnd := r.sndCwnd
    sndSsthresh := r.sndSsthresh
    rcvHiwat := r.rcvHiwat
    times := { tp.times with
      tSrtt := r.tSrtt
      tRttvar := r.tRttvar
      tRttmin := r.tRttmin
      tRxtcur := r.tRxtcur } }

/-! ## What to send -/

/-- The amount of data for a pass, and what the pass has changed to find it. -/
structure Amount where
  conn : Conn
  off : ℤ
  len : ℤ
  sendalot : Bool
  flags : OutFlags

/-- The persist timer is stopped when it has forced output into an open window. -/
def Conn.unpersist (tp : Conn) : Conn :=
  if tp.tForce ∧ min tp.sndWnd tp.sndCwnd ≠ 0 then
    { tp with tPersist := 0, times := { tp.times with tRxtshift := 0 } }
  else tp

/-- The send window, of which one byte is forced. -/
def Conn.sendWin (tp : Conn) : ℕ :=
  if tp.tForce ∧ min tp.sndWnd tp.sndCwnd = 0 then 1 else min tp.sndWnd tp.sndCwnd

/-- `len` before it is cut. -/
def Conn.rawLen (tp : Conn) : ℤ := min tp.sndCc tp.sendWin - (tp.sndNxt - tp.sndUna).toInt

/-- The retransmission is cancelled when the window has closed behind `snd_nxt`. -/
def Conn.pullBack (tp : Conn) : Conn :=
  if tp.rawLen < 0 ∧ tp.sendWin = 0 then { tp with tRexmt := 0, sndNxt := tp.sndUna } else tp

/-- The first part of a pass. -/
def Conn.amount (tp : Conn) : Amount :=
  let conn := tp.unpersist.pullBack
  let len := min (max 0 tp.rawLen) tp.tMaxseg
  let flags := tcpOutflags tp.tState
  { conn := conn
    off := (tp.sndNxt - tp.sndUna).toInt
    len := len
    sendalot := tp.tMaxseg < max 0 tp.rawLen
    flags := { flags with
      fin := flags.fin && !seqLt (conn.sndNxt + BitVec.ofInt 32 len)
        (conn.sndUna + BitVec.ofNat 32 conn.sndCc) } }

/-- There is data that is worth a segment. -/
def Amount.sendsData (a : Amount) (idle : Bool) : Bool :=
  a.len ≠ 0 &&
    (a.len = a.conn.tMaxseg ||
      (idle || a.conn.noDelay) && a.conn.sndCc ≤ (BitVec.ofInt 32 (a.len + a.off)).toNat ||
      a.conn.tForce || (a.conn.maxSndwnd / 2 : ℕ) ≤ a.len || seqLt a.conn.sndNxt a.conn.sndMax)

/-- There is an update of the window that is worth a segment. -/
def Amount.updatesWindow (a : Amount) : Bool :=
  let adv := (BitVec.ofInt 32 a.conn.rcvSpace - (a.conn.rcvAdv - a.conn.rcvNxt)).toInt
  0 < a.conn.rcvSpace && (2 * a.conn.tMaxseg ≤ adv || a.conn.rcvHiwat ≤ 2 * adv)

/-- The pass goes to `send`. -/
def Amount.sends (a : Amount) (idle : Bool) : Bool :=
  a.sendsData idle || a.updatesWindow || a.conn.ackNow || a.flags.syn || a.flags.rst ||
    seqGt a.conn.sndUp a.conn.sndUna ||
    a.flags.fin && (!a.conn.sentFin || a.conn.sndNxt = a.conn.sndUna)

/-! ## Sending -/

/-- `MHLEN` less the headers, of which `max_linkhdr` is the longest in front of IP. -/
def headerRoom (maxLinkhdr : ℤ) (options : Bool) : ℤ :=
  100 - (if options then 44 else 40) - maxLinkhdr

/-- The segment has options, before which `tcp_mss` was called. -/
def Amount.options (a : Amount) : Bool := a.flags.syn && !a.conn.noOpt

/-- The connection behind the call of `tcp_mss`. -/
def Amount.withMss (a : Amount) (p : Pass) : Conn :=
  if a.options then a.conn.mss p.route else a.conn

/-- `len` behind `m_copy`, which is for data that does not fit in the header mbuf. -/
def Amount.lenSent (a : Amount) (maxLinkhdr : ℤ) (p : Pass) : ℤ :=
  if headerRoom maxLinkhdr a.options < a.len ∧ ¬p.mCopy then 0 else a.len

/-- The sequence number of the segment, which is not a new one for a `FIN` that is sent again. -/
def Amount.seq (a : Amount) : BitVec 32 :=
  if a.flags.fin && a.conn.sentFin && a.conn.sndNxt = a.conn.sndMax then a.conn.sndNxt - 1
  else a.conn.sndNxt

/-- The sequence number behind the segment. -/
def Amount.nextSeq (a : Amount) (maxLinkhdr : ℤ) (p : Pass) : BitVec 32 :=
  a.seq + (if a.flags.syn then 1 else 0) + (if a.flags.fin then 1 else 0) +
    BitVec.ofInt 32 (a.lenSent maxLinkhdr p)

/-- The retransmit timer is started for a segment that takes sequence numbers, and the persist timer
is stopped. -/
def Conn.startRexmt (tp : Conn) : Conn :=
  if tp.tRexmt = 0 ∧ tp.sndNxt ≠ tp.sndUna then
    { tp with
      tRexmt := tp.times.tRxtcur
      tPersist := 0
      times := { tp.times with
        tRxtshift := if tp.tPersist ≠ 0 then 0 else tp.times.tRxtshift } }
  else tp

/-- The sequence numbers and the timers behind a segment in transmit state. -/
def Conn.advance (tp : Conn) (seq next : BitVec 32) (fin : Bool) : Conn :=
  Conn.startRexmt { tp with
    sndNxt := next
    sentFin := fin || tp.sentFin
    sndMax := if seqGt next tp.sndMax then next else tp.sndMax
    times :=
      if seqGt next tp.sndMax ∧ tp.times.tRtt = 0 then { tp.times with tRtt := 1, tRtseq := seq }
      else tp.times }

/-- In persist state only `snd_max` moves. -/
def Conn.probe (tp : Conn) (next : BitVec 32) : Conn :=
  { tp with sndMax := if seqGt next tp.sndMax then next else tp.sndMax }

/-- The connection when the segment is filled in. Without urgent data the urgent pointer is dragged
along. -/
def Amount.segment (a : Amount) (p : Pass) : Conn :=
  { a.withMss p with
    sndNxt := a.seq
    sndUp := if seqGt a.conn.sndUp a.seq then a.conn.sndUp else a.conn.sndUna }

/-- The connection when the segment goes out. -/
def Amount.transmit (a : Amount) (maxLinkhdr : ℤ) (p : Pass) : Conn :=
  if a.conn.tForce = false ∨ a.conn.tPersist = 0 then
    (a.segment p).advance a.seq (a.nextSeq maxLinkhdr p) a.flags.fin
  else (a.segment p).probe (a.seq + BitVec.ofInt 32 (a.lenSent maxLinkhdr p))

/-- The receive window in the segment. -/
def Conn.advertise (tp : Conn) : ℤ :=
  let win := if tp.rcvSpace < (tp.rcvHiwat / 4 : ℕ) ∧ tp.rcvSpace < tp.tMaxseg then 0
    else tp.rcvSpace
  max (min win 65535) (tp.rcvAdv - tp.rcvNxt).toInt

/-- What is remembered of a segment that was sent. -/
def Conn.sent (tp : Conn) : Conn :=
  let adv := tp.rcvNxt + BitVec.ofInt 32 tp.advertise
  { tp with
    rcvAdv := if 0 < tp.advertise ∧ seqGt adv tp.rcvAdv then adv else tp.rcvAdv
    ackNow := false
    delAck := false }

/-- An error of `ip_output`. -/
def Conn.failed (tp : Conn) : IpError → Conn
  | .enobufs => tp.quench
  | .unreachable =>
    if tp.tState.haveRcvdSyn then { tp with tSofterror := some .unreachable } else tp
  | .other => tp

/-- The end of a pass: whether a segment was sent, and whether there is another pass. -/
structure PassResult where
  conn : Conn
  sent : Bool
  again : Bool

/-- A pass that does not send. -/
def Conn.rest (tp : Conn) : Except String Conn :=
  if tp.sndCc ≠ 0 ∧ tp.tRexmt = 0 ∧ tp.tPersist = 0 then
    Conn.setpersist { tp with times := { tp.times with tRxtshift := 0 } }
  else .ok tp

/-- A pass that sends. -/
def Amount.send (a : Amount) (maxLinkhdr : ℤ) (p : Pass) : PassResult :=
  if p.mgethdr = false then ⟨(a.withMss p).quench, false, false⟩
  else
    match p.ipOutput with
    | none => ⟨(a.transmit maxLinkhdr p).sent, true, a.sendalot⟩
    | some e => ⟨(a.transmit maxLinkhdr p).failed e, false, false⟩

/-- One pass of `tcp_output`. -/
def Conn.pass (maxLinkhdr : ℤ) (idle : Bool) (tp : Conn) (p : Pass) : Except String PassResult :=
  if tp.amount.sends idle then .ok (tp.amount.send maxLinkhdr p)
  else do return ⟨← tp.amount.conn.rest, false, false⟩

/-- The passes of `tcp_output`, and whether a segment was sent. -/
def Conn.passes (maxLinkhdr : ℤ) (idle : Bool) (tp : Conn) :
    List Pass → Except String (Conn × Bool)
  | [] => do
    let r ← tp.pass maxLinkhdr idle .nospace
    return (r.conn, r.sent)
  | p :: ps => do
    let r ← tp.pass maxLinkhdr idle p
    if r.again then
      let rest ← r.conn.passes maxLinkhdr idle ps
      return (rest.1, r.sent || rest.2)
    else return (r.conn, r.sent)

/-- Nothing is outstanding. -/
def Conn.idle (tp : Conn) : Bool := tp.sndMax = tp.sndUna

/-- Slow start behind a while without output. -/
def Conn.restart (tp : Conn) : Conn :=
  if tp.idle ∧ tp.times.tRxtcur ≤ tp.tIdle then { tp with sndCwnd := tp.tMaxseg } else tp

/-- `tcp_output`. -/
def Conn.output (maxLinkhdr : ℤ) (tp : Conn) (ps : List Pass) : Except String (Conn × Bool) :=
  tp.restart.passes maxLinkhdr tp.idle ps

end Bsd386.Tcp
