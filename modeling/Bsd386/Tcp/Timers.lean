import Bsd386.Tcp.Output

/-!
# Retransmit and persist timers

The places that touch the two timers of the output side: `tcp_output` and `tcp_setpersist`, the
turns of `tcp_slowtimo` with `tcp_timers`, the acknowledgements and the other statements on the
timers in `tcp_input`, and the user requests. Between them, all fields of the connection but the two
timers may change in any way. The timers exclude each other, so that `tcp_setpersist` never panics.
A call of `tcp_output` leaves data without a timer exactly when its first segment does not get out
and no timer ran or is started for it.
-/

namespace Bsd386.Tcp

/-! ## Steps -/

/-- What happens to a connection. `acked`, `stopRexmt` and `cancel` are the statements of
`tcp_input`: an acknowledgement of data, a `SYN` that was waited for or the third duplicate
acknowledgement, and `tcp_canceltimers`. `rexmt` and `persist` are turns of `tcp_slowtimo`,
`sendoob` is the user request with `t_force`, and `close` and `drop` are `tcp_close` and `tcp_drop`,
also for the keep alive timer. -/
inductive Step
  | change (new : Conn)
  | acked (tiAck : BitVec 32)
  | stopRexmt
  | cancel
  | close
  | output (ps : List Pass)
  | sendoob (ps : List Pass)
  | rexmt (ps : List Pass)
  | persist (ps : List Pass)
  | drop (ps : List Pass)

/-- What follows on a step: nothing, a call of `tcp_output` with or without `t_force`, the end of
the connection, the end with a call of `tcp_output` in front, or a panic. -/
inductive Reaction
  | keep (tp : Conn)
  | call (tp : Conn) (ps : List Pass) (force : Bool)
  | gone
  | drop (tp : Conn) (ps : List Pass)
  | panic (msg : String)

/-- `tcp_drop`. -/
def Conn.drop (tp : Conn) (ps : List Pass) : Reaction :=
  if tp.tState.haveRcvdSyn then .drop { tp with tState := .closed } ps else .gone

/-- The retransmit timer in `tcp_timers`. -/
def Conn.rexmtTimeout (tp : Conn) (ps : List Pass) : Reaction :=
  if tp.times.givesUp then tp.drop ps
  else
    let win := max 2 (min tp.sndWnd tp.sndCwnd / 2 / tp.tMaxseg)
    .call { tp with
      times := tp.times.rexmt
      tRexmt := tp.times.rexmt.tRxtcur
      sndNxt := tp.sndUna
      sndCwnd := tp.tMaxseg
      sndSsthresh := win * tp.tMaxseg % 65536
      tDupacks := 0 } ps false

/-- The persist timer in `tcp_timers`. -/
def Conn.persistTimeout (tp : Conn) (ps : List Pass) : Reaction :=
  match tp.setpersist with
  | .error msg => .panic msg
  | .ok tp => .call { tp with tForce := true } ps true

/-- What a step does before any call of `tcp_output`. A turn of `tcp_slowtimo` counts a timer that
runs and calls `tcp_timers` when it comes to zero. -/
def Conn.react (tp : Conn) : Step → Reaction
  | .change new => .keep { new with tRexmt := tp.tRexmt, tPersist := tp.tPersist }
  | .acked tiAck =>
    if tiAck = tp.sndMax then .keep { tp with tRexmt := 0 }
    else if tp.tPersist = 0 then .keep { tp with tRexmt := tp.times.tRxtcur }
    else .keep tp
  | .stopRexmt => .keep { tp with tRexmt := 0 }
  | .cancel => .keep { tp with tRexmt := 0, tPersist := 0 }
  | .close => .gone
  | .output ps => .call tp ps false
  | .sendoob ps => .call { tp with tForce := true } ps true
  | .rexmt ps =>
    if tp.tRexmt = 0 then .keep tp
    else if short (tp.tRexmt - 1) = 0 then Conn.rexmtTimeout { tp with tRexmt := 0 } ps
    else .keep { tp with tRexmt := short (tp.tRexmt - 1) }
  | .persist ps =>
    if tp.tPersist = 0 then .keep tp
    else if short (tp.tPersist - 1) = 0 then Conn.persistTimeout { tp with tPersist := 0 } ps
    else .keep { tp with tPersist := short (tp.tPersist - 1) }
  | .drop ps => tp.drop ps

/-- A step with the call of `tcp_output`. The answer is whether data that is left has a timer or a
segment was sent; there is none in a panic. -/
def exec (maxLinkhdr : ℤ) (s : Option Conn) (step : Step) : Option Bool × Option Conn :=
  match s with
  | none => (some true, none)
  | some tp =>
    match tp.react step with
    | .keep tp => (some true, some tp)
    | .gone => (some true, none)
    | .panic _ => (none, none)
    | .drop tp ps =>
      match tp.output maxLinkhdr ps with
      | .error _ => (none, none)
      | .ok _ => (some true, none)
    | .call tp ps force =>
      match tp.output maxLinkhdr ps with
      | .error _ => (none, none)
      | .ok (tp, sent) =>
        (some (sent || tp.sndCc = 0 || tp.tRexmt ≠ 0 || tp.tPersist ≠ 0),
          some (if force then { tp with tForce := false } else tp))

/-! ## Exclusion -/

/-- The two timers exclude each other. -/
def Conn.Exclusive (tp : Conn) : Prop := tp.tRexmt = 0 ∨ tp.tPersist = 0

/-- One of the timers runs. -/
def Conn.Running (tp : Conn) : Prop := tp.tRexmt ≠ 0 ∨ tp.tPersist ≠ 0

variable {tp : Conn} {a : Amount} {p : Pass} {idle : Bool} {maxLinkhdr : ℤ}

theorem Conn.Exclusive.unpersist (hexclusive : tp.Exclusive) : tp.unpersist.Exclusive := by
  unfold Conn.unpersist
  split_ifs
  · exact Or.inr rfl
  · exact hexclusive

theorem Conn.Exclusive.pullBack (hexclusive : tp.Exclusive) : tp.pullBack.Exclusive := by
  unfold Conn.pullBack
  split_ifs
  · exact Or.inl rfl
  · exact hexclusive

theorem Conn.Exclusive.amount (hexclusive : tp.Exclusive) : tp.amount.conn.Exclusive :=
  hexclusive.unpersist.pullBack

theorem Conn.amount_sndCc (tp : Conn) : tp.amount.conn.sndCc = tp.sndCc := by
  change tp.unpersist.pullBack.sndCc = tp.sndCc
  unfold Conn.pullBack
  split_ifs <;> (unfold Conn.unpersist; split_ifs <;> rfl)

theorem tcptRangeset_persist (value : ℤ) :
    tcptRangeset value tcptvPersmin tcptvPersmax ≠ 0 := by
  have hmin : short tcptvPersmin = 10 := rfl
  have hmax : short tcptvPersmax = 120 := rfl
  unfold tcptRangeset
  rw [hmin, hmax]
  unfold tcptvPersmin tcptvPersmax
  split_ifs <;> omega

theorem Conn.setpersist_spec (tp : Conn) (hrexmt : tp.tRexmt = 0) :
    ∃ tp', tp.setpersist = .ok tp' ∧ tp'.tRexmt = 0 ∧ tp'.tPersist ≠ 0 ∧ tp'.sndCc = tp.sndCc := by
  refine ⟨_, if_neg (not_not.2 hrexmt), hrexmt, ?_, rfl⟩
  exact tcptRangeset_persist ((tp.times.tSrtt / 4 + tp.times.tRttvar) / 2 *
    tcpBackoff.getD tp.times.tRxtshift.toNat 0)

/-- A pass that does not send leaves one of the timers running if there is data. -/
theorem Conn.Exclusive.rest (hexclusive : tp.Exclusive) :
    ∃ tp', tp.rest = .ok tp' ∧ tp'.Exclusive ∧ tp'.sndCc = tp.sndCc ∧
      (tp'.sndCc = 0 ∨ tp'.Running) := by
  unfold Conn.rest
  split_ifs with hstart
  · obtain ⟨tp', hset, hrexmt, hpersist, hcc⟩ := Conn.setpersist_spec
      { tp with times := { tp.times with tRxtshift := 0 } } hstart.2.1
    exact ⟨tp', hset, Or.inl hrexmt, hcc, Or.inr (Or.inr hpersist)⟩
  · refine ⟨tp, rfl, hexclusive, rfl, ?_⟩
    unfold Conn.Running
    tauto

theorem Conn.mss_timers (tp : Conn) (route : Option Mss) :
    (tp.mss route).tRexmt = tp.tRexmt ∧ (tp.mss route).tPersist = tp.tPersist ∧
      (tp.mss route).sndCc = tp.sndCc ∧ (tp.mss route).sndUna = tp.sndUna := by
  cases route <;> exact ⟨rfl, rfl, rfl, rfl⟩

theorem Amount.withMss_timers (a : Amount) (p : Pass) :
    (a.withMss p).tRexmt = a.conn.tRexmt ∧ (a.withMss p).tPersist = a.conn.tPersist ∧
      (a.withMss p).sndCc = a.conn.sndCc ∧ (a.withMss p).sndUna = a.conn.sndUna := by
  unfold Amount.withMss
  split_ifs
  · exact a.conn.mss_timers p.route
  · exact ⟨rfl, rfl, rfl, rfl⟩

theorem Conn.startRexmt_eq (tp : Conn) :
    tp.startRexmt.sndCc = tp.sndCc ∧
      tp.startRexmt.tRexmt =
        (if tp.tRexmt = 0 ∧ tp.sndNxt ≠ tp.sndUna then tp.times.tRxtcur else tp.tRexmt) ∧
      tp.startRexmt.tPersist =
        if tp.tRexmt = 0 ∧ tp.sndNxt ≠ tp.sndUna then 0 else tp.tPersist := by
  unfold Conn.startRexmt
  by_cases hstart : tp.tRexmt = 0 ∧ tp.sndNxt ≠ tp.sndUna
  · rw [if_pos hstart, if_pos hstart, if_pos hstart]
    exact ⟨rfl, rfl, rfl⟩
  · rw [if_neg hstart, if_neg hstart, if_neg hstart]
    exact ⟨rfl, rfl, rfl⟩

theorem Conn.Exclusive.startRexmt (hexclusive : tp.Exclusive) : tp.startRexmt.Exclusive := by
  obtain ⟨-, hrexmt, hpersist⟩ := tp.startRexmt_eq
  rw [Conn.Exclusive, hrexmt, hpersist]
  split_ifs
  · exact Or.inr rfl
  · exact hexclusive

theorem Conn.startRexmt_running (tp : Conn) :
    tp.startRexmt.Running ↔ tp.tRexmt ≠ 0 ∨ tp.sndNxt ≠ tp.sndUna ∧ tp.times.tRxtcur ≠ 0 ∨
      tp.sndNxt = tp.sndUna ∧ tp.tPersist ≠ 0 := by
  obtain ⟨-, hrexmt, hpersist⟩ := tp.startRexmt_eq
  rw [Conn.Running, hrexmt, hpersist]
  split_ifs with hstart
  · constructor
    · rintro (hrxtcur | hzero)
      · exact Or.inr (Or.inl ⟨hstart.2, hrxtcur⟩)
      · exact absurd rfl hzero
    · rintro (hrexmt | ⟨-, hrxtcur⟩ | ⟨heq, -⟩)
      · exact absurd hstart.1 hrexmt
      · exact Or.inl hrxtcur
      · exact absurd heq hstart.2
  · tauto

theorem Conn.advance_running (tp : Conn) (seq next : BitVec 32) (fin : Bool) :
    (tp.advance seq next fin).Running ↔ tp.tRexmt ≠ 0 ∨
      next ≠ tp.sndUna ∧ tp.times.tRxtcur ≠ 0 ∨ next = tp.sndUna ∧ tp.tPersist ≠ 0 := by
  have htimes : (if seqGt next tp.sndMax ∧ tp.times.tRtt = 0 then
      { tp.times with tRtt := 1, tRtseq := seq } else tp.times).tRxtcur = tp.times.tRxtcur := by
    split_ifs <;> rfl
  refine (Conn.startRexmt_running _).trans ?_
  rw [htimes]

/-- A timer runs behind a segment: the retransmit timer ran before, the persist timer ran in persist
state, the segment takes sequence numbers and starts the retransmit timer, or it takes none. -/
def Amount.Starts (a : Amount) (maxLinkhdr : ℤ) (p : Pass) : Prop :=
  a.conn.tRexmt ≠ 0 ∨ a.conn.tForce = true ∧ a.conn.tPersist ≠ 0 ∨
    a.nextSeq maxLinkhdr p ≠ a.conn.sndUna ∧ (a.withMss p).times.tRxtcur ≠ 0 ∨
    a.nextSeq maxLinkhdr p = a.conn.sndUna ∧ a.conn.tPersist ≠ 0

theorem Amount.transmit_spec (hexclusive : a.conn.Exclusive) (maxLinkhdr : ℤ) (p : Pass) :
    (a.transmit maxLinkhdr p).Exclusive ∧ (a.transmit maxLinkhdr p).sndCc = a.conn.sndCc ∧
      ((a.transmit maxLinkhdr p).Running ↔ a.Starts maxLinkhdr p) := by
  obtain ⟨hrexmt, hpersist, hcc, huna⟩ := a.withMss_timers p
  unfold Amount.transmit
  by_cases htransmit : a.conn.tForce = false ∨ a.conn.tPersist = 0
  · rw [if_pos htransmit]
    have hsegment : (a.segment p).Exclusive := by
      change (a.withMss p).tRexmt = 0 ∨ (a.withMss p).tPersist = 0
      rw [hrexmt, hpersist]
      exact hexclusive
    refine ⟨Conn.Exclusive.startRexmt hsegment, (Conn.startRexmt_eq _).1.trans hcc, ?_⟩
    rw [Conn.advance_running]
    change (a.withMss p).tRexmt ≠ 0 ∨
      a.nextSeq maxLinkhdr p ≠ (a.withMss p).sndUna ∧ (a.withMss p).times.tRxtcur ≠ 0 ∨
      a.nextSeq maxLinkhdr p = (a.withMss p).sndUna ∧ (a.withMss p).tPersist ≠ 0 ↔ _
    rw [hrexmt, hpersist, huna, Amount.Starts]
    have hnone : ¬(a.conn.tForce = true ∧ a.conn.tPersist ≠ 0) := by
      rintro ⟨hforce, hruns⟩
      rcases htransmit with hfalse | hzero
      · rw [hforce] at hfalse
        cases hfalse
      · exact hruns hzero
    tauto
  · rw [if_neg htransmit, Amount.Starts]
    rw [not_or, Bool.not_eq_false] at htransmit
    have hruns : (a.withMss p).tPersist ≠ 0 := by
      rw [hpersist]
      exact htransmit.2
    refine ⟨?_, hcc, iff_of_true (Or.inr hruns) (Or.inr (Or.inl htransmit))⟩
    change (a.withMss p).tRexmt = 0 ∨ (a.withMss p).tPersist = 0
    rw [hrexmt, hpersist]
    exact hexclusive

/-! ## One call -/

/-- The first segment of a call gets out, or a timer runs without it. -/
def Amount.Fed (a : Amount) (idle : Bool) (maxLinkhdr : ℤ) (p : Pass) : Prop :=
  a.conn.sndCc = 0 ∨ a.sends idle = false ∨ p.mgethdr = false ∧ a.conn.Running ∨
    p.mgethdr = true ∧ (p.ipOutput = none ∨ a.Starts maxLinkhdr p)

/-- Data that is left has a timer, or a segment was sent. -/
def Covered (tp : Conn) (sent : Bool) : Prop := tp.sndCc = 0 ∨ tp.Running ∨ sent = true

theorem Conn.failed_timers (tp : Conn) (e : IpError) :
    (tp.failed e).tRexmt = tp.tRexmt ∧ (tp.failed e).tPersist = tp.tPersist ∧
      (tp.failed e).sndCc = tp.sndCc := by
  cases e with
  | unreachable =>
    unfold Conn.failed
    split_ifs <;> exact ⟨rfl, rfl, rfl⟩
  | _ => exact ⟨rfl, rfl, rfl⟩

theorem Amount.send_spec (hexclusive : a.conn.Exclusive) (hsends : a.sends idle = true)
    (maxLinkhdr : ℤ) (p : Pass) :
    (a.send maxLinkhdr p).conn.Exclusive ∧ (a.send maxLinkhdr p).conn.sndCc = a.conn.sndCc ∧
      ((a.send maxLinkhdr p).again = true → (a.send maxLinkhdr p).sent = true) ∧
      (Covered (a.send maxLinkhdr p).conn (a.send maxLinkhdr p).sent ↔
        a.Fed idle maxLinkhdr p) := by
  obtain ⟨hexclusive', hcc, hruns⟩ := a.transmit_spec hexclusive maxLinkhdr p
  obtain ⟨hrexmt, hpersist, hcc', -⟩ := a.withMss_timers p
  have hnotsilent : ¬a.sends idle = false := by simp [hsends]
  unfold Amount.send Covered Amount.Fed
  by_cases hspace : p.mgethdr = false
  · rw [if_pos hspace]
    have htimers : (a.withMss p).quench.Running ↔ a.conn.Running := by
      change (a.withMss p).tRexmt ≠ 0 ∨ (a.withMss p).tPersist ≠ 0 ↔ _
      rw [hrexmt, hpersist, Conn.Running]
    refine ⟨?_, hcc', fun hagain ↦ hagain, ?_⟩
    · change (a.withMss p).tRexmt = 0 ∨ (a.withMss p).tPersist = 0
      rw [hrexmt, hpersist]
      exact hexclusive
    · change (a.withMss p).sndCc = 0 ∨ _ ↔ _
      have hfull : ¬p.mgethdr = true := by
        rw [hspace]
        exact Bool.false_ne_true
      have hnotsent : ¬false = true := Bool.false_ne_true
      rw [hcc', htimers]
      tauto
  · rw [if_neg hspace]
    have hfull : p.mgethdr = true := by simpa using hspace
    cases hip : p.ipOutput with
    | none =>
      refine ⟨hexclusive', hcc, fun _ ↦ rfl, iff_of_true (Or.inr (Or.inr rfl)) ?_⟩
      exact Or.inr (Or.inr (Or.inr ⟨hfull, Or.inl rfl⟩))
    | some e =>
      obtain ⟨hrexmt', hpersist', hcc''⟩ := (a.transmit maxLinkhdr p).failed_timers e
      have htimers : ((a.transmit maxLinkhdr p).failed e).Running ↔ a.Starts maxLinkhdr p := by
        rw [Conn.Running, hrexmt', hpersist']
        exact hruns
      refine ⟨?_, hcc''.trans hcc, fun hagain ↦ hagain, ?_⟩
      · change ((a.transmit maxLinkhdr p).failed e).tRexmt = 0 ∨ _
        rw [hrexmt', hpersist']
        exact hexclusive'
      · have hnotsent : ¬false = true := Bool.false_ne_true
        rw [hcc'', hcc, htimers]
        simp only [hfull, hnotsilent, reduceCtorEq]
        tauto

theorem Conn.pass_spec (hexclusive : tp.Exclusive) (maxLinkhdr : ℤ) (idle : Bool) (p : Pass) :
    ∃ r, tp.pass maxLinkhdr idle p = .ok r ∧ r.conn.Exclusive ∧ (r.again = true → r.sent = true) ∧
      (Covered r.conn r.sent ↔ tp.amount.Fed idle maxLinkhdr p) := by
  have hamount := hexclusive.amount
  unfold Conn.pass
  by_cases hsends : tp.amount.sends idle = true
  · rw [if_pos hsends]
    have hsend := tp.amount.send_spec hamount hsends maxLinkhdr p
    exact ⟨_, rfl, hsend.1, hsend.2.2⟩
  · rw [if_neg hsends]
    obtain ⟨tp', hrest, hexclusive', hcc, hruns⟩ := hamount.rest
    refine ⟨⟨tp', false, false⟩, ?_, hexclusive', fun hagain ↦ hagain, iff_of_true ?_ ?_⟩
    · simp only [hrest, bind, Except.bind, pure, Except.pure]
    · exact hruns.imp_right Or.inl
    · exact Or.inr (Or.inl (by simpa using hsends))

theorem Conn.passes_spec (hexclusive : tp.Exclusive) (maxLinkhdr : ℤ) (idle : Bool)
    (ps : List Pass) :
    ∃ r, tp.passes maxLinkhdr idle ps = .ok r ∧ r.1.Exclusive ∧
      (Covered r.1 r.2 ↔ tp.amount.Fed idle maxLinkhdr (ps.headD .nospace)) := by
  induction ps generalizing tp with
  | nil =>
    obtain ⟨r, hpass, hr, -, hcovered⟩ := tp.pass_spec hexclusive maxLinkhdr idle .nospace
    refine ⟨(r.conn, r.sent), ?_, hr, hcovered⟩
    simp only [Conn.passes, hpass, bind, Except.bind, pure, Except.pure]
  | cons p ps ih =>
    obtain ⟨r, hpass, hr, hsent, hcovered⟩ := tp.pass_spec hexclusive maxLinkhdr idle p
    by_cases hagain : r.again = true
    · -- A pass that is followed by another one has sent a segment.
      obtain ⟨rest, hpasses, hrest, -⟩ := ih hr
      refine ⟨(rest.1, r.sent || rest.2), ?_, hrest, iff_of_true ?_ (hcovered.1 ?_)⟩
      · simp only [Conn.passes, hpass, hagain, hpasses, bind, Except.bind, pure, Except.pure,
          if_true]
      · rw [hsent hagain]
        exact Or.inr (Or.inr rfl)
      · exact Or.inr (Or.inr (hsent hagain))
    · refine ⟨(r.conn, r.sent), ?_, hr, hcovered⟩
      simp only [Conn.passes, hpass, hagain, bind, Except.bind, pure, Except.pure,
        Bool.false_eq_true, if_false]

/-- What a call of `tcp_output` gets for its first segment. -/
def Conn.Fed (maxLinkhdr : ℤ) (tp : Conn) (ps : List Pass) : Prop :=
  tp.restart.amount.Fed tp.idle maxLinkhdr (ps.headD .nospace)

theorem Conn.output_spec (hexclusive : tp.Exclusive) (maxLinkhdr : ℤ) (ps : List Pass) :
    ∃ r, tp.output maxLinkhdr ps = .ok r ∧ r.1.Exclusive ∧
      (Covered r.1 r.2 ↔ tp.Fed maxLinkhdr ps) := by
  have hrestart : tp.restart.Exclusive := by
    unfold Conn.restart
    split_ifs <;> exact hexclusive
  exact Conn.passes_spec hrestart maxLinkhdr tp.idle ps

/-! ## Runs -/

/-- No panic, and the timers exclude each other behind the step. -/
def Excludes (maxLinkhdr : ℤ) (s : Option Conn) (step : Step) : Prop :=
  (exec maxLinkhdr s step).1 ≠ none ∧ ∀ tp ∈ (exec maxLinkhdr s step).2, tp.Exclusive

/-- A call of `tcp_output` in the step leaves no data without a timer, or it has sent a segment. -/
def Covers (maxLinkhdr : ℤ) (s : Option Conn) (step : Step) : Prop :=
  (exec maxLinkhdr s step).1 ≠ some false

/-- A call of `tcp_output` in the step gets what it needs for its first segment. -/
def Feeds (maxLinkhdr : ℤ) (s : Option Conn) (step : Step) : Prop :=
  ∀ tp ∈ s, ∀ tp' ps force, tp.react step = .call tp' ps force → tp'.Fed maxLinkhdr ps

/-- What a step does before a call is in order. -/
inductive Reaction.Sound : Reaction → Prop
  | keep {tp : Conn} (hexclusive : tp.Exclusive) : (keep tp).Sound
  | call {tp : Conn} {ps : List Pass} {force : Bool} (hexclusive : tp.Exclusive) :
      (call tp ps force).Sound
  | gone : gone.Sound
  | drop {tp : Conn} {ps : List Pass} (hexclusive : tp.Exclusive) : (drop tp ps).Sound

theorem Conn.Exclusive.drop (hexclusive : tp.Exclusive) (ps : List Pass) : (tp.drop ps).Sound := by
  unfold Conn.drop
  split_ifs
  · exact .drop hexclusive
  · exact .gone

theorem Conn.Exclusive.react (hexclusive : tp.Exclusive) (step : Step) :
    (tp.react step).Sound := by
  cases step with
  | change new => exact .keep hexclusive
  | acked tiAck =>
    rw [Conn.react]
    split_ifs with hall hpersist
    · exact .keep (Or.inl rfl)
    · exact .keep (Or.inr hpersist)
    · exact .keep hexclusive
  | stopRexmt => exact .keep (Or.inl rfl)
  | cancel => exact .keep (Or.inl rfl)
  | close => exact .gone
  | output ps => exact .call hexclusive
  | sendoob ps => exact .call hexclusive
  | rexmt ps =>
    rw [Conn.react]
    split_ifs with hstopped hexpired
    · exact .keep hexclusive
    · have hpersist : tp.tPersist = 0 := hexclusive.resolve_left hstopped
      unfold Conn.rexmtTimeout
      split_ifs
      · exact Conn.Exclusive.drop (Or.inl rfl) ps
      · exact .call (Or.inr hpersist)
    · exact .keep (Or.inr (hexclusive.resolve_left hstopped))
  | persist ps =>
    rw [Conn.react]
    split_ifs with hstopped hexpired
    · exact .keep hexclusive
    · have hrexmt : tp.tRexmt = 0 := hexclusive.resolve_right hstopped
      obtain ⟨tp', hset, hrexmt', -⟩ := Conn.setpersist_spec { tp with tPersist := 0 } hrexmt
      unfold Conn.persistTimeout
      rw [hset]
      exact .call (Or.inl hrexmt')
    · exact .keep (Or.inl (hexclusive.resolve_right hstopped))
  | drop ps => exact hexclusive.drop ps

theorem covered_iff (tp : Conn) (sent : Bool) :
    (sent || tp.sndCc = 0 || tp.tRexmt ≠ 0 || tp.tPersist ≠ 0) = true ↔ Covered tp sent := by
  simp only [Bool.or_eq_true, decide_eq_true_eq, Covered, Conn.Running]
  tauto

/-- Behind a step the timers exclude each other, and data that is left without a timer and without a
segment is left by a call that did not get what it needed. -/
theorem exec_spec {s : Option Conn} (hexclusive : ∀ tp ∈ s, tp.Exclusive) (maxLinkhdr : ℤ)
    (step : Step) :
    Excludes maxLinkhdr s step ∧ (Covers maxLinkhdr s step ↔ Feeds maxLinkhdr s step) := by
  cases s with
  | none =>
    refine ⟨⟨by simp [exec], fun tp htp ↦ by cases htp⟩, iff_of_true (by simp [Covers, exec]) ?_⟩
    intro tp htp
    cases htp
  | some tp =>
    have hreact := Conn.Exclusive.react (hexclusive tp rfl) step
    have hquiet : ∀ s', exec maxLinkhdr (some tp) step = (some true, s') →
        (∀ tp' ∈ s', tp'.Exclusive) → (∀ tp' ps force, tp.react step ≠ .call tp' ps force) →
        Excludes maxLinkhdr (some tp) step ∧
          (Covers maxLinkhdr (some tp) step ↔ Feeds maxLinkhdr (some tp) step) :=
      fun s' hexec hs' hcall ↦ by
        rw [Excludes, Covers, hexec]
        refine ⟨⟨by simp, hs'⟩, iff_of_true (by simp) ?_⟩
        intro tp' htp' tp'' ps force hreaction
        cases htp'
        exact absurd hreaction (hcall tp'' ps force)
    cases hstep : tp.react step with
    | keep tp' =>
      rw [hstep] at hreact
      apply hquiet (some tp')
      · simp only [exec, hstep]
      · cases hreact with
        | keep hkept =>
          intro tp'' htp''
          cases htp''
          exact hkept
      · simp [hstep]
    | gone =>
      apply hquiet none
      · simp only [exec, hstep]
      · intro tp'' htp''
        cases htp''
      · simp [hstep]
    | panic msg =>
      rw [hstep] at hreact
      cases hreact
    | drop tp' ps =>
      rw [hstep] at hreact
      cases hreact with
      | drop hdropped =>
        obtain ⟨r, houtput, -⟩ := tp'.output_spec hdropped maxLinkhdr ps
        apply hquiet none
        · simp only [exec, hstep, houtput]
        · intro tp'' htp''
          cases htp''
        · simp [hstep]
    | call tp' ps force =>
      rw [hstep] at hreact
      cases hreact with
      | call hcalled =>
        obtain ⟨r, houtput, hr, hfed⟩ := tp'.output_spec hcalled maxLinkhdr ps
        have hexec : exec maxLinkhdr (some tp) step =
            (some (r.2 || r.1.sndCc = 0 || r.1.tRexmt ≠ 0 || r.1.tPersist ≠ 0),
              some (if force then { r.1 with tForce := false } else r.1)) := by
          simp only [exec, hstep, houtput]
        rw [Excludes, Covers, hexec]
        refine ⟨⟨by simp, fun tp'' htp'' ↦ ?_⟩, ?_⟩
        · cases htp''
          split_ifs <;> exact hr
        · have hfeeds : Feeds maxLinkhdr (some tp) step ↔ tp'.Fed maxLinkhdr ps := by
            constructor
            · intro hall
              exact hall tp rfl tp' ps force hstep
            · intro hone t ht tp'' ps' force' hreaction
              cases ht
              rw [hstep, Reaction.call.injEq] at hreaction
              rw [← hreaction.1, ← hreaction.2.1]
              exact hone
          rw [hfeeds, ← hfed, ← covered_iff, Ne, Option.some.injEq, Bool.not_eq_false]

/-- A connection that `tcp_newtcpcb` has made, in which anything but the timers has changed since.
-/
def Conn.fresh (tp : Conn) : Conn := { tp with tRexmt := 0, tPersist := 0 }

/-- In every run `tcp_setpersist` does not panic and the retransmit and persist timers exclude each
other. All along a run, calls of `tcp_output` leave data only with a timer or a segment on the way
exactly when each call gets out its first segment or has a timer without it. -/
theorem timers_exact (maxLinkhdr : ℤ) (tp : Conn) (steps : List Step) :
    Machine.Each (exec maxLinkhdr) (Excludes maxLinkhdr) steps (some tp.fresh) ∧
      (Machine.Each (exec maxLinkhdr) (Covers maxLinkhdr) steps (some tp.fresh) ↔
        Machine.Each (exec maxLinkhdr) (Feeds maxLinkhdr) steps (some tp.fresh)) := by
  have hfresh : ∀ tp' ∈ some tp.fresh, tp'.Exclusive := by
    intro tp' htp'
    cases htp'
    exact Or.inl rfl
  constructor
  · apply Machine.each_of_invariant (c := fun _ _ ↦ True) (fun s ↦ ∀ tp ∈ s, tp.Exclusive) ?_ ?_
      steps hfresh (Machine.each_of_forall (fun _ _ ↦ trivial) steps _)
    · exact fun s step hs _ ↦ (exec_spec hs maxLinkhdr step).1
    · exact fun s step hs _ ↦ (exec_spec hs maxLinkhdr step).1.2
  · apply Machine.each_iff (c := fun _ _ ↦ True) (fun s ↦ ∀ tp ∈ s, tp.Exclusive) ?_ ?_ steps
      hfresh (Machine.each_of_forall (fun _ _ ↦ trivial) steps _)
    · exact fun s step hs _ ↦ (exec_spec hs maxLinkhdr step).2
    · exact fun s step hs _ _ ↦ (exec_spec hs maxLinkhdr step).1.2

/-- An established connection with nothing outstanding, and one byte to send. -/
def oneByte : Conn where
  tState := .established
  tRexmt := 0
  tPersist := 0
  times := newtcpcb
  tMaxseg := 512
  tForce := false
  ackNow := false
  delAck := false
  noDelay := false
  noOpt := false
  sentFin := false
  sndUna := 1
  sndNxt := 1
  sndUp := 1
  sndMax := 1
  sndWnd := 4096
  sndCwnd := 512
  sndSsthresh := 65535
  maxSndwnd := 4096
  rcvNxt := 1
  rcvAdv := 4097
  tIdle := 0
  tDupacks := 0
  tSofterror := none
  sndCc := 1
  rcvSpace := 4096
  rcvHiwat := 4096

/-- Without a header mbuf the byte waits without a timer. -/
theorem output_nospace :
    ¬∀ (maxLinkhdr : ℤ) (tp : Conn) (steps : List Step),
      Machine.Each (exec maxLinkhdr) (Excludes maxLinkhdr) steps (some tp.fresh) ∧
        Machine.Each (exec maxLinkhdr) (Covers maxLinkhdr) steps (some tp.fresh) := by
  intro hcovers
  have hcall := (hcovers 16 oneByte [.output []]).2.1
  have hwaits : (exec 16 (some oneByte.fresh) (.output [])).1 = some false := by decide
  exact hcall hwaits

end Bsd386.Tcp
