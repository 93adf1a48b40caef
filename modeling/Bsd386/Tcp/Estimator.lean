import Mathlib.Data.Int.Order.Basic
import Mathlib.Data.Int.Order.Lemmas
import Mathlib.Tactic.SplitIfs
import Bsd386.Lib.Machine

/-!
# The round trip time estimator

`tcp_xmit_timer` of `inet/tcp_input.c` with the places that start, count and stop the measurement of
a round trip time, and the back off of `tcp_timers`. The fields of a `tcpcb` are of the type
`short`. Beside them stands the same estimator in integers without bound; a time is measured when
the code measures one.
-/

namespace Bsd386.Tcp

/-- The value that a `short` keeps. -/
def short (i : ℤ) : ℤ := i.bmod 65536

/-- `TCPTV_MIN`. -/
def tcptvMin : ℤ := 2

/-- `TCPTV_REXMTMAX`. -/
def tcptvRexmtmax : ℤ := 128

/-- `TCP_MAXRXTSHIFT`. -/
def tcpMaxrxtshift : ℤ := 12

/-- `tcp_backoff`. -/
def tcpBackoff : List ℤ := [1, 2, 4, 8, 16, 32, 64, 64, 64, 64, 64, 64, 64]

/-- `TCPT_RANGESET` of a `short`. -/
def tcptRangeset (value tvmin tvmax : ℤ) : ℤ :=
  if short value < tvmin then short tvmin
  else if tvmax < short value then short tvmax
  else short value

/-- `SEQ_GT`. -/
def seqGt (a b : BitVec 32) : Bool := 0 < (a - b).toInt

/-- The fields of `struct tcpcb` that are about round trip times. -/
structure Rtt where
  tRtt : ℤ
  tRtseq : BitVec 32
  tSrtt : ℤ
  tRttvar : ℤ
  tRttmin : ℤ
  tRxtcur : ℤ
  tRxtshift : ℤ
  deriving DecidableEq, Repr

/-- What `tcp_newtcpcb` sets. -/
def newtcpcb : Rtt where
  tRtt := 0
  tRtseq := 0
  tSrtt := 0
  tRttvar := 24
  tRttmin := tcptvMin
  tRxtcur := tcptRangeset 12 tcptvMin tcptvRexmtmax
  tRxtshift := 0

/-- What happens on a connection: a turn of `tcp_slowtimo`; new data sent from a sequence number on;
an acknowledgement of new data; the end of the handshake; as many duplicate acknowledgements as make
a fast retransmit; the retransmit timer; a start of the persist timer as the window closes; and the
end of persisting as it opens. -/
inductive Event
  | slowtimo
  | output (startseq : BitVec 32)
  | ack (tiAck : BitVec 32)
  | established
  | dupacks
  | rexmt
  | setpersist
  | unpersist
  deriving DecidableEq, Repr

/-- `TCP_REXMTVAL`, where a shift to the right rounds down. -/
def tcpRexmtval (srtt rttvar : ℤ) : ℤ := srtt / 8 + rttvar

/-- `delta` of `tcp_xmit_timer`, before it is made positive. -/
def Rtt.delta (tp : Rtt) : ℤ := short (tp.tRtt - 1 - tp.tSrtt / 8)

/-- `delta` in the second sum. -/
def Rtt.deviation (tp : Rtt) : ℤ :=
  short ((if tp.delta < 0 then short (-tp.delta) else tp.delta) - tp.tRttvar / 4)

/-- A sum that must be positive. -/
def positive (sum : ℤ) : ℤ := if sum ≤ 0 then 1 else sum

/-- The new `t_srtt` of `tcp_xmit_timer`. -/
def Rtt.newSrtt (tp : Rtt) : ℤ :=
  if tp.tSrtt ≠ 0 then positive (short (tp.tSrtt + tp.delta)) else short (tp.tRtt * 8)

/-- The new `t_rttvar` of `tcp_xmit_timer`. -/
def Rtt.newRttvar (tp : Rtt) : ℤ :=
  if tp.tSrtt ≠ 0 then positive (short (tp.tRttvar + tp.deviation)) else short (tp.tRtt * 2)

/-- `tcp_xmit_timer`. -/
def Rtt.tcpXmitTimer (tp : Rtt) : Rtt :=
  { tp with
    tSrtt := tp.newSrtt
    tRttvar := tp.newRttvar
    tRtt := 0
    tRxtshift := 0
    tRxtcur := tcptRangeset (tcpRexmtval tp.newSrtt tp.newRttvar) tp.tRttmin tcptvRexmtmax }

/-- The retransmit timer gives the connection up. -/
def Rtt.givesUp (tp : Rtt) : Bool := tcpMaxrxtshift < short (tp.tRxtshift + 1)

/-- The back off is so far that the estimate is cleared. -/
def Rtt.losing (tp : Rtt) : Bool := tcpMaxrxtshift / 4 < short (tp.tRxtshift + 1)

/-- The retransmit timer in `tcp_timers`. -/
def Rtt.rexmt (tp : Rtt) : Rtt :=
  if tp.givesUp then { tp with tRxtshift := tcpMaxrxtshift }
  else
    { tp with
      tRxtshift := short (tp.tRxtshift + 1)
      tRxtcur := tcptRangeset (tcpRexmtval tp.tSrtt tp.tRttvar *
        tcpBackoff.getD (short (tp.tRxtshift + 1)).toNat 0) tp.tRttmin tcptvRexmtmax
      tRttvar := if tp.losing then short (tp.tRttvar + tp.tSrtt / 8) else tp.tRttvar
      tSrtt := if tp.losing then 0 else tp.tSrtt
      tRtt := 0 }

/-- The code measures the time of the segment that is timed. -/
def Rtt.measures (tp : Rtt) : Event → Bool
  | .ack tiAck => tp.tRtt ≠ 0 && seqGt tiAck tp.tRtseq
  | .established => tp.tRtt ≠ 0
  | _ => false

/-- The code clears the estimate. -/
def Rtt.clears (tp : Rtt) : Event → Bool
  | .rexmt => !tp.givesUp && tp.losing
  | _ => false

/-- One event. -/
def Rtt.exec (tp : Rtt) (e : Event) : Rtt :=
  match e with
  | .slowtimo => if tp.tRtt ≠ 0 then { tp with tRtt := short (tp.tRtt + 1) } else tp
  | .output startseq => if tp.tRtt = 0 then { tp with tRtt := 1, tRtseq := startseq } else tp
  | .ack _ => if tp.measures e then tp.tcpXmitTimer else tp
  | .established => if tp.measures e then tp.tcpXmitTimer else tp
  | .dupacks => { tp with tRtt := 0 }
  | .rexmt => tp.rexmt
  | .setpersist =>
    if tp.tRxtshift < tcpMaxrxtshift then { tp with tRxtshift := short (tp.tRxtshift + 1) } else tp
  | .unpersist => { tp with tRxtshift := 0 }

/-! ## The exact estimator -/

/-- The time since the timed segment was sent, the smoothed time and deviation, and whether a time
has been measured since they were cleared. -/
structure Exact where
  elapsed : ℤ
  srtt : ℤ
  rttvar : ℤ
  measured : Bool
  deriving DecidableEq, Repr

/-- The difference of the measured time from the smoothed one. -/
def Exact.delta (g : Exact) : ℤ := g.elapsed - 1 - g.srtt / 8

/-- The sums that the smoothed time and deviation are, if they are positive. -/
def Exact.sums (g : Exact) : ℤ × ℤ :=
  (g.srtt + g.delta, g.rttvar + (g.delta.natAbs - g.rttvar / 4))

/-- A time is measured. -/
def Exact.measure (g : Exact) : Exact :=
  if g.srtt ≠ 0 then
    { g with srtt := positive g.sums.1, rttvar := positive g.sums.2, measured := true }
  else { g with srtt := g.elapsed * 8, rttvar := g.elapsed * 2, measured := true }

/-- The smoothed time becomes part of the deviation. -/
def Exact.clear (g : Exact) : Exact :=
  { g with rttvar := g.rttvar + g.srtt / 8, srtt := 0, measured := false }

/-- One event, where the code tells what it does. -/
def Exact.exec (g : Exact) (tp : Rtt) (e : Event) : Exact :=
  if tp.measures e then g.measure
  else if tp.clears e then g.clear
  else
    match e with
    | .slowtimo => { g with elapsed := g.elapsed + 1 }
    | .output _ => if tp.tRtt = 0 then { g with elapsed := 1 } else g
    | _ => g

/-- The fields of a connection, and the exact estimator beside them. -/
structure Traced where
  tp : Rtt
  exact : Exact

/-- One event. -/
def Traced.exec (s : Traced) (e : Event) : Unit × Traced := ((), ⟨s.tp.exec e, s.exact.exec s.tp e⟩)

/-- A new connection. -/
def Traced.start : Traced := ⟨newtcpcb, ⟨0, 0, 24, false⟩⟩

/-- The fields are the exact ones, they are positive from a measurement on until they are cleared,
and the retransmit time is in its range. -/
structure Traced.Exactly (s : Traced) : Prop where
  srtt : s.tp.tSrtt = s.exact.srtt
  rttvar : s.tp.tRttvar = s.exact.rttvar
  positive : s.exact.measured = true → 0 < s.tp.tSrtt ∧ 0 < s.tp.tRttvar
  rxtcur : s.tp.tRttmin ≤ s.tp.tRxtcur ∧ s.tp.tRxtcur ≤ tcptvRexmtmax

/-- The measured time, and what it makes of the smoothed ones, fits into a `short`. -/
def Exact.Fits (g : Exact) : Prop :=
  if g.srtt = 0 then g.elapsed ≤ 4095 else g.sums.1 ≤ 32767 ∧ g.sums.2 ≤ 32767

/-- What an event adds up fits into a `short`. -/
def Event.Fits (s : Traced) (e : Event) : Prop :=
  (s.tp.measures e = true → s.exact.Fits) ∧
    (s.tp.clears e = true → s.exact.rttvar + s.exact.srtt / 8 ≤ 32767)

/-! ## Ranges -/

variable {i value : ℤ} {s : Traced} {e : Event}

theorem short_eq (hlow : -32768 ≤ i) (hhigh : i ≤ 32767) : short i = i := by
  rw [short, Int.bmod_def]
  split <;> omega

theorem short_range (i : ℤ) : -32768 ≤ short i ∧ short i ≤ 32767 := by
  rw [short, Int.bmod_def]
  split <;> omega

/-- An increment of the wrapped value wraps the increment. -/
theorem short_succ (i : ℤ) : short (short i + 1) = short (i + 1) := by
  unfold short
  exact Int.bmod_add_bmod

/-- A retransmit time is in its range whatever its value was. -/
theorem tcptRangeset_range (value : ℤ) :
    tcptvMin ≤ tcptRangeset value tcptvMin tcptvRexmtmax ∧
      tcptRangeset value tcptvMin tcptvRexmtmax ≤ tcptvRexmtmax := by
  have hmin : short tcptvMin = 2 := rfl
  have hmax : short tcptvRexmtmax = 128 := rfl
  unfold tcptRangeset
  rw [hmin, hmax]
  unfold tcptvMin tcptvRexmtmax
  split_ifs <;> omega

theorem positive_pos (i : ℤ) : 0 < positive i := by
  unfold positive
  split_ifs <;> omega

/-- A sum is kept as it is exactly when it fits. -/
theorem positive_short (hlow : -32768 ≤ i) : positive (short i) = positive i ↔ i ≤ 32767 := by
  constructor
  · intro hsame
    have hrange := short_range i
    unfold positive at hsame
    split_ifs at hsame <;> omega
  · intro hhigh
    rw [short_eq hlow hhigh]

/-! ## Runs -/

/-- The state of a run whose sums fit. -/
structure Traced.Inv (s : Traced) : Prop where
  srtt : s.tp.tSrtt = s.exact.srtt
  rttvar : s.tp.tRttvar = s.exact.rttvar
  srtt_range : 0 ≤ s.exact.srtt ∧ s.exact.srtt ≤ 32767
  rttvar_range : 1 ≤ s.exact.rttvar ∧ s.exact.rttvar ≤ 32767
  measured : s.exact.measured = true → 0 < s.exact.srtt
  timed : s.tp.tRtt ≠ 0 → s.tp.tRtt = short s.exact.elapsed ∧ 1 ≤ s.exact.elapsed
  rxtshift : 0 ≤ s.tp.tRxtshift ∧ s.tp.tRxtshift ≤ 12
  rttmin : s.tp.tRttmin = tcptvMin
  rxtcur : tcptvMin ≤ s.tp.tRxtcur ∧ s.tp.tRxtcur ≤ tcptvRexmtmax

theorem Traced.Inv.exactly (hinv : s.Inv) : s.Exactly where
  srtt := hinv.srtt
  rttvar := hinv.rttvar
  positive hmeasured := by
    rw [hinv.srtt, hinv.rttvar]
    exact ⟨hinv.measured hmeasured, hinv.rttvar_range.1⟩
  rxtcur := by
    rw [hinv.rttmin]
    exact hinv.rxtcur

theorem Traced.start_inv : Traced.start.Inv where
  srtt := rfl
  rttvar := rfl
  srtt_range := by decide
  rttvar_range := by decide
  measured := by decide
  timed h := absurd rfl h
  rxtshift := by decide
  rttmin := rfl
  rxtcur := tcptRangeset_range 12

/-- A measured time that fits has not wrapped around. -/
theorem Traced.Inv.elapsed (hinv : s.Inv) (htiming : s.tp.tRtt ≠ 0) (hfits : s.exact.Fits) :
    s.tp.tRtt = s.exact.elapsed ∧ 1 ≤ s.exact.elapsed ∧ s.exact.elapsed ≤ 32767 := by
  obtain ⟨hrtt, hpos⟩ := hinv.timed htiming
  have hrange := hinv.srtt_range
  have hle : s.exact.elapsed ≤ 32767 := by
    unfold Exact.Fits Exact.sums Exact.delta at hfits
    split_ifs at hfits <;> omega
  exact ⟨hrtt.trans (short_eq (by omega) hle), hpos, hle⟩

/-- A measurement is exact when it fits. -/
theorem Traced.Inv.measure_eq (hinv : s.Inv) (htiming : s.tp.tRtt ≠ 0) (hfits : s.exact.Fits) :
    s.tp.newSrtt = s.exact.measure.srtt ∧ s.tp.newRttvar = s.exact.measure.rttvar := by
  obtain ⟨hrtt, hpos, hle⟩ := hinv.elapsed htiming hfits
  have hsrtt := hinv.srtt_range
  have hrttvar := hinv.rttvar_range
  unfold Rtt.newSrtt Rtt.newRttvar Exact.measure
  unfold Exact.Fits at hfits
  rw [hinv.srtt]
  by_cases hzero : s.exact.srtt = 0
  · rw [if_pos hzero] at hfits
    rw [if_neg (not_not_intro hzero), if_neg (not_not_intro hzero), if_neg (not_not_intro hzero),
      hrtt]
    exact ⟨short_eq (by omega) (by omega), short_eq (by omega) (by omega)⟩
  · rw [if_neg hzero] at hfits
    have hdelta : s.tp.delta = s.exact.delta := by
      unfold Rtt.delta Exact.delta
      rw [hrtt, hinv.srtt]
      exact short_eq (by omega) (by omega)
    have hdeviation : s.tp.deviation = s.exact.delta.natAbs - s.exact.rttvar / 4 := by
      unfold Rtt.deviation
      rw [hdelta, hinv.rttvar]
      unfold Exact.delta
      split_ifs with hneg
      · rw [short_eq (i := -_) (by omega) (by omega), short_eq (by omega) (by omega)]
        omega
      · rw [short_eq (by omega) (by omega)]
        omega
    rw [if_pos hzero, if_pos hzero, if_pos hzero, hdelta, hdeviation, hinv.rttvar]
    have hsums := hfits
    unfold Exact.sums Exact.delta at hsums
    exact ⟨(positive_short (by unfold Exact.delta; omega)).mpr hfits.1,
      (positive_short (by unfold Exact.delta; omega)).mpr hfits.2⟩

theorem newSrtt_le (tp : Rtt) : tp.newSrtt ≤ 32767 := by
  unfold Rtt.newSrtt positive
  have hsum := short_range (tp.tSrtt + tp.delta)
  have hfirst := short_range (tp.tRtt * 8)
  split_ifs <;> omega

theorem newRttvar_le (tp : Rtt) : tp.newRttvar ≤ 32767 := by
  unfold Rtt.newRttvar positive
  have hsum := short_range (tp.tRttvar + tp.deviation)
  have hfirst := short_range (tp.tRtt * 2)
  split_ifs <;> omega

/-- A result that is a `short` comes from sums that fit. -/
theorem Exact.fits_of_le {g : Exact} (hsrtt : g.measure.srtt ≤ 32767)
    (hrttvar : g.measure.rttvar ≤ 32767) : g.Fits := by
  unfold Exact.measure at hsrtt hrttvar
  unfold Exact.Fits
  by_cases hzero : g.srtt = 0
  · rw [if_neg (not_not_intro hzero)] at hsrtt
    rw [if_pos hzero]
    dsimp only at hsrtt
    omega
  · rw [if_pos hzero] at hsrtt hrttvar
    rw [if_neg hzero]
    dsimp only [positive] at hsrtt hrttvar
    constructor
    · split_ifs at hsrtt <;> omega
    · split_ifs at hrttvar <;> omega

theorem Exact.measure_pos {g : Exact} (helapsed : 1 ≤ g.elapsed) :
    0 < g.measure.srtt ∧ 0 < g.measure.rttvar := by
  unfold Exact.measure
  split_ifs
  · exact ⟨positive_pos _, positive_pos _⟩
  · exact ⟨by dsimp only; omega, by dsimp only; omega⟩

theorem measure_measured (g : Exact) : g.measure.measured = true := by
  unfold Exact.measure
  split_ifs <;> rfl

/-! ### A measurement -/

theorem Rtt.timing {tp : Rtt} (hmeasures : tp.measures e = true) : tp.tRtt ≠ 0 := by
  cases e with
  | ack tiAck => exact of_decide_eq_true (Bool.and_eq_true_iff.mp hmeasures).1
  | established => exact of_decide_eq_true hmeasures
  | _ => cases hmeasures

theorem Traced.exec_measures (hmeasures : s.tp.measures e = true) :
    (s.exec e).2 = ⟨s.tp.tcpXmitTimer, s.exact.measure⟩ := by
  have hexact : s.exact.exec s.tp e = s.exact.measure := if_pos hmeasures
  have htp : s.tp.exec e = s.tp.tcpXmitTimer := by
    cases e with
    | ack tiAck => exact if_pos hmeasures
    | established => exact if_pos hmeasures
    | _ => cases hmeasures
  rw [Traced.exec, hexact, htp]

theorem Traced.Inv.measure (hinv : s.Inv) (htiming : s.tp.tRtt ≠ 0) (hfits : s.exact.Fits) :
    Traced.Inv ⟨s.tp.tcpXmitTimer, s.exact.measure⟩ := by
  obtain ⟨hsrtt, hrttvar⟩ := hinv.measure_eq htiming hfits
  obtain ⟨hsrttPos, hrttvarPos⟩ := Exact.measure_pos (hinv.elapsed htiming hfits).2.1
  have hsrttLe := newSrtt_le s.tp
  have hrttvarLe := newRttvar_le s.tp
  exact
    { srtt := hsrtt
      rttvar := hrttvar
      srtt_range := ⟨hsrttPos.le, hsrtt ▸ hsrttLe⟩
      rttvar_range := ⟨hrttvarPos, hrttvar ▸ hrttvarLe⟩
      measured := fun _ ↦ hsrttPos
      timed := fun h ↦ absurd rfl h
      rxtshift := ⟨Int.le_refl 0, (by decide : (0 : ℤ) ≤ 12)⟩
      rttmin := hinv.rttmin
      rxtcur := by
        change tcptvMin ≤ tcptRangeset _ s.tp.tRttmin _ ∧ tcptRangeset _ s.tp.tRttmin _ ≤ _
        rw [hinv.rttmin]
        exact tcptRangeset_range _ }

theorem Exact.fits_of_exactly (hexactly : Traced.Exactly ⟨s.tp.tcpXmitTimer, s.exact.measure⟩) :
    s.exact.Fits := by
  have hsrtt : s.tp.newSrtt = s.exact.measure.srtt := hexactly.srtt
  have hrttvar : s.tp.newRttvar = s.exact.measure.rttvar := hexactly.rttvar
  exact Exact.fits_of_le (hsrtt ▸ newSrtt_le s.tp) (hrttvar ▸ newRttvar_le s.tp)

/-! ### A back off -/

theorem Traced.Inv.shift (hinv : s.Inv) :
    short (s.tp.tRxtshift + 1) = s.tp.tRxtshift + 1 := by
  have hrange := hinv.rxtshift
  exact short_eq (by omega) (by omega)

/-- The retransmit timer gives the connection up. -/
theorem Traced.Inv.giveUp (hinv : s.Inv) :
    Traced.Inv ⟨{ s.tp with tRxtshift := tcpMaxrxtshift }, s.exact⟩ :=
  { hinv with rxtshift := ⟨(by decide : (0 : ℤ) ≤ 12), Int.le_refl 12⟩ }

/-- The state behind a back off, with the new smoothed time and deviation. -/
theorem Traced.Inv.backoff (hinv : s.Inv) (hgives : s.tp.givesUp = false) {srtt rttvar : ℤ}
    {g : Exact} (hsrtt : srtt = g.srtt) (hrttvar : rttvar = g.rttvar)
    (hsrttRange : 0 ≤ g.srtt ∧ g.srtt ≤ 32767) (hrttvarRange : 1 ≤ g.rttvar ∧ g.rttvar ≤ 32767)
    (hmeasured : g.measured = true → 0 < g.srtt) (value : ℤ) :
    Traced.Inv
      ⟨{ s.tp with
          tRxtshift := short (s.tp.tRxtshift + 1)
          tRxtcur := tcptRangeset value s.tp.tRttmin tcptvRexmtmax
          tRttvar := rttvar
          tSrtt := srtt
          tRtt := 0 }, g⟩ where
  srtt := hsrtt
  rttvar := hrttvar
  srtt_range := hsrttRange
  rttvar_range := hrttvarRange
  measured := hmeasured
  timed h := absurd rfl h
  rxtshift := by
    have hrange := hinv.rxtshift
    have hbelow : ¬ 12 < short (s.tp.tRxtshift + 1) := of_decide_eq_false hgives
    dsimp only
    rw [hinv.shift] at hbelow ⊢
    omega
  rttmin := hinv.rttmin
  rxtcur := by
    dsimp only
    rw [hinv.rttmin]
    exact tcptRangeset_range _

theorem Traced.exec_clears (hclears : s.tp.clears .rexmt = true) :
    (s.exec .rexmt).2 = ⟨s.tp.rexmt, s.exact.clear⟩ :=
  congrArg (Traced.mk s.tp.rexmt) (if_pos hclears)

theorem Traced.exec_rexmt (hclears : ¬ s.tp.clears .rexmt = true) :
    (s.exec .rexmt).2 = ⟨s.tp.rexmt, s.exact⟩ :=
  congrArg (Traced.mk s.tp.rexmt) (if_neg hclears)

/-- The retransmit timer keeps the invariant if what it adds fits. -/
theorem Traced.Inv.rexmt (hinv : s.Inv)
    (hfits : s.tp.clears .rexmt = true → s.exact.rttvar + s.exact.srtt / 8 ≤ 32767) :
    (s.exec .rexmt).2.Inv := by
  have hsrtt := hinv.srtt_range
  have hrttvar := hinv.rttvar_range
  by_cases hclears : s.tp.clears .rexmt = true
  · rw [Traced.exec_clears hclears]
    obtain ⟨hgives, hlosing⟩ := Bool.and_eq_true_iff.mp hclears
    rw [Bool.not_eq_true'] at hgives
    have hsum := hfits hclears
    unfold Rtt.rexmt
    rw [if_neg (Bool.eq_false_iff.mp hgives), if_pos hlosing, if_pos hlosing]
    refine hinv.backoff (g := s.exact.clear) hgives rfl ?_ ?_ ?_ ?_ _
    · rw [hinv.srtt, hinv.rttvar]
      exact short_eq (by omega) hsum
    · exact ⟨Int.le_refl 0, (by decide : (0 : ℤ) ≤ 32767)⟩
    · exact ⟨by unfold Exact.clear; dsimp only; omega, hsum⟩
    · exact fun h ↦ absurd h Bool.false_ne_true
  · rw [Traced.exec_rexmt hclears]
    unfold Rtt.rexmt
    cases hgives : s.tp.givesUp with
    | true => exact hinv.giveUp
    | false =>
      have hlosing : ¬ s.tp.losing = true := by
        intro hlosing
        refine hclears ?_
        unfold Rtt.clears
        rw [hgives, hlosing]
        rfl
      rw [if_neg Bool.false_ne_true, if_neg hlosing, if_neg hlosing]
      exact hinv.backoff hgives hinv.srtt hinv.rttvar hsrtt hrttvar hinv.measured _

theorem Traced.fits_of_exactly_rexmt (hclears : s.tp.clears .rexmt = true)
    (hexactly : (s.exec .rexmt).2.Exactly) : s.exact.rttvar + s.exact.srtt / 8 ≤ 32767 := by
  rw [Traced.exec_clears hclears] at hexactly
  obtain ⟨hgives, hlosing⟩ := Bool.and_eq_true_iff.mp hclears
  rw [Bool.not_eq_true'] at hgives
  have hrttvar := hexactly.rttvar
  unfold Rtt.rexmt at hrttvar
  rw [if_neg (Bool.eq_false_iff.mp hgives)] at hrttvar
  dsimp only at hrttvar
  rw [if_pos hlosing] at hrttvar
  have hsum : s.exact.rttvar + s.exact.srtt / 8 = short (s.tp.tRttvar + s.tp.tSrtt / 8) :=
    hrttvar.symm
  rw [hsum]
  exact (short_range _).2

/-! ### The other events -/

/-- An event that neither measures nor clears keeps the invariant. -/
theorem Traced.Inv.other (hinv : s.Inv) (hmeasures : ¬ s.tp.measures e = true) (he : e ≠ .rexmt) :
    (s.exec e).2.Inv := by
  cases e with
  | slowtimo =>
    by_cases htiming : s.tp.tRtt = 0
    · have hexec : (s.exec .slowtimo).2 =
          ⟨s.tp, { s.exact with elapsed := s.exact.elapsed + 1 }⟩ :=
        congrArg (Traced.mk · _) (if_neg (not_not_intro htiming))
      rw [hexec]
      exact { hinv with timed := fun h ↦ absurd htiming h }
    · have hexec : (s.exec .slowtimo).2 =
          ⟨{ s.tp with tRtt := short (s.tp.tRtt + 1) },
            { s.exact with elapsed := s.exact.elapsed + 1 }⟩ :=
        congrArg (Traced.mk · _) (if_pos htiming)
      rw [hexec]
      obtain ⟨hrtt, hpos⟩ := hinv.timed htiming
      refine { hinv with timed := fun _ ↦ ⟨?_, ?_⟩ }
      · dsimp only
        rw [hrtt, short_succ]
      · dsimp only
        omega
  | output startseq =>
    by_cases htiming : s.tp.tRtt = 0
    · have hexec : (s.exec (.output startseq)).2 =
          ⟨{ s.tp with tRtt := 1, tRtseq := startseq }, { s.exact with elapsed := 1 }⟩ :=
        congrArg₂ Traced.mk (if_pos htiming) (if_pos htiming)
      rw [hexec]
      exact { hinv with timed := fun _ ↦ ⟨rfl, Int.le_refl 1⟩ }
    · have hexec : (s.exec (.output startseq)).2 = s :=
        congrArg₂ Traced.mk (if_neg htiming) (if_neg htiming)
      rw [hexec]
      exact hinv
  | ack tiAck =>
    have hexec : (s.exec (.ack tiAck)).2 = s :=
      congrArg₂ Traced.mk (if_neg hmeasures) (if_neg hmeasures)
    rw [hexec]
    exact hinv
  | established =>
    have hexec : (s.exec .established).2 = s :=
      congrArg₂ Traced.mk (if_neg hmeasures) (if_neg hmeasures)
    rw [hexec]
    exact hinv
  | dupacks => exact { hinv with timed := fun h ↦ absurd rfl h }
  | rexmt => exact absurd rfl he
  | setpersist =>
    by_cases hbelow : s.tp.tRxtshift < tcpMaxrxtshift
    · have hexec : (s.exec .setpersist).2 =
          ⟨{ s.tp with tRxtshift := short (s.tp.tRxtshift + 1) }, s.exact⟩ :=
        congrArg (Traced.mk · _) (if_pos hbelow)
      rw [hexec]
      refine { hinv with rxtshift := ?_ }
      have hrange := hinv.rxtshift
      unfold tcpMaxrxtshift at hbelow
      dsimp only
      rw [hinv.shift]
      omega
    · have hexec : (s.exec .setpersist).2 = s := congrArg (Traced.mk · _) (if_neg hbelow)
      rw [hexec]
      exact hinv
  | unpersist => exact { hinv with rxtshift := ⟨Int.le_refl 0, (by decide : (0 : ℤ) ≤ 12)⟩ }

theorem Traced.Inv.exec (hinv : s.Inv) (e : Event) (hfits : e.Fits s) : (s.exec e).2.Inv := by
  by_cases hmeasures : s.tp.measures e = true
  · rw [Traced.exec_measures hmeasures]
    exact hinv.measure (Rtt.timing hmeasures) (hfits.1 hmeasures)
  · by_cases he : e = .rexmt
    · subst he
      exact hinv.rexmt hfits.2
    · exact hinv.other hmeasures he

/-- After an event the fields are the exact ones exactly when what it adds up fits. -/
theorem Traced.Inv.exec_iff (hinv : s.Inv) (e : Event) : (s.exec e).2.Exactly ↔ e.Fits s := by
  refine ⟨fun hexactly ↦ ⟨fun hmeasures ↦ ?_, fun hclears ↦ ?_⟩,
    fun hfits ↦ (hinv.exec e hfits).exactly⟩
  · rw [Traced.exec_measures hmeasures] at hexactly
    exact Exact.fits_of_exactly hexactly
  · cases e with
    | rexmt => exact Traced.fits_of_exactly_rexmt hclears hexactly
    | _ => cases hclears

/-- In a run from a new connection the fields are always those of the exact estimator, positive from
a measurement on until they are cleared, and the retransmit time is in its range, exactly when what
each event adds up fits into a `short`. -/
theorem estimator_exact (events : List Event) :
    Machine.Each Traced.exec (fun s e ↦ (s.exec e).2.Exactly) events .start ↔
      Machine.Each Traced.exec (fun s e ↦ e.Fits s) events .start :=
  Machine.each_iff (c := fun _ _ ↦ True) Traced.Inv (fun _ e hinv _ ↦ hinv.exec_iff e)
    (fun _ e hinv _ hfits ↦ hinv.exec e hfits) events Traced.start_inv
    (Machine.each_of_forall (fun _ _ ↦ trivial) events Traced.start)

/-- A segment that is timed for `n` more ticks. -/
theorem run_slowtimo (n : ℕ) (events : List Event) (tp : Rtt) (g : Exact) (hpos : 1 ≤ tp.tRtt)
    (hfits : tp.tRtt + n ≤ 32767) :
    (Machine.run Traced.exec (List.replicate n .slowtimo ++ events) ⟨tp, g⟩).2 =
      (Machine.run Traced.exec events
        ⟨{ tp with tRtt := tp.tRtt + n }, { g with elapsed := g.elapsed + n }⟩).2 := by
  induction n generalizing tp g with
  | zero =>
    rw [Int.natCast_zero, Int.add_zero, Int.add_zero]
    rfl
  | succ n ih =>
    have hstep : (Traced.exec ⟨tp, g⟩ .slowtimo).2 =
        ⟨{ tp with tRtt := tp.tRtt + 1 }, { g with elapsed := g.elapsed + 1 }⟩ := by
      have hcount : tp.exec .slowtimo = { tp with tRtt := tp.tRtt + 1 } := by
        rw [← short_eq (i := tp.tRtt + 1) (by omega) (by omega)]
        exact if_pos (by omega)
      exact congrArg (Traced.mk · _) hcount
    rw [List.replicate_succ, List.cons_append, Machine.run, hstep,
      ih _ _ (by dsimp only; omega) (by dsimp only; omega)]
    dsimp only
    rw [Int.natCast_succ, Int.add_comm (n : ℤ) 1, ← Int.add_assoc, ← Int.add_assoc]

/-- The fields of a new connection whose first segment has been timed for `n` ticks more. -/
def timedFirst (n : ℕ) : Rtt := { newtcpcb with tRtt := 1 + n }

/-- The first measurement of a run. -/
theorem first_measurement (n : ℕ) (hn : n ≤ 32766)
    (hall : ∀ events, Machine.Each Traced.exec (fun s e ↦ (s.exec e).2.Exactly) events .start) :
    short ((1 + n) * 8) = (1 + n) * 8 := by
  have hlast := (hall (.output 0 :: (List.replicate n .slowtimo ++ [.ack 1]))).last
    Traced.start_inv.exactly
  have hfits : (1 : ℤ) + n ≤ 32767 := by omega
  have hrun : (Machine.run Traced.exec (.output 0 :: (List.replicate n .slowtimo ++ [.ack 1]))
      Traced.start).2 = (Traced.exec ⟨timedFirst n, ⟨1 + n, 0, 24, false⟩⟩ (.ack 1)).2 :=
    run_slowtimo n [.ack 1] { newtcpcb with tRtt := 1 } ⟨1, 0, 24, false⟩ (Int.le_refl 1) hfits
  have htiming : (timedFirst n).tRtt ≠ 0 := by
    change (1 : ℤ) + n ≠ 0
    omega
  have hmeasures : (timedFirst n).measures (.ack 1) = true :=
    Bool.and_eq_true_iff.mpr ⟨decide_eq_true htiming, (by decide : seqGt 1 0 = true)⟩
  rw [hrun, Traced.exec_measures hmeasures] at hlast
  have hsrtt := hlast.srtt
  dsimp only [Rtt.tcpXmitTimer] at hsrtt
  have hnew : (timedFirst n).newSrtt = short ((1 + n) * 8) := if_neg (not_not_intro rfl)
  have hexact : (Exact.measure ⟨1 + n, 0, 24, false⟩).srtt = (1 + n) * 8 :=
    congrArg Exact.srtt (if_neg (not_not_intro rfl))
  rw [← hnew, hsrtt, hexact]

/-- A first segment that is timed for 4096 ticks makes `t_srtt` negative. -/
theorem estimator_wraps :
    ¬ ∀ events, Machine.Each Traced.exec (fun s e ↦ (s.exec e).2.Exactly) events .start := by
  intro hall
  have hsrtt := first_measurement 4095 (by decide) hall
  have hrange := short_range ((1 + (4095 : ℕ)) * 8)
  omega

end Bsd386.Tcp
