import Bsd386.Lib.Machine
import Bsd386.Tcp.Window.Input
import Mathlib.Data.List.Chain

/-!
# Steps of a connection

What a step up to the call of `tcp_output` keeps, and what the segments that are sent then keep. A
connection that waits for a `SYN` stays empty until it arrives.
-/

namespace Bsd386.Tcp.Window

open Sequence

variable {s s' s'' : Rcv} {h : Header} {x : Input} {ti : Ti} {low : ℤ} {sends : List Send}
  {step : Step}

/-! ## What stays as it is -/

/-- The size of the buffer and the last right edge are the same. -/
structure Framed (s s' : Rcv) : Prop where
  hiwat_eq : s'.hiwat = s.hiwat
  edge_eq : s'.edge = s.edge

theorem Framed.rfl : Framed s s :=
  ⟨Eq.refl _, Eq.refl _⟩

theorem Framed.trans (hfirst : Framed s s') (hsecond : Framed s' s'') : Framed s s'' :=
  ⟨hsecond.hiwat_eq.trans hfirst.hiwat_eq, hsecond.edge_eq.trans hfirst.edge_eq⟩

theorem presentLoop_framed (flags : Bool) (queue : List Ti) :
    Framed s (s.presentLoop flags queue).2 := by
  induction queue generalizing s flags with
  | nil => exact ⟨rfl, rfl⟩
  | cons q queue ih =>
    rw [Rcv.presentLoop]
    by_cases hnext : q.seq = s.rcvNxt
    · rw [if_pos hnext]
      exact ⟨(ih _).hiwat_eq, (ih _).edge_eq⟩
    · rw [if_neg hnext]
      exact ⟨rfl, rfl⟩

theorem present_framed : Framed s s.present.2 := by
  rw [Rcv.present]
  split_ifs
  · exact Framed.rfl
  · exact Framed.rfl
  · exact presentLoop_framed _ _

theorem tcpReass_framed : Framed s (s.tcpReass ti).2 := by
  rw [Rcv.tcpReass]
  split_ifs
  · exact ⟨rfl, rfl⟩
  · rw [Rcv.reass]
    cases ti.place none s.queue with
    | none => exact Framed.rfl
    | some queue => exact ⟨present_framed.hiwat_eq, present_framed.edge_eq⟩

theorem text_framed : Framed s (s.text ti) := by
  rw [Rcv.text]
  split_ifs
  · exact tcpReass_framed.trans ⟨rfl, rfl⟩
  · exact tcpReass_framed
  · exact Framed.rfl

theorem process_framed (hprocess : s.process x ti = some s') : Framed s s' := by
  unfold Rcv.process at hprocess
  split at hprocess
  · cases hprocess
  · cases hprocess
    exact Framed.rfl
  · obtain ⟨s₁, hacked, rfl⟩ := Option.map_eq_some_iff.mp hprocess
    refine Framed.trans ?_ text_framed
    unfold Rcv.acked at hacked
    split at hacked
    · cases hacked
      exact ⟨present_framed.hiwat_eq, present_framed.edge_eq⟩
    · cases hacked
      exact ⟨rfl, rfl⟩
    · cases hacked
      exact ⟨rfl, rfl⟩
    · cases hacked
    · cases hacked
      exact Framed.rfl

theorem input_framed (hinput : s.input h x = some s') : Framed (s.dooptions h x) s' := by
  unfold Rcv.input Rcv.slowInput at hinput
  dsimp only at hinput
  split_ifs at hinput
  · cases hinput
    exact ⟨rfl, rfl⟩
  · cases hinput
    exact Framed.rfl
  · split at hinput
    · cases hinput
      exact Framed.rfl
    · split_ifs at hinput
      split at hinput
      · cases hinput
        exact Framed.rfl
      · cases hinput
      · exact process_framed hinput

/-! ## Reservations -/

/-- A size that `sbreserve` allows. -/
def reserved (cc : Option ℕ) : List ℕ := (cc.filter fun cc ↦ cc ≤ sbLimit).toList

/-- What `tcp_mss` reserves when the options of a segment are looked at. -/
def Rcv.optioned (s : Rcv) : Step → Option ℕ
  | .syn _ _ x => if s.tState = .listen ∨ s.tState = .synSent then x.reserve else none
  | .segment h x => if s.tState.haveRcvdSyn ∧ h.syn then x.reserve else none
  | _ => none

/-- No reservation of a step makes the buffer smaller. -/
def Rcv.Grows (s : Rcv) (step : Step) : Prop :=
  (s.hiwat :: (reserved (s.optioned step) ++ step.sends.flatMap fun x ↦ reserved x.reserve)).IsChain
    (· ≤ ·)

theorem reserved_spec {cc : Option ℕ} {sizes : List ℕ}
    (hgrow : (s.hiwat :: (reserved cc ++ sizes)).IsChain (· ≤ ·)) :
    s.hiwat ≤ (s.sbreserve cc).hiwat ∧ ((s.sbreserve cc).hiwat :: sizes).IsChain (· ≤ ·) := by
  have hsize : (s.sbreserve cc).hiwat = (cc.filter fun cc ↦ cc ≤ sbLimit).getD s.hiwat := rfl
  rw [hsize]
  rw [reserved] at hgrow
  cases hsizes : cc.filter fun cc ↦ cc ≤ sbLimit with
  | none =>
    rw [hsizes] at hgrow
    exact ⟨Nat.le_refl _, hgrow⟩
  | some size =>
    rw [hsizes] at hgrow
    exact List.isChain_cons_cons.mp hgrow

/-! ## Output -/

/-- What the segments of a call keep. -/
structure Sent (low : ℤ) (s s' : Rcv) : Prop where
  inv : Inv low s'
  tState_eq : s'.tState = s.tState
  queue_eq : s'.queue = s.queue
  cc_eq : s'.cc = s.cc
  dist_le : s.dist ≤ s'.dist

theorem Inv.sendAll (hinv : Inv low s)
    (hgrow : (s.hiwat :: sends.flatMap fun x ↦ reserved x.reserve).IsChain (· ≤ ·)) :
    Sent low s (s.sendAll sends).2 := by
  induction sends generalizing s with
  | nil => exact ⟨hinv, rfl, rfl, rfl, Int.le_refl _⟩
  | cons x sends ih =>
    rw [List.flatMap_cons] at hgrow
    obtain ⟨hsize, hrest⟩ := reserved_spec hgrow
    have hsent := ih (hinv.send hsize) hrest
    have hrange := advertise_range (x := x) hinv.dist_le
    have hdist : s.dist ≤ (s.send x).dist := by
      rcases hinv.send_rcvAdv x with ⟨-, hdist⟩ | ⟨-, hdist, -⟩
      · rw [hdist]
        exact hrange.2.2
      · rw [hdist]
    exact ⟨hsent.inv, hsent.tState_eq, hsent.queue_eq, hsent.cc_eq,
      Int.le_trans hdist hsent.dist_le⟩

/-- The edge that is remembered is the last one. -/
theorem sendAll_edge :
    (s.sendAll sends).2.edge = (s.edge.toList ++ (s.sendAll sends).1).getLast? := by
  induction sends generalizing s with
  | nil =>
    rw [Rcv.sendAll, List.append_nil]
    cases s.edge <;> rfl
  | cons x sends ih =>
    have hif : (s.send x).edge = if s.tState.sendsAck then some (s.rightEdge x) else s.edge := rfl
    rw [Rcv.sendAll]
    dsimp only
    rw [ih, hif]
    split_ifs
    · exact (List.getLast?_append_of_ne_nil s.edge.toList (List.cons_ne_nil _ _)).symm
    · rfl

/-! ## Steps -/

/-- What holds of a connection between two steps. -/
structure Kept (s : Rcv) : Prop where
  inv : ∃ low, Inv low s
  fresh : s.tState.sendsAck = false → Fresh s

/-- The state in which `tcp_input` computes the window, if it comes to it. -/
def Rcv.windowState (s : Rcv) : Step → Option Rcv
  | .syn _ _ x => if s.tState = .listen ∨ s.tState = .synSent then some (s.atSyn x) else none
  | .segment h x =>
    if s.tState.haveRcvdSyn ∧ (s.dooptions h x).predicts h x = false then some (s.dooptions h x)
    else none
  | _ => none

/-- The memory for mbufs that is left when the window is computed. -/
def Step.room : Step → ℤ
  | .syn _ _ x | .segment _ x => x.room
  | _ => 0

/-- Where the window is computed, `rcv_nxt` has not passed `rcv_adv`. -/
def Rcv.Timely (s : Rcv) (step : Step) : Prop :=
  ∀ w ∈ s.windowState step, w.Unpassed step.room

/-- The sequence numbers stay together, and the buffer does not become smaller. -/
structure Rcv.Ordinary (s : Rcv) (step : Step) : Prop where
  near : -1000000000 ≤ s.dist
  reaches : ∀ h x, step = .segment h x → h.Reaches s.rcvNxt
  grows : s.Grows step

theorem haveRcvdSyn_sendsAck {t : TcpState} (hsyn : t.haveRcvdSyn = true) : t.sendsAck = true := by
  cases t <;> first | rfl | cases hsyn

/-- A step up to the call of `tcp_output`. -/
theorem Kept.react (hkept : Kept s) (hordinary : s.Ordinary step) (htimely : s.Timely step)
    (hreact : s.react step = some s') :
    Kept s' ∧ s'.edge = s.edge ∧
      (s'.hiwat :: step.sends.flatMap fun x ↦ reserved x.reserve).IsChain (· ≤ ·) := by
  obtain ⟨low, hinv₀⟩ := hkept.inv
  have hinv : Inv (-1000000000) s := hinv₀.near (by decide) hordinary.near
  have hgrow := hordinary.grows
  unfold Rcv.Grows at hgrow
  have hacks : ∀ {bound r}, Inv bound r ∧ r.tState.sendsAck = true → Kept r := fun hinv ↦
    ⟨⟨_, hinv.1⟩, fun hsilent ↦ absurd (hinv.2.symm.trans hsilent) (by decide)⟩
  cases step with
  | syn h acks x =>
    unfold Rcv.react at hreact
    dsimp only at hreact
    unfold Rcv.optioned at hgrow
    dsimp only at hgrow
    by_cases hwaits : s.tState = .listen ∨ s.tState = .synSent
    · rw [if_pos hwaits] at hreact hgrow
      cases hreact
      obtain ⟨hsize, hrest⟩ := reserved_spec hgrow
      have hsilent : s.tState.sendsAck = false := by
        rcases hwaits with hstate | hstate
        · rw [hstate]
          rfl
        · rw [hstate]
          rfl
      refine ⟨hacks (hinv.syn (hkept.fresh hsilent) hsize), ?_, ?_⟩
      · exact text_framed.edge_eq
      · rw [Rcv.syn, text_framed.hiwat_eq]
        exact hrest
    · rw [if_neg hwaits] at hreact hgrow
      cases hreact
      exact ⟨hkept, rfl, hgrow⟩
  | segment h x =>
    unfold Rcv.react at hreact
    dsimp only at hreact
    unfold Rcv.optioned at hgrow
    dsimp only at hgrow
    by_cases hsyn : s.tState.haveRcvdSyn = true
    · rw [if_pos hsyn] at hreact
      have hframed := input_framed hreact
      have hoptions : s.hiwat ≤ (s.dooptions h x).hiwat ∧ (s.dooptions h x).edge = s.edge ∧
          ((s.dooptions h x).hiwat :: (Step.segment h x).sends.flatMap
            fun x ↦ reserved x.reserve).IsChain (· ≤ ·) := by
        unfold Rcv.dooptions
        by_cases hflag : h.syn = true
        · rw [if_pos ⟨hsyn, hflag⟩] at hgrow
          rw [if_pos hflag]
          obtain ⟨hsize, hrest⟩ := reserved_spec hgrow
          exact ⟨hsize, rfl, hrest⟩
        · rw [if_neg fun hboth ↦ hflag hboth.2] at hgrow
          rw [if_neg hflag]
          exact ⟨Nat.le_refl _, rfl, hgrow⟩
      have hunpassed : (s.dooptions h x).predicts h x = false →
          (s.dooptions h x).Unpassed x.room := by
        intro hpredicts
        refine htimely (s.dooptions h x) ?_
        rw [Rcv.windowState, if_pos ⟨hsyn, hpredicts⟩]
        rfl
      refine ⟨hacks (hinv.input (by decide) (haveRcvdSyn_sendsAck hsyn) hoptions.1 hunpassed
        (hordinary.reaches h x rfl) hreact), ?_, ?_⟩
      · rw [hframed.edge_eq]
        exact hoptions.2.1
      · rw [hframed.hiwat_eq]
        exact hoptions.2.2
    · rw [if_neg hsyn] at hreact
      rw [if_neg fun hboth ↦ hsyn hboth.1] at hgrow
      cases hreact
      exact ⟨hkept, rfl, hgrow⟩
  | receive n sends =>
    cases hreact
    refine ⟨⟨⟨_, hinv.receive n⟩, fun hsilent ↦ ?_⟩, rfl, hgrow⟩
    have hfresh := hkept.fresh hsilent
    refine ⟨hfresh.waits, hfresh.queue, ?_, hfresh.dist⟩
    dsimp only
    rw [hfresh.cc]
    exact Nat.zero_sub _
  | usrclosed sends =>
    unfold Rcv.react Rcv.usrclosed at hreact
    dsimp only at hreact
    split at hreact
    · cases hreact
    · cases hreact
    · cases hreact
    · cases hreact
      exact ⟨hacks ⟨hinv.withState rfl, rfl⟩, rfl, hgrow⟩
    · cases hreact
      exact ⟨hacks ⟨hinv.withState rfl, rfl⟩, rfl, hgrow⟩
    · cases hreact
      exact ⟨hacks ⟨hinv.withState rfl, rfl⟩, rfl, hgrow⟩
    · cases hreact
      exact ⟨hkept, rfl, hgrow⟩
  | output sends =>
    cases hreact
    exact ⟨hkept, rfl, hgrow⟩

/-- The segments of a step. -/
theorem Kept.sendAll (hkept : Kept s)
    (hgrow : (s.hiwat :: sends.flatMap fun x ↦ reserved x.reserve).IsChain (· ≤ ·)) :
    Kept (s.sendAll sends).2 := by
  obtain ⟨low, hinv⟩ := hkept.inv
  have hsent := hinv.sendAll hgrow
  refine ⟨⟨low, hsent.inv⟩, fun hsilent ↦ ?_⟩
  rw [hsent.tState_eq] at hsilent
  have hfresh := hkept.fresh hsilent
  have hdist := hfresh.dist
  refine ⟨?_, ?_, ?_, Int.le_trans hdist hsent.dist_le⟩
  · rw [hsent.tState_eq]
    exact hfresh.waits
  · rw [hsent.queue_eq]
    exact hfresh.queue
  · rw [hsent.cc_eq]
    exact hfresh.cc

end Bsd386.Tcp.Window

/-!
# The receive window is honoured

The right edge that the peer sees does not move back, the window for trimming is the signed maximum
of the room and of what was advertised, data that fits is not trimmed, and the buffer does not grow
beyond its size and what was advertised. This is so exactly in those runs where `rcv_nxt` has not
passed `rcv_adv` whenever the window is computed.
-/

namespace Bsd386.Tcp.Window

open Sequence Machine

variable {s w : Rcv} {step : Step} {steps : List Step}

/-- A socket that waits for a `SYN` and has sent nothing. -/
structure New (s : Rcv) : Prop where
  waits : s.tState = .listen ∨ s.tState = .synSent
  queue : s.queue = []
  cc : s.cc = 0
  adv : s.rcvAdv = s.rcvNxt
  edge : s.edge = none
  hiwat_le : s.hiwat ≤ sbLimit

/-- The promise at a step. -/
structure Rcv.Honoured (s : Rcv) (step : Step) : Prop where
  edges : (s.edge.toList ++ (exec (some s) step).1).IsChain fun e e' ↦ 0 ≤ diff e' e
  window : ∀ w ∈ s.windowState step, ((w.rcvWnd step.room).toNat : ℤ) = w.fullWindow step.room
  text : ∀ h x, step = .segment h x → ∀ w ∈ s.windowState step, h.seq = w.rcvNxt →
    (h.len.toNat : ℤ) ≤ w.sbspace x.room → trimBefore w.rcvNxt h = some h.ti ∧
      trimAfter w.tState w.rcvNxt (w.rcvWnd x.room) h.syn h.ti = .keep h.ti
  synText : ∀ h acks x, step = .syn h acks x → ∀ w ∈ s.windowState step,
    (h.len.toNat : ℤ) ≤ w.sbspace x.room → s.synText h x = { h.ti with seq := h.seq + 1 }
  bounded : ∀ r ∈ (exec (some s) step).2, s.cc < r.cc → (r.cc : ℤ) ≤ r.hiwat + max s.dist 0

theorem New.kept (hnew : New s) : Kept s := by
  have hdist : s.dist = 0 := by
    rw [Rcv.dist, hnew.adv]
    exact diff_self
  have hcc := hnew.cc
  refine ⟨⟨0, ⟨by decide, by omega, ?_, ?_, fun _ ↦ hnew.edge⟩, hnew.hiwat_le, by omega,
    by omega, ?_⟩, fun _ ↦ ⟨hnew.waits, hnew.queue, hcc, by omega⟩⟩
  · rw [hdist]
    decide
  · intro e he
    rw [hnew.edge] at he
    cases he
  · rw [hnew.queue]
    trivial

/-! ## A step -/

theorem windowState_spec (hkept : Kept s) (hw : w ∈ s.windowState step) :
    w.hiwat ≤ sbLimit ∧ w.dist = s.dist ∧ w.dist ≤ tcpMaxwin := by
  obtain ⟨low, hinv⟩ := hkept.inv
  cases step with
  | syn h acks x =>
    unfold Rcv.windowState Rcv.atSyn at hw
    dsimp only at hw
    split_ifs at hw
    · cases hw
      exact ⟨sbreserve_le hinv.hiwat_le _, rfl, hinv.dist_le⟩
    · cases hw
      exact ⟨hinv.hiwat_le, rfl, hinv.dist_le⟩
    · cases hw
  | segment h x =>
    unfold Rcv.windowState at hw
    dsimp only at hw
    split_ifs at hw
    · cases hw
      unfold Rcv.dooptions
      split_ifs
      · exact ⟨sbreserve_le hinv.hiwat_le _, rfl, hinv.dist_le⟩
      · exact ⟨hinv.hiwat_le, rfl, hinv.dist_le⟩
    · cases hw
  | receive => cases hw
  | usrclosed => cases hw
  | output => cases hw

/-- The window is right exactly at the steps where `rcv_nxt` has not passed `rcv_adv`. -/
theorem window_iff (hkept : Kept s) :
    (∀ w ∈ s.windowState step, ((w.rcvWnd step.room).toNat : ℤ) = w.fullWindow step.room) ↔
      s.Timely step := by
  refine forall₂_congr fun w hw ↦ ?_
  obtain ⟨hhiwat, -, hdist⟩ := windowState_spec hkept hw
  exact rcvWnd_iff hhiwat hdist

/-- The right edges of a step go forward. -/
theorem exec_edges (hkept : Kept s) (hordinary : s.Ordinary step) (htimely : s.Timely step) :
    (s.edge.toList ++ (exec (some s) step).1).IsChain fun e e' ↦ 0 ≤ diff e' e := by
  rw [exec]
  cases hreact : s.react step with
  | none =>
    obtain ⟨low, hinv⟩ := hkept.inv
    exact ((hinv.withState (t := .closed) rfl).toEdges.sendAll step.sends).1
  | some r =>
    obtain ⟨hkept', hedge, -⟩ := hkept.react hordinary htimely hreact
    obtain ⟨low, hinv⟩ := hkept'.inv
    rw [← hedge]
    exact (hinv.toEdges.sendAll step.sends).1

theorem exec_kept (hkept : Kept s) (hordinary : s.Ordinary step) (htimely : s.Timely step) :
    ∀ r ∈ (exec (some s) step).2, Kept r ∧
      r.edge = (s.edge.toList ++ (exec (some s) step).1).getLast? := by
  intro r hr
  rw [exec] at hr ⊢
  cases hreact : s.react step with
  | none =>
    rw [hreact] at hr
    cases hr
  | some r' =>
    obtain ⟨hkept', hedge, hgrow⟩ := hkept.react hordinary htimely hreact
    rw [hreact] at hr
    cases hr
    refine ⟨hkept'.sendAll hgrow, ?_⟩
    rw [← hedge]
    exact sendAll_edge

/-- A step honours the window exactly when it finds `rcv_nxt` not past `rcv_adv`. -/
theorem honoured_iff (hkept : Kept s) (hordinary : s.Ordinary step) :
    s.Honoured step ↔ s.Timely step := by
  constructor
  · exact fun hhonoured ↦ (window_iff hkept).mp hhonoured.window
  · intro htimely
    have hwindow := (window_iff hkept).mpr htimely
    refine ⟨exec_edges hkept hordinary htimely, hwindow, ?_, ?_, ?_⟩
    · intro h x hstep w hw hseq hlen
      have hwnd := hwindow w hw
      rw [hstep] at hwnd
      change ((w.rcvWnd x.room).toNat : ℤ) = _ at hwnd
      have hbefore : diff w.rcvNxt h.seq ≤ 0 := Int.le_of_eq (diff_eq_zero_iff.mpr hseq.symm)
      have hbeyond : h.ti.beyond w.rcvNxt (w.rcvWnd x.room) ≤ 0 := by
        refine beyond_le_zero hseq ?_
        change (h.len.toNat : ℤ) ≤ _
        rw [hwnd, Rcv.fullWindow, Step.room]
        omega
      exact ⟨if_pos hbefore, if_pos hbeyond⟩
    · intro h acks x hstep w hw hlen
      have hwnd := hwindow w hw
      rw [hstep] at hwnd hw
      have hat : s.atSyn x = w := by
        unfold Rcv.windowState at hw
        dsimp only at hw
        split_ifs at hw
        · exact Option.some.inj hw
        · cases hw
      change ((w.rcvWnd x.room).toNat : ℤ) = w.fullWindow x.room at hwnd
      unfold Rcv.synText
      dsimp only
      rw [hat, if_neg]
      rw [Rcv.fullWindow] at hwnd
      change ¬(w.rcvWnd x.room).toNat < h.len.toNat
      omega
    · intro r hr hgrown
      obtain ⟨low, hinv⟩ := (exec_kept hkept hordinary htimely r hr).1.inv
      have hcc := hinv.cc_le
      omega

/-! ## Runs -/

/-- The right edges of a run go forward. -/
theorem run_edges (hkept : Kept s)
    (hordinary : Each exec (fun s step ↦ ∀ r ∈ s, r.Ordinary step) steps (some s))
    (htimely : Each exec (fun s step ↦ ∀ r ∈ s, r.Timely step) steps (some s)) :
    (s.edge.toList ++ (run exec steps (some s)).1.flatten).IsChain fun e e' ↦ 0 ≤ diff e' e := by
  have hdead : ∀ steps, (run exec steps none).1.flatten = [] := by
    intro steps
    induction steps with
    | nil => rfl
    | cons step steps ih => exact ih
  induction steps generalizing s with
  | nil =>
    rw [run, List.flatten_nil, List.append_nil]
    cases s.edge with
    | none => exact List.IsChain.nil
    | some e => exact List.IsChain.singleton e
  | cons step steps ih =>
    have hedges := exec_edges hkept (hordinary.1 s rfl) (htimely.1 s rfl)
    rw [run, List.flatten_cons]
    cases hexec : (exec (some s) step).2 with
    | none =>
      rw [hdead, List.append_nil]
      exact hedges
    | some r =>
      obtain ⟨hkept', hedge⟩ := exec_kept hkept (hordinary.1 s rfl) (htimely.1 s rfl) r hexec
      have hrest := ih hkept' (hexec ▸ hordinary.2) (hexec ▸ htimely.2)
      rw [← List.append_assoc, List.isChain_append]
      rw [List.isChain_append] at hrest
      refine ⟨hedges, hrest.2.1, fun e he ↦ hrest.2.2 e ?_⟩
      rw [hedge, Option.mem_def.mp he]
      rfl

/-- A client that has called `connect`. -/
def client : Rcv := ⟨.synSent, 0, 0, [], 0, 4096, false, none⟩

/-- An input with enough memory. -/
def arrival (predicted : Bool) (sends : List Send) : Input :=
  ⟨8192, none, predicted, false, false, .go false, false, sends⟩

/-- A `SYN` with `ACK`, 100 bytes that header prediction takes, and 30000 bytes that it does not
take. -/
def transfer (sends : List Send) : List Step :=
  [.syn ⟨1000, 0, true, false, false⟩ true (arrival false sends),
    .segment ⟨1001, 100, false, false, false⟩ (arrival true []),
    .segment ⟨1101, 30000, false, false, false⟩ (arrival false [])]

end Bsd386.Tcp.Window
