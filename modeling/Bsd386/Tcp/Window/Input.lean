import Bsd386.Tcp.Window.Invariant

/-!
# Input keeps the promise

A segment that has been trimmed to the window, and data that header prediction takes, fit into the
buffer.
-/

namespace Bsd386.Tcp.Window

open Sequence

variable {s s' : Rcv} {h : Header} {x : Input} {ti : Ti} {low room limit : ℤ} {n : ℕ}

theorem presentLoop_tState (flags : Bool) (queue : List Ti) :
    (s.presentLoop flags queue).2.tState = s.tState := by
  induction queue generalizing s flags with
  | nil => rfl
  | cons q queue ih =>
    rw [Rcv.presentLoop]
    by_cases hnext : q.seq = s.rcvNxt
    · rw [if_pos hnext]
      exact ih _
    · rw [if_neg hnext]

theorem present_tState : s.present.2.tState = s.tState := by
  rw [Rcv.present]
  split_ifs
  · rfl
  · rfl
  · exact presentLoop_tState _ _

/-! ## Text -/

/-- What taking a segment into the stream changes; with a `FIN` what is left of the queue lies
behind `rcv_nxt`. -/
structure Taken (n : ℕ) (s : Rcv) (r : Bool × Rcv) : Prop where
  presented : Presented (s.hiwat - s.cc) n s r.2
  tState_eq : r.2.tState = s.tState
  laid : Laid r.2.rcvNxt (s.hiwat - s.cc - n) (-65536) r.2.queue
  fin : r.1 = true → Laid r.2.rcvNxt (s.hiwat - s.cc - n) 1 r.2.queue

theorem Inv.reass (hinv : Inv low s) (hheld : ti.held ≤ ti.len) (hfirst : -65536 ≤ ti.off s.rcvNxt)
    (hend : ti.off s.rcvNxt + ti.len ≤ s.hiwat - s.cc) : ∃ n, Taken n s (s.reass ti) := by
  have hsmall := hinv.small
  have hcc := hinv.cc_le
  rw [Rcv.reass]
  cases hplace : ti.place none s.queue with
  | none =>
    refine ⟨0, ⟨⟨(BitVec.add_zero _).symm, rfl, rfl, rfl, Nat.le_refl _, Or.inl rfl⟩, rfl, ?_, ?_⟩⟩
    · exact hinv.laid.weaken (Int.le_refl _) (by omega)
    · exact fun h ↦ absurd h Bool.false_ne_true
  | some queue =>
    have hlaid : Laid s.rcvNxt (s.hiwat - s.cc) (-65536) queue :=
      place_spec hinv.laid (show After s.rcvNxt (-65536) ti none from hfirst) hheld hend (by omega)
        hsmall (by omega) hplace
    obtain ⟨n, hpresented, hafter, hfin⟩ :=
      present_spec (s := { s with queue := queue }) hlaid hsmall (by decide)
    exact ⟨n, ⟨hpresented.rcvNxt_eq, hpresented.rcvAdv_eq, hpresented.hiwat_eq, hpresented.edge_eq,
      hpresented.cc_le, hpresented.n_le⟩, present_tState, hafter, hfin⟩

theorem Inv.tcpReass (hinv : Inv low s) (hheld : ti.held ≤ ti.len)
    (hfirst : -65536 ≤ ti.off s.rcvNxt)
    (hend : ti.off s.rcvNxt + ti.len ≤ s.hiwat - s.cc) : ∃ n, Taken n s (s.tcpReass ti) := by
  rw [Rcv.tcpReass]
  by_cases hfast : ti.seq = s.rcvNxt ∧ s.queue.isEmpty ∧ s.tState = .established
  · rw [if_pos hfast]
    have hoff : ti.off s.rcvNxt = 0 := diff_eq_zero_iff.mpr hfast.1
    have hqueue : s.queue = [] := List.isEmpty_iff.mp hfast.2.1
    have hpresented : Presented (s.hiwat - s.cc) ti.len s
        { s with rcvNxt := s.rcvNxt + BitVec.ofNat 32 ti.len, cc := s.cc + ti.held } :=
      ⟨rfl, rfl, rfl, rfl, Nat.add_le_add_left hheld _, Or.inr (by omega)⟩
    refine ⟨ti.len, ⟨hpresented, rfl, ?_, ?_⟩⟩
    · dsimp only
      rw [hqueue]
      trivial
    · dsimp only
      rw [hqueue]
      exact fun _ ↦ trivial
  · rw [if_neg hfast]
    exact hinv.reass hheld hfirst hend

/-- What has been taken fits into the buffer. -/
theorem Inv.taken {r : Bool × Rcv} (hinv : Inv low s) (hlow : -1900000000 ≤ low - 65536)
    (htaken : Taken n s r) (hack : s.tState.sendsAck = true) : Inv (low - 65536) r.2 := by
  have hhiwat := hinv.hiwat_le
  rw [sbLimit_eq] at hhiwat
  have hccle := hinv.cc_le
  have hcc := htaken.presented.cc_le
  have hn := htaken.presented.n_le
  refine hinv.moved hlow (by omega) htaken.presented ?_ (by omega) ?_
  · intro hsilent
    rw [htaken.tState_eq, hack] at hsilent
    cases hsilent
  · exact htaken.laid.weaken (Int.le_refl _) (by omega)

/-- A `FIN` takes one sequence number. -/
theorem Inv.fin (hinv : Inv low s) (hlow : -1900000000 ≤ low - 65536)
    (hlaid : Laid s.rcvNxt (s.hiwat - s.cc) 1 s.queue) (hack : s.tState.sendsAck = true) :
    Inv (low - 65536) s.fin ∧ s.fin.tState.sendsAck = true := by
  have hstate : s.fin.tState.sendsAck = true := by
    unfold Rcv.fin
    dsimp only
    cases htState : s.tState with
    | listen => rw [htState] at hack; exact hack
    | synSent => rw [htState] at hack; exact hack
    | _ => rfl
  have hpresented : Presented 1 1 s s.fin :=
    ⟨rfl, rfl, rfl, rfl, Nat.le_succ _, Or.inr (by decide)⟩
  refine ⟨hinv.moved hlow (by decide : 1 ≤ 65536) hpresented ?_ hinv.cc_le ?_, hstate⟩
  · intro hsilent
    rw [hstate] at hsilent
    cases hsilent
  · have hshift := hlaid.shift ⟨by decide, hinv.small.limit_le⟩ (show 1 ≤ 200000 by decide)
    exact hshift.weaken (by decide) (by change (s.hiwat : ℤ) - s.cc - 1 ≤ s.hiwat - s.cc; omega)

theorem Inv.text (hinv : Inv low s) (hlow : -1900000000 ≤ low - 131072)
    (hack : s.tState.sendsAck = true)
    (hwithin : Within s.rcvNxt (-65536) (s.hiwat - s.cc) ti) :
    Inv (low - 131072) (s.text ti) ∧ (s.text ti).tState.sendsAck = true := by
  have hweak : ∀ {s : Rcv}, Inv (low - 65536) s → Inv (low - 131072) s := fun h ↦
    h.near hlow (Int.le_trans (by omega) h.dist_ge)
  rw [Rcv.text]
  by_cases htext : (ti.len ≠ 0 ∨ ti.fin) ∧ s.tState.haveRcvdFin = false
  · rw [if_pos htext]
    obtain ⟨hfirst, hend⟩ :
        -65536 ≤ ti.off s.rcvNxt ∧ ti.off s.rcvNxt + ti.len ≤ s.hiwat - s.cc := by
      rcases hwithin.within with ⟨hlen, hfin⟩ | hwithin
      · rcases htext.1 with hne | hfin'
        · exact absurd hlen hne
        · rw [hfin] at hfin'
          cases hfin'
      · exact hwithin
    obtain ⟨n, htaken⟩ := hinv.tcpReass hwithin.held_le hfirst hend
    have hinv' := hinv.taken (by omega) htaken hack
    by_cases hfin : (s.tcpReass ti).1 = true
    · rw [if_pos hfin]
      have hcc := htaken.presented.cc_le
      have hlaid : Laid (s.tcpReass ti).2.rcvNxt
          ((s.tcpReass ti).2.hiwat - (s.tcpReass ti).2.cc) 1 (s.tcpReass ti).2.queue := by
        refine (htaken.fin hfin).weaken (Int.le_refl _) ?_
        rw [htaken.presented.hiwat_eq]
        omega
      have hafter := hinv'.fin (by omega) hlaid (htaken.tState_eq ▸ hack)
      exact ⟨by rw [show low - 131072 = low - 65536 - 65536 by omega]; exact hafter.1, hafter.2⟩
    · rw [if_neg hfin]
      exact ⟨hweak hinv', htaken.tState_eq ▸ hack⟩
  · rw [if_neg htext]
    exact ⟨hinv.near hlow (Int.le_trans (by omega) hinv.dist_ge), hack⟩

/-! ## Acknowledgements -/

/-- What the processing of an acknowledgement may change: the queue is presented when the connection
becomes established. -/
theorem Inv.acked (hinv : Inv low s) (hlow : -1900000000 ≤ low - 65536)
    (hack : s.tState.sendsAck = true) {ourfinisacked : Bool}
    (hacked : s.acked ourfinisacked = some s') :
    Inv (low - 65536) s' ∧ s'.tState.sendsAck = true ∧
      ∃ n : ℕ, s'.rcvNxt = s.rcvNxt + BitVec.ofNat 32 n ∧ (n : ℤ) ≤ s.hiwat - s.cc ∧
        (s.hiwat : ℤ) - s.cc - n ≤ s'.hiwat - s'.cc := by
  have hstay : ∀ t : TcpState, t.sendsAck = true → Inv (low - 65536) { s with tState := t } ∧
      t.sendsAck = true ∧ ∃ n : ℕ, s.rcvNxt = s.rcvNxt + BitVec.ofNat 32 n ∧
        (n : ℤ) ≤ s.hiwat - s.cc ∧ (s.hiwat : ℤ) - s.cc - n ≤ s.hiwat - s.cc := by
    intro t ht
    have hcc := hinv.cc_le
    refine ⟨(hinv.withState ht).near hlow (Int.le_trans (by omega) hinv.dist_ge), ht, 0,
      (BitVec.add_zero _).symm, by omega, by omega⟩
  unfold Rcv.acked at hacked
  split at hacked
  · obtain rfl := Option.some.inj hacked
    have hinv₁ : Inv low { s with tState := .established } := hinv.withState rfl
    obtain ⟨n, hpresented, hlaid, -⟩ := present_spec hinv₁.laid hinv₁.small (by decide)
    have htaken : Taken n { s with tState := .established }
        (false, (Rcv.present { s with tState := .established }).2) :=
      ⟨hpresented, present_tState, hlaid, fun h ↦ absurd h Bool.false_ne_true⟩
    have hcc := hpresented.cc_le
    have hn := hpresented.n_le
    have hccle := hinv.cc_le
    have hinv₂ := hinv₁.taken hlow htaken rfl
    refine ⟨hinv₂, ?_, n, hpresented.rcvNxt_eq, ?_, ?_⟩
    · rw [present_tState]
      rfl
    · dsimp only at hn
      omega
    · rw [hpresented.hiwat_eq]
      dsimp only at hcc ⊢
      omega
  · obtain rfl := Option.some.inj hacked
    exact hstay .finWait2 rfl
  · obtain rfl := Option.some.inj hacked
    exact hstay .timeWait rfl
  · cases hacked
  · obtain rfl := Option.some.inj hacked
    exact hstay s.tState hack

theorem Within.pull {first : ℤ} {nxt : BitVec 32} (hwithin : Within nxt first limit ti)
    (oob : Bool) : Within nxt first limit (ti.pull oob) :=
  ⟨Nat.le_trans (Nat.sub_le _ _) hwithin.held_le, hwithin.within⟩

/-- The rest of the processing keeps the promise. -/
theorem Inv.process (hinv : Inv low s) (hlow : -1900000000 ≤ low - 196608)
    (hack : s.tState.sendsAck = true)
    (hwithin : Within s.rcvNxt 0 (s.hiwat - s.cc) ti) (hprocess : s.process x ti = some s') :
    Inv (low - 196608) s' ∧ s'.tState.sendsAck = true := by
  unfold Rcv.process at hprocess
  split at hprocess
  · cases hprocess
  · obtain rfl := Option.some.inj hprocess
    exact ⟨hinv.near hlow (Int.le_trans (by omega) hinv.dist_ge), hack⟩
  · obtain ⟨s₁, hacked, rfl⟩ := Option.map_eq_some_iff.mp hprocess
    obtain ⟨hinv₁, hack₁, n, hnxt, hn, hroom⟩ := hinv.acked (by omega) hack hacked
    have hsmall := hinv.small.limit_le
    have hwithin₁ : Within s₁.rcvNxt (-65536) (s₁.hiwat - s₁.cc) (ti.pull x.oob) := by
      refine Within.pull ⟨hwithin.held_le, ?_⟩ _
      rcases hwithin.within with hnone | ⟨hfirst, hend⟩
      · exact Or.inl hnone
      · have hoff : ti.off s₁.rcvNxt = ti.off s.rcvNxt - n := by
          rw [hnxt]
          refine diff_nat_right ?_
          unfold Ti.off at hfirst hend
          unfold InRange
          omega
        have hhiwat := hinv.hiwat_le
        rw [sbLimit_eq] at hhiwat
        exact Or.inr ⟨by omega, by omega⟩
    have htext := hinv₁.text (by omega) hack₁ hwithin₁
    exact ⟨by rw [show low - 196608 = low - 65536 - 131072 by omega]; exact htext.1, htext.2⟩

/-! ## A segment -/

/-- A reservation that does not make the buffer smaller. -/
theorem Inv.reserve (hinv : Inv low s) {cc : Option ℕ} (hgrow : s.hiwat ≤ (s.sbreserve cc).hiwat) :
    Inv low (s.sbreserve cc) := by
  have hcc := hinv.cc_le
  have hpromised := hinv.promised
  have hccsame : (s.sbreserve cc).cc = s.cc := rfl
  have hdist : (s.sbreserve cc).dist = s.dist := rfl
  refine ⟨⟨hinv.low_ge, hinv.dist_ge, hinv.dist_le, hinv.edge, hinv.silent⟩,
    sbreserve_le hinv.hiwat_le _, by omega, by omega, hinv.laid.weaken (Int.le_refl _) ?_⟩
  omega

/-- The window is not larger than the room in the buffer. -/
theorem Inv.rcvWnd_le (hinv : Inv low s) (hunpassed : s.Unpassed room) :
    ((s.rcvWnd room).toNat : ℤ) ≤ s.hiwat - s.cc := by
  have hcc := hinv.cc_le
  have hpromised := hinv.promised
  have hspace : s.sbspace room ≤ s.hiwat - s.cc := Int.min_le_left _ _
  rw [(rcvWnd_iff hinv.hiwat_le hinv.dist_le).mpr hunpassed, Rcv.fullWindow]
  omega

theorem Inv.slowInput (hinv : Inv low s) (hlow : -1900000000 ≤ low - 196608)
    (hack : s.tState.sendsAck = true) (hunpassed : s.Unpassed x.room) (hreach : h.Reaches s.rcvNxt)
    (hinput : s.slowInput h x = some s') : Inv (low - 196608) s' ∧ s'.tState.sendsAck = true := by
  have hstay : Inv (low - 196608) s ∧ s.tState.sendsAck = true :=
    ⟨hinv.near hlow (Int.le_trans (by omega) hinv.dist_ge), hack⟩
  unfold Rcv.slowInput at hinput
  split at hinput
  · obtain rfl := Option.some.inj hinput
    exact hstay
  · rename_i ti hbefore
    split_ifs at hinput
    split at hinput
    · obtain rfl := Option.some.inj hinput
      exact hstay
    · cases hinput
    · rename_i ti' hafter
      have hwithin := trimAfter_spec (trimBefore_spec hreach hbefore) hafter
      have hwnd := hinv.rcvWnd_le hunpassed
      refine hinv.process hlow hack ⟨hwithin.held_le, ?_⟩ hinput
      exact hwithin.within.imp_right fun hends ↦ ⟨hends.1, Int.le_trans hends.2 hwnd⟩

/-- Header prediction takes data that fits into the buffer. -/
theorem Inv.predicted (hinv : Inv low s) (hlow : -1900000000 ≤ low - 65536)
    (htakes : s.takesData h x = true) :
    Inv (low - 65536)
      { s with
        rcvNxt := s.rcvNxt + BitVec.ofNat 32 h.len.toNat
        cc := s.cc + h.len.toNat } ∧ s.tState.sendsAck = true := by
  unfold Rcv.takesData Rcv.expects at htakes
  simp only [Bool.and_eq_true, decide_eq_true_eq, List.isEmpty_iff] at htakes
  obtain ⟨⟨⟨⟨hexpects, -⟩, hqueue⟩, hfits⟩, -⟩ := htakes
  have hstate : s.tState = .established := hexpects.1.1.1.1.1
  have hack : s.tState.sendsAck = true := by
    rw [hstate]
    rfl
  have hspace : s.sbspace x.room ≤ s.hiwat - s.cc := Int.min_le_left _ _
  have hlen := h.len.isLt
  refine ⟨hinv.moved hlow (n := h.len.toNat) (by omega)
    ⟨rfl, rfl, rfl, rfl, Nat.le_refl _, Or.inr hfits⟩ ?_ ?_ ?_, hack⟩
  · exact fun hsilent ↦ absurd (hack.symm.trans hsilent) (by decide)
  · dsimp only
    omega
  · dsimp only
    rw [hqueue]
    trivial

/-- A segment on a connection that has received a `SYN`. -/
theorem Inv.input (hinv : Inv low s) (hlow : -1900000000 ≤ low - 196608)
    (hack : s.tState.sendsAck = true) (hgrow : s.hiwat ≤ (s.dooptions h x).hiwat)
    (hunpassed : (s.dooptions h x).predicts h x = false → (s.dooptions h x).Unpassed x.room)
    (hreach : h.Reaches s.rcvNxt) (hinput : s.input h x = some s') :
    Inv (low - 196608) s' ∧ s'.tState.sendsAck = true := by
  have hoptions : Inv low (s.dooptions h x) ∧ (s.dooptions h x).tState.sendsAck = true ∧
      (s.dooptions h x).rcvNxt = s.rcvNxt := by
    unfold Rcv.dooptions at hgrow ⊢
    split_ifs at hgrow ⊢
    · exact ⟨hinv.reserve hgrow, hack, rfl⟩
    · exact ⟨hinv, hack, rfl⟩
  obtain ⟨hinv₁, hack₁, hnxt⟩ := hoptions
  unfold Rcv.input at hinput
  dsimp only at hinput
  by_cases hpredicts : (s.dooptions h x).predicts h x = true
  · rw [if_pos hpredicts] at hinput
    by_cases htakes : (s.dooptions h x).takesData h x = true
    · rw [if_pos htakes] at hinput
      obtain rfl := Option.some.inj hinput
      have hpredicted := hinv₁.predicted (by omega) htakes
      have hge := hpredicted.1.dist_ge
      exact ⟨hpredicted.1.near hlow (by omega), hpredicted.2⟩
    · rw [if_neg htakes] at hinput
      obtain rfl := Option.some.inj hinput
      exact ⟨hinv₁.near hlow (Int.le_trans (by omega) hinv₁.dist_ge), hack₁⟩
  · rw [if_neg hpredicts] at hinput
    refine hinv₁.slowInput hlow hack₁ (hunpassed (by simpa using hpredicts)) ?_ hinput
    rw [hnxt]
    exact hreach

/-! ## The first segment -/

/-- A connection that waits for a `SYN`. -/
structure Fresh (s : Rcv) : Prop where
  waits : s.tState = .listen ∨ s.tState = .synSent
  queue : s.queue = []
  cc : s.cc = 0
  dist : 0 ≤ s.dist

theorem Fresh.silent (hfresh : Fresh s) : s.tState.sendsAck = false := by
  rcases hfresh.waits with hstate | hstate
  · rw [hstate]
    rfl
  · rw [hstate]
    rfl

/-- The text of a `SYN` is not longer than the window. -/
theorem synText_spec : (s.synText h x).off (h.seq + 1) = 0 ∧
    (s.synText h x).held ≤ (s.synText h x).len ∧
    (s.synText h x).len ≤ ((s.atSyn x).rcvWnd x.room).toNat := by
  unfold Rcv.synText Ti.cut Header.ti
  dsimp only
  split_ifs with hcut
  · refine ⟨diff_self, Nat.le_refl _, ?_⟩
    dsimp only at hcut ⊢
    omega
  · exact ⟨diff_self, Nat.le_refl _, Nat.le_of_not_lt hcut⟩

/-- The window for a `SYN` is not larger than the buffer. -/
theorem Inv.atSyn_rcvWnd (hinv : Inv low s) (hfresh : Fresh s)
    (hgrow : s.hiwat ≤ (s.sbreserve x.reserve).hiwat) :
    (s.atSyn x).Unpassed x.room ∧
      (((s.atSyn x).rcvWnd x.room).toNat : ℤ) ≤ (s.sbreserve x.reserve).hiwat := by
  have hat : Inv low (s.atSyn x) ∧ (s.atSyn x).dist = s.dist ∧
      (s.atSyn x).hiwat ≤ (s.sbreserve x.reserve).hiwat := by
    unfold Rcv.atSyn
    split_ifs
    · exact ⟨hinv.reserve hgrow, rfl, Nat.le_refl _⟩
    · exact ⟨hinv, rfl, hgrow⟩
  have hunpassed : (s.atSyn x).Unpassed x.room := Or.inl (by rw [hat.2.1]; exact hfresh.dist)
  have hwnd := hat.1.rcvWnd_le hunpassed
  exact ⟨hunpassed, by omega⟩

/-- A `SYN` opens the connection. -/
theorem Inv.syn {acks : Bool} (hinv : Inv low s) (hfresh : Fresh s)
    (hgrow : s.hiwat ≤ (s.sbreserve x.reserve).hiwat) :
    Inv (-131072) (s.syn h acks x) ∧ (s.syn h acks x).tState.sendsAck = true := by
  have hcc := hfresh.cc
  have hwnd := (hinv.atSyn_rcvWnd hfresh hgrow).2
  have hdist : diff (h.seq + 1) (h.seq + 1) = 0 := diff_self
  have hmid : Inv 0
      { s.sbreserve x.reserve with
        rcvNxt := h.seq + 1
        rcvAdv := h.seq + 1
        tState := if s.tState = .synSent ∧ acks then .established else .synReceived } := by
    refine ⟨⟨by decide, ?_, ?_, ?_, ?_⟩, sbreserve_le hinv.hiwat_le _, ?_, ?_, ?_⟩
    · exact Int.le_of_eq hdist.symm
    · unfold Rcv.dist tcpMaxwin
      dsimp only
      omega
    · intro e he
      have hnone : s.edge = none := hinv.silent hfresh.silent
      rw [show (s.sbreserve x.reserve).edge = s.edge from rfl, hnone] at he
      cases he
    · exact fun _ ↦ hinv.silent hfresh.silent
    · change s.cc ≤ _
      rw [hcc]
      exact Nat.zero_le _
    · change diff (h.seq + 1) (h.seq + 1) + (s.cc : ℤ) ≤ ((s.sbreserve x.reserve).hiwat : ℤ)
      omega
    · change Laid _ _ _ s.queue
      rw [hfresh.queue]
      trivial
  obtain ⟨hseq, hheld, hlen⟩ := synText_spec (s := s) (h := h) (x := x)
  refine hmid.text (by decide) ?_ (Within.pull ⟨hheld, Or.inr ⟨?_, ?_⟩⟩ _)
  · dsimp only
    split_ifs <;> rfl
  · dsimp only
    omega
  · change (s.synText h x).off (h.seq + 1) + _ ≤ ((s.sbreserve x.reserve).hiwat : ℤ) - s.cc
    omega

end Bsd386.Tcp.Window
