import Bsd386.Tcp.Window.Queue

/-!
# What the peer has been promised

The window that was advertised fits into the receive buffer, and so does what waits in the queue.
The right edge of the last segment is `rcv_adv`, or lies between it and `rcv_nxt` when `rcv_nxt` has
passed it.
-/

namespace Bsd386.Tcp.Window

open Sequence

variable {s s' : Rcv} {x : Send} {low room : ℤ} {n : ℕ}

/-- The right edge of the last segment and the distance to `rcv_adv`. -/
structure Edges (low : ℤ) (s : Rcv) : Prop where
  low_ge : -1900000000 ≤ low
  dist_ge : low ≤ s.dist
  dist_le : s.dist ≤ tcpMaxwin
  edge : ∀ e ∈ s.edge, 0 ≤ diff e s.rcvAdv ∧ diff e s.rcvAdv ≤ max 0 (-s.dist)
  silent : s.tState.sendsAck = false → s.edge = none

/-- The buffer has room for what was promised and for what waits. -/
structure Inv (low : ℤ) (s : Rcv) : Prop extends Edges low s where
  hiwat_le : s.hiwat ≤ sbLimit
  cc_le : s.cc ≤ s.hiwat
  promised : s.dist + s.cc ≤ s.hiwat
  laid : Laid s.rcvNxt (s.hiwat - s.cc) (-65536) s.queue

theorem sbLimit_eq : sbLimit = 61680 := by
  decide

theorem sbreserve_le (hle : s.hiwat ≤ sbLimit) (cc : Option ℕ) :
    (s.sbreserve cc).hiwat ≤ sbLimit := by
  cases cc with
  | none => exact hle
  | some cc =>
    unfold Rcv.sbreserve
    by_cases hcc : cc ≤ sbLimit
    · simp [Option.filter, hcc]
    · simpa [Option.filter, hcc] using hle

/-! ## Output -/

theorem advertise_range (hdist : s.dist ≤ tcpMaxwin) :
    0 ≤ s.advertise x ∧ s.advertise x ≤ tcpMaxwin ∧ s.dist ≤ s.advertise x := by
  unfold Rcv.advertise
  unfold tcpMaxwin at hdist ⊢
  dsimp only
  split_ifs with hsilly
  · omega
  · have hspace : 0 ≤ s.sbspace x.room := by
      by_contra hneg
      exact hsilly ⟨by omega, by omega⟩
    omega

theorem advertise_cases :
    s.advertise x = s.dist ∨ s.advertise x ≤ max 0 (s.sbspace x.room) := by
  unfold Rcv.advertise tcpMaxwin
  dsimp only
  split_ifs <;> omega

/-- The 16 bits of a window are all of it. -/
theorem setWidth_ofInt {i : ℤ} (hlow : 0 ≤ i) (hhigh : i ≤ tcpMaxwin) :
    (BitVec.ofInt 16 i).setWidth 32 = BitVec.ofInt 32 i := by
  obtain ⟨k, rfl⟩ := Int.eq_ofNat_of_zero_le hlow
  have hk : k < 65536 := by
    unfold tcpMaxwin at hhigh
    omega
  apply BitVec.eq_of_toNat_eq
  have hk' : k < 4294967296 := Nat.lt_trans hk (by decide)
  simp [Nat.mod_eq_of_lt hk, Nat.mod_eq_of_lt hk']

namespace Edges

theorem diff_nxt_adv (hedges : Edges low s) : diff s.rcvNxt s.rcvAdv = -s.dist := by
  have hlow := hedges.low_ge
  have hge := hedges.dist_ge
  have hle := hedges.dist_le
  unfold tcpMaxwin at hle
  rw [diff_sub_diff (c := s.rcvNxt), diff_self]
  · exact Int.zero_sub _
  · rw [diff_self]
    unfold Rcv.dist at hge hle
    unfold InRange
    omega

/-- The right edge in a segment. -/
theorem diff_rightEdge (hedges : Edges low s) (x : Send) :
    s.rightEdge x = s.rcvNxt + BitVec.ofInt 32 (s.advertise x) ∧
      diff (s.rightEdge x) s.rcvAdv = s.advertise x - s.dist := by
  have hrange := advertise_range (x := x) hedges.dist_le
  have hlow := hedges.low_ge
  have hge := hedges.dist_ge
  have hright : s.rightEdge x = s.rcvNxt + BitVec.ofInt 32 (s.advertise x) := by
    rw [Rcv.rightEdge, setWidth_ofInt hrange.1 hrange.2.1]
  refine ⟨hright, ?_⟩
  have hmax := hrange.2.1
  have hdist := hedges.dist_le
  unfold tcpMaxwin at hmax hdist
  rw [hright, diff_add_left, hedges.diff_nxt_adv]
  · omega
  · rw [hedges.diff_nxt_adv]
    unfold InRange
    omega

/-- The right edge does not move back. -/
theorem forward (hedges : Edges low s) (x : Send) {e : BitVec 32} (he : e ∈ s.edge) :
    0 ≤ diff (s.rightEdge x) e := by
  have hrange := advertise_range (x := x) hedges.dist_le
  have hedge := hedges.edge e he
  have hlow := hedges.low_ge
  have hge := hedges.dist_ge
  have hmax := hrange.2.1
  unfold tcpMaxwin at hmax
  rw [diff_sub_diff (c := s.rcvAdv), (hedges.diff_rightEdge x).2]
  · omega
  · rw [(hedges.diff_rightEdge x).2]
    unfold InRange
    omega

/-- Whether `rcv_adv` is moved to the right edge. -/
theorem send_rcvAdv (hedges : Edges low s) (x : Send) :
    (s.send x).rcvAdv = s.rightEdge x ∧ (s.send x).dist = s.advertise x ∨
      (s.send x).rcvAdv = s.rcvAdv ∧ (s.send x).dist = s.dist ∧
        (s.advertise x = s.dist ∨ s.advertise x = 0) := by
  have hrange := advertise_range (x := x) hedges.dist_le
  obtain ⟨hright, hdiff⟩ := hedges.diff_rightEdge x
  have hmax := hrange.2.1
  unfold tcpMaxwin at hmax
  have hgt : seqGt (s.rcvNxt + BitVec.ofInt 32 (s.advertise x)) s.rcvAdv = true ↔
      0 < s.advertise x - s.dist := by
    rw [← hright, seqGt, decide_eq_true_iff, ← hdiff]
    rfl
  have hnew : (s.send x).rcvAdv =
      if 0 < s.advertise x ∧ seqGt (s.rcvNxt + BitVec.ofInt 32 (s.advertise x)) s.rcvAdv then
        s.rcvNxt + BitVec.ofInt 32 (s.advertise x) else s.rcvAdv := rfl
  have hnxt : (s.send x).rcvNxt = s.rcvNxt := rfl
  rw [Rcv.dist, hnxt, hnew]
  by_cases hmove : 0 < s.advertise x ∧
      seqGt (s.rcvNxt + BitVec.ofInt 32 (s.advertise x)) s.rcvAdv = true
  · rw [if_pos hmove]
    refine Or.inl ⟨hright.symm, diff_add_ofInt ?_⟩
    unfold InRange
    omega
  · rw [if_neg hmove]
    rw [hgt] at hmove
    exact Or.inr ⟨rfl, rfl, by omega⟩

theorem send (hedges : Edges low s) (x : Send) : Edges low (s.send x) := by
  have hrange := advertise_range (x := x) hedges.dist_le
  have hge := hedges.dist_ge
  have hdiff := (hedges.diff_rightEdge x).2
  have hif : (s.send x).edge = if s.tState.sendsAck then some (s.rightEdge x) else s.edge := rfl
  have hedge : ∀ e ∈ (s.send x).edge, e = s.rightEdge x := by
    intro e he
    rw [hif] at he
    split_ifs at he with hack
    · exact (Option.mem_some_iff.mp he).symm
    · rw [hedges.silent (by simpa using hack)] at he
      cases he
  have hsilent : (s.send x).tState.sendsAck = false → (s.send x).edge = none := by
    intro hack
    have hstate : s.tState.sendsAck = false := hack
    rw [hif, if_neg (by simp [hstate]), hedges.silent hstate]
  rcases hedges.send_rcvAdv x with ⟨hadv, hdist⟩ | ⟨hadv, hdist, hsame⟩
  · refine ⟨hedges.low_ge, by omega, by omega, fun e he ↦ ?_, hsilent⟩
    rw [hadv, hedge e he, diff_self]
    omega
  · have hle := hedges.dist_le
    refine ⟨hedges.low_ge, by omega, by omega, fun e he ↦ ?_, hsilent⟩
    rw [hadv, hdist, hedge e he, hdiff]
    omega

/-- The right edges in the segments of a call go forward from the last one before. -/
theorem sendAll (hedges : Edges low s) (sends : List Send) :
    (s.edge.toList ++ (s.sendAll sends).1).IsChain (fun e e' ↦ 0 ≤ diff e' e) ∧
      Edges low (s.sendAll sends).2 := by
  induction sends generalizing s with
  | nil =>
    refine ⟨?_, hedges⟩
    rw [Rcv.sendAll, List.append_nil]
    cases s.edge with
    | none => exact List.IsChain.nil
    | some e => exact List.IsChain.singleton e
  | cons x sends ih =>
    obtain ⟨hchain, hend⟩ := ih (hedges.send x)
    refine ⟨?_, hend⟩
    rw [Rcv.sendAll]
    have hif : (s.send x).edge = if s.tState.sendsAck then some (s.rightEdge x) else s.edge := rfl
    by_cases hack : s.tState.sendsAck = true
    · rw [hif, if_pos hack, Option.toList_some] at hchain
      rw [if_pos hack]
      cases hedge : s.edge with
      | none => exact hchain
      | some e => exact List.IsChain.cons_cons (hedges.forward x hedge) hchain
    · rw [hif, if_neg hack] at hchain
      rw [if_neg hack]
      exact hchain

end Edges

namespace Inv

variable {limit : ℤ}

/-- A segment does not promise more than the buffer has room for. -/
theorem send (hinv : Inv low s) (hgrow : s.hiwat ≤ (s.sbreserve x.reserve).hiwat) :
    Inv low (s.send x) := by
  have hcc := hinv.cc_le
  have hpromised := hinv.promised
  have hspace : s.sbspace x.room ≤ s.hiwat - s.cc := Int.min_le_left _ _
  have hcases := advertise_cases (s := s) (x := x)
  have hhiwat : (s.send x).hiwat = (s.sbreserve x.reserve).hiwat := rfl
  have hccsame : (s.send x).cc = s.cc := rfl
  have hdist := hinv.toEdges.send_rcvAdv x
  refine ⟨hinv.toEdges.send x, sbreserve_le hinv.hiwat_le _, by omega, ?_, ?_⟩
  · rw [hhiwat, hccsame]
    omega
  · exact hinv.laid.weaken (Int.le_refl _) (by rw [hhiwat, hccsame]; omega)

/-- Data that is taken leaves the promise as it is. -/
theorem moved (hinv : Inv low s) (hlow : -1900000000 ≤ low - 65536) (hn : n ≤ 65536)
    (hpresented : Presented limit n s s') (hsilent : s'.tState.sendsAck = false → s'.edge = none)
    (hcc : s'.cc ≤ s.hiwat) (hlaid : Laid s'.rcvNxt (s.hiwat - s'.cc) (-65536) s'.queue) :
    Inv (low - 65536) s' := by
  have hge := hinv.dist_ge
  have hle := hinv.dist_le
  have hccle := hpresented.cc_le
  have hpromised := hinv.promised
  have hmax := hinv.dist_le
  unfold tcpMaxwin at hmax
  have hdist : s'.dist = s.dist - n := by
    rw [Rcv.dist, hpresented.rcvAdv_eq, hpresented.rcvNxt_eq, diff_nat_right]
    · rfl
    · unfold Rcv.dist at hge hmax
      unfold InRange
      omega
  refine ⟨⟨hlow, by omega, by omega, fun e he ↦ ?_, hsilent⟩, ?_, ?_, ?_, ?_⟩
  · rw [hpresented.edge_eq] at he
    have hedge := hinv.edge e he
    rw [hpresented.rcvAdv_eq]
    omega
  · rw [hpresented.hiwat_eq]
    exact hinv.hiwat_le
  · rw [hpresented.hiwat_eq]
    exact hcc
  · rw [hpresented.hiwat_eq]
    omega
  · rw [hpresented.hiwat_eq]
    exact hlaid

/-- Reading takes bytes out of the buffer. -/
theorem receive (hinv : Inv low s) (n : ℕ) : Inv low { s with cc := s.cc - n } := by
  have hcc := hinv.cc_le
  have hpromised := hinv.promised
  refine ⟨⟨hinv.low_ge, hinv.dist_ge, hinv.dist_le, hinv.edge, hinv.silent⟩, hinv.hiwat_le,
    ?_, ?_, hinv.laid.weaken (Int.le_refl _) ?_⟩
  · exact Nat.le_trans (Nat.sub_le _ _) hcc
  · change s.dist + (s.cc - n : ℕ) ≤ s.hiwat
    omega
  · dsimp only
    omega

/-- The state does not matter, as long as segments with `TH_ACK` go out. -/
theorem withState (hinv : Inv low s) {t : TcpState} (hack : t.sendsAck = true) :
    Inv low { s with tState := t } :=
  ⟨⟨hinv.low_ge, hinv.dist_ge, hinv.dist_le, hinv.edge,
      fun h ↦ absurd (hack.symm.trans h) (by decide)⟩,
    hinv.hiwat_le, hinv.cc_le, hinv.promised, hinv.laid⟩

theorem small (hinv : Inv low s) : Small (s.hiwat - s.cc) (-65536) := by
  have hhiwat := hinv.hiwat_le
  rw [sbLimit_eq] at hhiwat
  exact ⟨by decide, by omega⟩

/-- A step begins with a new bound. -/
theorem near (hinv : Inv low s) {bound : ℤ} (hbound : -1900000000 ≤ bound)
    (hdist : bound ≤ s.dist) : Inv bound s :=
  ⟨⟨hbound, hdist, hinv.dist_le, hinv.edge, hinv.silent⟩, hinv.hiwat_le, hinv.cc_le,
    hinv.promised, hinv.laid⟩

end Inv

end Bsd386.Tcp.Window

/-!
# Trimming to the window

`rcv_wnd` is the larger one of the room in the buffer and the distance to `rcv_adv`, unless
`rcv_nxt` has passed `rcv_adv`: then `max` takes the distance for a large number, of which 16 bits
are left.
-/

namespace Bsd386.Tcp.Window

open Sequence

variable {s : Rcv} {h : Header} {ti ti' : Ti} {nxt : BitVec 32} {wnd : BitVec 16}
  {low room : ℤ}

/-- The signed maximum that the window should be. -/
def Rcv.fullWindow (s : Rcv) (room : ℤ) : ℤ := max (max (s.sbspace room) 0) s.dist

/-- `rcv_nxt` has not passed `rcv_adv`, or the 16 bits of the distance happen to be the room. -/
def Rcv.Unpassed (s : Rcv) (room : ℤ) : Prop :=
  0 ≤ s.dist ∨ s.dist % 65536 = max (s.sbspace room) 0

theorem sbspace_le (hhiwat : s.hiwat ≤ sbLimit) : s.sbspace room ≤ 61680 := by
  have hspace : s.sbspace room ≤ s.hiwat - s.cc := Int.min_le_left _ _
  rw [sbLimit_eq] at hhiwat
  omega

/-- The window as it is computed. -/
theorem rcvWnd_eq (hhiwat : s.hiwat ≤ sbLimit) :
    ((s.rcvWnd room).toNat : ℤ) =
      if 0 ≤ s.dist then max (max (s.sbspace room) 0) s.dist % 65536 else s.dist % 65536 := by
  have hspace : s.sbspace room ≤ 61680 := sbspace_le hhiwat
  obtain ⟨k, hk⟩ : ∃ k : ℕ, max (s.sbspace room) 0 = k :=
    ⟨(max (s.sbspace room) 0).toNat, by omega⟩
  have hklt : k < 65536 := by omega
  have hspaceNat : (BitVec.ofInt 32 (k : ℤ)).toNat = k := by
    rw [BitVec.ofInt_natCast, BitVec.toNat_ofNat, Nat.mod_eq_of_lt (by omega)]
  have hlt := (s.rcvAdv - s.rcvNxt).isLt
  have hdist : s.dist = if 2 * (s.rcvAdv - s.rcvNxt).toNat < 4294967296 then
      ((s.rcvAdv - s.rcvNxt).toNat : ℤ) else (s.rcvAdv - s.rcvNxt).toNat - 4294967296 :=
    BitVec.toInt_eq_toNat_cond _
  rw [Rcv.rcvWnd, hk, umax, BitVec.toNat_setWidth]
  by_cases hgt : s.rcvAdv - s.rcvNxt < BitVec.ofInt 32 (k : ℤ)
  · have hgtNat : (s.rcvAdv - s.rcvNxt).toNat < k := by
      rw [← hspaceNat]
      exact hgt
    rw [if_pos hgt, hspaceNat, hdist]
    split_ifs <;> omega
  · have hgtNat : ¬(s.rcvAdv - s.rcvNxt).toNat < k := by
      rw [← hspaceNat]
      exact hgt
    rw [if_neg hgt, hdist]
    split_ifs <;> omega

/-- Exactly then the window is the signed maximum. -/
theorem rcvWnd_iff (hhiwat : s.hiwat ≤ sbLimit) (hdist : s.dist ≤ tcpMaxwin) :
    ((s.rcvWnd room).toNat : ℤ) = s.fullWindow room ↔ s.Unpassed room := by
  have hspace : s.sbspace room ≤ 61680 := sbspace_le hhiwat
  unfold tcpMaxwin at hdist
  rw [rcvWnd_eq hhiwat, Rcv.fullWindow, Rcv.Unpassed]
  split_ifs <;> omega

/-! ## Trimming -/

/-- A segment of which nothing is left, or which begins at `rcv_nxt` or behind it. -/
structure Ahead (nxt : BitVec 32) (ti : Ti) : Prop where
  held_le : ti.held ≤ ti.len
  ahead : ti.len = 0 ∧ ti.fin = false ∨ 0 ≤ ti.off nxt ∧ ti.off nxt + ti.len < 2147483648

/-- A segment of which nothing is left, or which ends at an offset. -/
structure Within (nxt : BitVec 32) (first limit : ℤ) (ti : Ti) : Prop where
  held_le : ti.held ≤ ti.len
  within : ti.len = 0 ∧ ti.fin = false ∨ first ≤ ti.off nxt ∧ ti.off nxt + ti.len ≤ limit

/-- A segment that does not reach half of the sequence numbers behind `rcv_nxt`. -/
def Header.Reaches (h : Header) (nxt : BitVec 32) : Prop :=
  diff h.seq nxt ≠ -2147483648 ∧ diff h.seq nxt + h.len.toNat < 2147483648

theorem trimBefore_spec (hreach : h.Reaches nxt) (htrim : trimBefore nxt h = some ti) :
    Ahead nxt ti := by
  have hrange := inRange_diff (a := h.seq) (b := nxt)
  have hlen := h.len.isLt
  have hback : diff nxt h.seq = -diff h.seq nxt := by
    rw [diff_sub_diff (c := nxt), diff_self]
    · exact Int.zero_sub _
    · rw [diff_self]
      unfold Header.Reaches at hreach
      unfold InRange at hrange ⊢
      omega
  unfold Header.Reaches at hreach
  unfold InRange at hrange
  unfold trimBefore at htrim
  rw [hback] at htrim
  by_cases hahead : -diff h.seq nxt ≤ 0
  · rw [if_pos hahead] at htrim
    obtain rfl := Option.some.inj htrim
    exact ⟨Nat.le_refl _, Or.inr ⟨by unfold Ti.off Header.ti; dsimp only; omega, hreach.2⟩⟩
  · rw [if_neg hahead] at htrim
    -- the offset of the segment behind a `SYN` that is taken off
    obtain ⟨ti₀, hti₀⟩ : ∃ ti₀ : Ti, ti₀ = if h.syn then { h.ti with seq := h.seq + 1 } else h.ti :=
      ⟨_, rfl⟩
    have hsame : ti₀.held = ti₀.len ∧ ti₀.len = h.len.toNat := by
      rw [hti₀]
      split_ifs <;> exact ⟨rfl, rfl⟩
    have hoff : ti₀.off nxt =
        -(if h.syn then -diff h.seq nxt - 1 else -diff h.seq nxt) := by
      rw [hti₀]
      split_ifs
      · have hone : (1 : BitVec 32) = BitVec.ofInt 32 1 := rfl
        unfold Ti.off
        rw [hone, diff_add_left]
        · omega
        · unfold InRange
          omega
      · change diff h.seq nxt = _
        omega
    rw [← hti₀] at htrim
    obtain ⟨todrop, htodrop⟩ : ∃ todrop, todrop =
      if h.syn then -diff h.seq nxt - 1 else -diff h.seq nxt := ⟨_, rfl⟩
    have hnonneg : 0 ≤ todrop ∧ todrop < 2147483648 := by
      rw [htodrop]
      split_ifs <;> omega
    dsimp only at htrim
    rw [← htodrop] at htrim hoff
    split_ifs at htrim with hall hspecial
    · obtain rfl := Option.some.inj htrim
      refine ⟨?_, Or.inl ⟨?_, rfl⟩⟩
      · unfold Ti.adj
        dsimp only
        omega
      · unfold Ti.adj
        dsimp only
        omega
    · obtain rfl := Option.some.inj htrim
      have hadj : (ti₀.adj todrop.toNat).off nxt = 0 := by
        rw [off_adj]
        · omega
        · unfold InRange
          omega
      refine ⟨?_, Or.inr ⟨by omega, ?_⟩⟩
      · unfold Ti.adj
        dsimp only
        omega
      · rw [hadj]
        unfold Ti.adj
        dsimp only
        omega

/-- How far a segment that has text reaches behind the window. -/
theorem beyond_eq (hwnd : (wnd.toNat : ℤ) ≤ 65535) (hoff : 0 ≤ ti.off nxt)
    (hend : ti.off nxt + ti.len < 2147483648) :
    ti.beyond nxt wnd = ti.off nxt + ti.len - wnd.toNat := by
  have hright : nxt + wnd.setWidth 32 = nxt + BitVec.ofNat 32 wnd.toNat := by
    congr 1
    apply BitVec.eq_of_toNat_eq
    simp
  have hleft : diff (ti.seq + BitVec.ofNat 32 ti.len) nxt = ti.off nxt + ti.len := by
    rw [diff_add_nat]
    · rfl
    · unfold Ti.off at hoff hend
      unfold InRange
      omega
  rw [Ti.beyond, hright, diff_nat_right, hleft]
  rw [hleft]
  unfold InRange
  omega

theorem trimAfter_spec {tState : TcpState} {syn : Bool} (hahead : Ahead nxt ti)
    (htrim : trimAfter tState nxt wnd syn ti = .keep ti') : Within nxt 0 wnd.toNat ti' := by
  have hheld := hahead.held_le
  have hwnd : (wnd.toNat : ℤ) ≤ 65535 := by
    have hlt := wnd.isLt
    omega
  have hcut : ∀ n, (ti.cut n).held ≤ (ti.cut n).len := by
    intro n
    unfold Ti.cut
    dsimp only
    omega
  unfold trimAfter at htrim
  rcases hahead.ahead with ⟨hlen, hfin⟩ | ⟨hoff, hend⟩
  · split_ifs at htrim
    · cases htrim
      exact ⟨hheld, Or.inl ⟨hlen, hfin⟩⟩
    · cases htrim
      exact ⟨hcut _, Or.inl ⟨by unfold Ti.cut; dsimp only; omega, rfl⟩⟩
    · cases htrim
      exact ⟨hcut _, Or.inl ⟨by unfold Ti.cut; dsimp only; omega, rfl⟩⟩
  · have hbeyond := beyond_eq hwnd hoff hend
    split_ifs at htrim with hin hall hreopen hprobe
    · cases htrim
      exact ⟨hheld, Or.inr ⟨hoff, by omega⟩⟩
    · cases htrim
      refine ⟨hcut _, Or.inl ⟨?_, rfl⟩⟩
      unfold Ti.cut
      dsimp only
      omega
    · cases htrim
      refine ⟨hcut _, Or.inr ⟨hoff, ?_⟩⟩
      change ti.off nxt + (ti.len - (ti.beyond nxt wnd).toNat : ℕ) ≤ wnd.toNat
      omega

/-- A segment at `rcv_nxt` that is not longer than the window is not trimmed. -/
theorem beyond_le_zero (hseq : ti.seq = nxt) (hlen : (ti.len : ℤ) ≤ wnd.toNat) :
    ti.beyond nxt wnd ≤ 0 := by
  have hwnd := wnd.isLt
  have hoff : ti.off nxt = 0 := diff_eq_zero_iff.mpr hseq
  rw [beyond_eq (by omega) (by omega) (by omega)]
  omega

end Bsd386.Tcp.Window
