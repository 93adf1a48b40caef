import Bsd386.Tcp.Window.Basic

/-!
# The reassembly queue

The segments in the queue lie one behind the other, and none ends behind what the receive buffer has
room for. A new segment is fitted in between, and presenting data moves the room along.
-/

namespace Bsd386.Tcp.Window

open Sequence

variable {nxt : BitVec 32} {limit limit' pos pos' : ℤ} {ti ti' q : Ti} {queue queue' : List Ti}
  {n : ℕ}

/-- Where a segment begins, counted from `rcv_nxt`. -/
def Ti.off (nxt : BitVec 32) (ti : Ti) : ℤ := diff ti.seq nxt

/-- Segments that lie one behind the other from an offset on and end before a limit. -/
def Laid (nxt : BitVec 32) (limit : ℤ) : ℤ → List Ti → Prop
  | _, [] => True
  | pos, q :: queue =>
    q.held ≤ q.len ∧ pos ≤ q.off nxt ∧ q.off nxt + q.len ≤ limit ∧
      Laid nxt limit (q.off nxt + q.len) queue

/-- Offsets that are small against the sequence numbers. -/
structure Small (limit pos : ℤ) : Prop where
  pos_ge : -100000 ≤ pos
  limit_le : limit ≤ 100000

theorem Laid.weaken (hlaid : Laid nxt limit pos queue) (hpos : pos' ≤ pos)
    (hlimit : limit ≤ limit') : Laid nxt limit' pos' queue := by
  induction queue generalizing pos pos' with
  | nil => trivial
  | cons q queue ih =>
    exact ⟨hlaid.1, Int.le_trans hpos hlaid.2.1, Int.le_trans hlaid.2.2.1 hlimit,
      ih hlaid.2.2.2 (Int.le_refl _)⟩

theorem off_adj (hrange : InRange (ti.off nxt + n)) : (ti.adj n).off nxt = ti.off nxt + n :=
  diff_add_nat hrange

/-! ## A new segment -/

/-- The place of a new segment: its predecessor ends where the rest of the queue begins. -/
def After (nxt : BitVec 32) (pos : ℤ) (ti : Ti) : Option Ti → Prop
  | none => pos ≤ ti.off nxt
  | some q => q.off nxt + q.len = pos ∧ q.off nxt ≤ ti.off nxt ∧ -100000 ≤ q.off nxt

theorem clip_spec {prev : Option Ti} (hafter : After nxt pos ti prev) (hheld : ti.held ≤ ti.len)
    (hend : ti.off nxt + ti.len ≤ limit) (hlow : -100000 ≤ ti.off nxt) (hsmall : Small limit pos)
    (hposle : pos ≤ limit) (hclip : ti.clip prev = some ti') :
    ti'.held ≤ ti'.len ∧ pos ≤ ti'.off nxt ∧ ti'.off nxt + ti'.len = ti.off nxt + ti.len := by
  have hpos := hsmall.pos_ge
  have hlimit := hsmall.limit_le
  cases prev with
  | none =>
    obtain rfl : ti = ti' := Option.some.inj hclip
    exact ⟨hheld, hafter, rfl⟩
  | some q =>
    obtain ⟨hqend, hqle, hqlow⟩ := hafter
    have hqpos : diff (q.seq + BitVec.ofNat 32 q.len) nxt = pos := by
      rw [diff_add_nat (by unfold Ti.off at hqend; unfold InRange; omega)]
      exact hqend
    have hover : diff (q.seq + BitVec.ofNat 32 q.len) ti.seq = pos - ti.off nxt := by
      rw [diff_sub_diff (c := nxt), hqpos]
      · rfl
      · rw [hqpos]
        unfold Ti.off at hlow hend
        unfold InRange
        omega
    rw [Ti.clip, hover] at hclip
    by_cases hpart : 0 < pos - ti.off nxt
    · rw [if_pos hpart] at hclip
      by_cases hall : (ti.len : ℤ) ≤ pos - ti.off nxt
      · rw [if_pos hall] at hclip
        cases hclip
      · rw [if_neg hall] at hclip
        obtain rfl := Option.some.inj hclip
        have hoff : (ti.adj (pos - ti.off nxt).toNat).off nxt = pos := by
          rw [off_adj (by unfold InRange; omega)]
          omega
        rw [hoff]
        refine ⟨?_, Int.le_refl _, ?_⟩
        · unfold Ti.adj
          dsimp only
          omega
        · unfold Ti.adj
          dsimp only
          omega
    · rw [if_neg hpart] at hclip
      obtain rfl := Option.some.inj hclip
      exact ⟨hheld, by omega, rfl⟩

theorem cover_spec (hlaid : Laid nxt limit pos queue) (hsmall : Small limit pos) {e : ℤ}
    (he : ti.off nxt + ti.len = e) (hlow : -100000 ≤ ti.off nxt) (helimit : e ≤ limit) :
    Laid nxt limit e (ti.cover queue) := by
  have hlimit := hsmall.limit_le
  have hend : diff (ti.seq + BitVec.ofNat 32 ti.len) nxt = e := by
    rw [diff_add_nat (by unfold Ti.off at he hlow; unfold InRange; omega)]
    exact he
  induction queue generalizing pos with
  | nil => trivial
  | cons q queue ih =>
    obtain ⟨hheld, hpos, hqend, hrest⟩ := hlaid
    have hposlow := hsmall.pos_ge
    have hover : diff (ti.seq + BitVec.ofNat 32 ti.len) q.seq = e - q.off nxt := by
      rw [diff_sub_diff (c := nxt), hend]
      · rfl
      · rw [hend]
        unfold Ti.off at hpos hqend hlow he
        unfold InRange
        omega
    rw [Ti.cover, hover]
    by_cases hnone : e - q.off nxt ≤ 0
    · rw [if_pos hnone]
      exact ⟨hheld, by omega, hqend, hrest⟩
    · rw [if_neg hnone]
      by_cases hpart : e - q.off nxt < q.len
      · rw [if_pos hpart]
        have hoff : (q.adj (e - q.off nxt).toNat).off nxt = e := by
          rw [off_adj (by unfold InRange; omega)]
          omega
        have hlen : ((q.adj (e - q.off nxt).toNat).len : ℤ) = q.len - (e - q.off nxt) := by
          unfold Ti.adj
          dsimp only
          omega
        refine ⟨?_, by omega, by omega, ?_⟩
        · unfold Ti.adj
          dsimp only
          omega
        · rw [hoff, hlen]
          exact hrest.weaken (by omega) (Int.le_refl _)
      · rw [if_neg hpart]
        exact ih hrest ⟨by omega, hlimit⟩

/-- A segment that ends before the limit is fitted into the queue. -/
theorem place_spec {prev : Option Ti} (hlaid : Laid nxt limit pos queue)
    (hafter : After nxt pos ti prev) (hheld : ti.held ≤ ti.len)
    (hend : ti.off nxt + ti.len ≤ limit) (hlow : -100000 ≤ ti.off nxt) (hsmall : Small limit pos)
    (hposle : pos ≤ limit) (hplace : ti.place prev queue = some queue') :
    Laid nxt limit pos queue' := by
  have hlimit := hsmall.limit_le
  induction queue generalizing pos prev queue' with
  | nil =>
    rw [Ti.place] at hplace
    obtain ⟨ti', hclip, rfl⟩ := Option.map_eq_some_iff.mp hplace
    obtain ⟨hheld', hpos', hend'⟩ := clip_spec hafter hheld hend hlow hsmall hposle hclip
    exact ⟨hheld', hpos', by omega, trivial⟩
  | cons q queue ih =>
    have hposlow := hsmall.pos_ge
    have hq := hlaid
    obtain ⟨hqheld, hqpos, hqend, hrest⟩ := hq
    have hgt : seqGt q.seq ti.seq = true ↔ ti.off nxt < q.off nxt := by
      have hdiff : diff q.seq ti.seq = q.off nxt - ti.off nxt := by
        refine diff_sub_diff ?_
        unfold Ti.off at hqpos hqend hlow hend
        unfold InRange
        omega
      unfold seqGt
      rw [decide_eq_true_iff, show (q.seq - ti.seq).toInt = q.off nxt - ti.off nxt from hdiff]
      omega
    rw [Ti.place] at hplace
    by_cases hfront : seqGt q.seq ti.seq = true
    · rw [if_pos hfront] at hplace
      obtain ⟨ti', hclip, rfl⟩ := Option.map_eq_some_iff.mp hplace
      obtain ⟨hheld', hpos', hend'⟩ := clip_spec hafter hheld hend hlow hsmall hposle hclip
      refine ⟨hheld', hpos', by omega, ?_⟩
      exact cover_spec hlaid hsmall rfl (by omega) (by omega)
    · rw [if_neg hfront] at hplace
      obtain ⟨rest, hplace', rfl⟩ := Option.map_eq_some_iff.mp hplace
      refine ⟨hqheld, hqpos, hqend, ih hrest ?_ ⟨by omega, hlimit⟩ (by omega) hplace'⟩
      exact ⟨rfl, by rw [hgt] at hfront; omega, by omega⟩

/-! ## Presenting data -/

/-- The queue as it is seen when `rcv_nxt` has moved. -/
theorem Laid.shift (hlaid : Laid nxt limit pos queue) (hsmall : Small limit pos)
    (hn : n ≤ 200000) : Laid (nxt + BitVec.ofNat 32 n) (limit - n) (pos - n) queue := by
  have hlimit := hsmall.limit_le
  induction queue generalizing pos with
  | nil => trivial
  | cons q queue ih =>
    have hposlow := hsmall.pos_ge
    obtain ⟨hheld, hpos, hend, hrest⟩ := hlaid
    have hoff : q.off (nxt + BitVec.ofNat 32 n) = q.off nxt - n := by
      refine diff_nat_right ?_
      unfold Ti.off at hpos hend
      unfold InRange
      omega
    refine ⟨hheld, by omega, by omega, ?_⟩
    rw [hoff, show q.off nxt - (n : ℤ) + q.len = q.off nxt + q.len - n by omega]
    exact ih hrest ⟨by omega, hlimit⟩

/-- What presenting `n` bytes of the queue changes. -/
structure Presented (limit : ℤ) (n : ℕ) (s s' : Rcv) : Prop where
  rcvNxt_eq : s'.rcvNxt = s.rcvNxt + BitVec.ofNat 32 n
  rcvAdv_eq : s'.rcvAdv = s.rcvAdv
  hiwat_eq : s'.hiwat = s.hiwat
  edge_eq : s'.edge = s.edge
  cc_le : s'.cc ≤ s.cc + n
  n_le : n = 0 ∨ (n : ℤ) ≤ limit

theorem presentLoop_spec {s : Rcv} (flags : Bool) (hlaid : Laid s.rcvNxt limit 0 queue)
    (hlimit : limit ≤ 100000) :
    ∃ n : ℕ, Presented limit n s (s.presentLoop flags queue).2 ∧
      Laid (s.presentLoop flags queue).2.rcvNxt (limit - n) 1
        (s.presentLoop flags queue).2.queue := by
  induction queue generalizing s flags limit with
  | nil =>
    refine ⟨0, ⟨?_, rfl, rfl, rfl, Nat.le_refl _, Or.inl rfl⟩, trivial⟩
    exact (BitVec.add_zero _).symm
  | cons q queue ih =>
    rw [Rcv.presentLoop]
    obtain ⟨hheld, hpos, hend, hrest⟩ := hlaid
    by_cases hnext : q.seq = s.rcvNxt
    · rw [if_pos hnext]
      have hoff : q.off s.rcvNxt = 0 := diff_eq_zero_iff.mpr hnext
      rw [hoff, Int.zero_add] at hrest hend
      have hshift := hrest.shift ⟨by omega, hlimit⟩ (show q.len ≤ 200000 by omega)
      rw [Int.sub_self] at hshift
      obtain ⟨n, hpresented, hlaid'⟩ := ih (s :=
        { s with
          rcvNxt := s.rcvNxt + BitVec.ofNat 32 q.len
          cc := if s.cantrcvmore then s.cc else s.cc + q.held }) q.fin hshift (by omega)
      refine ⟨q.len + n, ⟨?_, hpresented.rcvAdv_eq, hpresented.hiwat_eq,
        hpresented.edge_eq, ?_, ?_⟩, ?_⟩
      · rw [hpresented.rcvNxt_eq, BitVec.ofNat_add, BitVec.add_assoc]
      · have hcc := hpresented.cc_le
        dsimp only at hcc
        split_ifs at hcc ⊢ <;> omega
      · have hn := hpresented.n_le
        omega
      · refine hlaid'.weaken (Int.le_refl _) ?_
        push_cast
        omega
    · rw [if_neg hnext]
      have hoff : q.off s.rcvNxt ≠ 0 := fun hzero ↦ hnext (diff_eq_zero_iff.mp hzero)
      refine ⟨0, ⟨?_, rfl, rfl, rfl, Nat.le_refl _, Or.inl rfl⟩, ?_⟩
      · exact (BitVec.add_zero _).symm
      · change Laid s.rcvNxt (limit - (0 : ℕ)) 1 (q :: queue)
        exact ⟨hheld, by omega, by omega, hrest.weaken (Int.le_refl _) (by omega)⟩

/-- `tcp_reass` without a segment: the queue is presented when its first segment is the next one,
and only then is there a `FIN`. -/
theorem present_spec {s : Rcv} (hlaid : Laid s.rcvNxt limit pos s.queue) (hsmall : Small limit pos)
    (hpos : pos ≤ 0) :
    ∃ n : ℕ, Presented limit n s s.present.2 ∧
      Laid s.present.2.rcvNxt (limit - n) pos s.present.2.queue ∧
      (s.present.1 = true → Laid s.present.2.rcvNxt (limit - n) 1 s.present.2.queue) := by
  have hstay : ∃ n : ℕ, Presented limit n s s ∧ Laid s.rcvNxt (limit - n) pos s.queue ∧
      (false = true → Laid s.rcvNxt (limit - n) 1 s.queue) := by
    refine ⟨0, ⟨(BitVec.add_zero _).symm, rfl, rfl, rfl, Nat.le_refl _, Or.inl rfl⟩, ?_, ?_⟩
    · exact hlaid.weaken (Int.le_refl _) (by omega)
    · exact fun h ↦ absurd h Bool.false_ne_true
  rw [Rcv.present]
  by_cases hsyn : s.tState.haveRcvdSyn = false
  · rw [if_pos hsyn]
    exact hstay
  · rw [if_neg hsyn]
    by_cases hwait : s.tState = .synReceived ∧ (s.queue.head?.map Ti.len).getD 0 ≠ 0
    · rw [if_pos hwait]
      exact hstay
    · rw [if_neg hwait]
      cases hqueue : s.queue with
      | nil =>
        have hsame : s.presentLoop false [] = (false, s) := by
          rw [Rcv.presentLoop, ← hqueue]
        rw [hsame]
        exact hstay
      | cons q queue =>
        by_cases hnext : q.seq = s.rcvNxt
        · have hoff : q.off s.rcvNxt = 0 := diff_eq_zero_iff.mpr hnext
          have hlaid0 : Laid s.rcvNxt limit 0 (q :: queue) := by
            rw [hqueue] at hlaid
            exact ⟨hlaid.1, by omega, hlaid.2.2⟩
          obtain ⟨n, hpresented, hlaid'⟩ := presentLoop_spec false hlaid0 hsmall.limit_le
          exact ⟨n, hpresented, hlaid'.weaken (by omega) (Int.le_refl _), fun _ ↦ hlaid'⟩
        · have hsame : s.presentLoop false (q :: queue) = (false, s) := by
            rw [Rcv.presentLoop, if_neg hnext, ← hqueue]
          rw [hsame]
          exact hstay

end Bsd386.Tcp.Window
