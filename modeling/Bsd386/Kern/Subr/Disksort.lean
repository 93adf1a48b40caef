import Bsd386.Lib.Machine
import Mathlib.Data.Int.Order.Basic
import Mathlib.Data.List.Basic

/-!
# The activity queue of a disk

`disksort` of `kern/subr/disksort.c` puts a request on the queue of its drive, and the driver takes
the request at the head away when the transfer is done. Behind the head the queue is one ascending
scan over the drive and the beginning of the next.
-/

namespace Bsd386.Kern.Subr

/-- A request: which buffer it is, whether `B_ORDER` is set in its `b_flags`, and where on the drive
the transfer goes. -/
structure Buf where
  addr : ℕ
  order : Bool
  cylin : ℤ
  blkno : ℤ
  deriving DecidableEq

/-- The head of a queue, whose requests are linked in the order of the list, and whose last request
`b_actl` points at. -/
structure Dp where
  actf : List Buf
  actl : Option ℕ
  deriving DecidableEq

/-- What `insert:` leaves of a queue from `ap` on, and where `ap` is. -/
def insertAfter (bp ap : Buf) (next : List Buf) : List Buf × ℕ := (ap :: bp :: next, ap.addr)

/-- A loop goes past a request. -/
def advance (ap : Buf) (r : List Buf × ℕ) : List Buf × ℕ := (ap :: r.1, r.2)

/-- The request goes before the other one. -/
def Precedes (bp next : Buf) : Prop :=
  bp.cylin < next.cylin ∨ bp.cylin = next.cylin ∧ bp.blkno < next.blkno

instance (bp next : Buf) : Decidable (Precedes bp next) := inferInstanceAs (Decidable (_ ∨ _))

/-- Search the second request list. -/
def secondList (bp ap : Buf) : List Buf → List Buf × ℕ
  | [] => insertAfter bp ap []
  | next :: rest =>
    if Precedes bp next then insertAfter bp ap (next :: rest)
    else advance ap (secondList bp next rest)

/-- Look for the inversion where the second request list begins. -/
def pastInversion (bp ap : Buf) : List Buf → List Buf × ℕ
  | [] => insertAfter bp ap []
  | next :: rest =>
    if next.cylin < ap.cylin then secondList bp ap (next :: rest)
    else advance ap (pastInversion bp next rest)

/-- Sort in the first request list. -/
def firstList (bp ap : Buf) : List Buf → List Buf × ℕ
  | [] => insertAfter bp ap []
  | next :: rest =>
    if next.cylin < ap.cylin ∨ Precedes bp next then insertAfter bp ap (next :: rest)
    else advance ap (firstList bp next rest)

/-- Make a sequence of the queue, and go behind it. The last request is not marked. -/
def orderAll (bp ap : Buf) : List Buf → List Buf × ℕ
  | [] => insertAfter bp ap []
  | next :: rest => advance { ap with order := true } (orderAll bp next rest)

/-- What is done behind the ordered requests at the head. -/
def sortFrom (bp ap : Buf) (next : List Buf) : List Buf × ℕ :=
  if bp.order then orderAll bp ap next
  else if bp.cylin < ap.cylin then pastInversion bp ap next
  else firstList bp ap next

/-- Skip the ordered requests at the head. -/
def skipOrdered (bp ap : Buf) : List Buf → List Buf × ℕ
  | [] => if ap.order then insertAfter bp ap [] else sortFrom bp ap []
  | next :: rest =>
    if ap.order then advance ap (skipOrdered bp next rest) else sortFrom bp ap (next :: rest)

/-- `disksort`. -/
def disksort (dp : Dp) (bp : Buf) : Dp :=
  match dp.actf with
  | [] => ⟨[bp], some bp.addr⟩
  | ap :: next =>
    let r := if ap.order then skipOrdered bp ap next else sortFrom bp ap next
    ⟨r.1, if dp.actl = some r.2 then some bp.addr else dp.actl⟩

/-- What happens to a queue: a request comes, or the driver is done with the first one. -/
inductive QueueCall
  | disksort (bp : Buf)
  | done

/-- The driver takes the request at the head away with `dp->b_actf = bp->av_forw`. -/
def queueStep (dp : Dp) : QueueCall → Option Buf × Dp
  | .disksort bp => (none, disksort dp bp)
  | .done => (dp.actf.head?, { dp with actf := dp.actf.tail })

/-- A drive with nothing to do. -/
def idle : Dp := ⟨[], none⟩

variable {bp ap : Buf} {next l : List Buf} {dp : Dp} {r : List Buf × ℕ}

/-! ## Where a request is put -/

/-- The request stands behind one of the queue, and nothing else has changed. -/
def Put (bp : Buf) (l : List Buf) (r : List Buf × ℕ) : Prop :=
  ∃ front ap back, l = front ++ ap :: back ∧ r = (front ++ ap :: bp :: back, ap.addr)

theorem put_insertAfter : Put bp (ap :: next) (insertAfter bp ap next) :=
  ⟨[], ap, next, rfl, rfl⟩

theorem Put.advance (h : Put bp l r) : Put bp (ap :: l) (advance ap r) := by
  obtain ⟨front, at', back, rfl, rfl⟩ := h
  exact ⟨ap :: front, at', back, rfl, rfl⟩

theorem put_secondList : Put bp (ap :: next) (secondList bp ap next) := by
  induction next generalizing ap with
  | nil => exact put_insertAfter
  | cons next rest ih =>
    rw [secondList]
    split_ifs
    · exact put_insertAfter
    · exact ih.advance

theorem put_pastInversion : Put bp (ap :: next) (pastInversion bp ap next) := by
  induction next generalizing ap with
  | nil => exact put_insertAfter
  | cons next rest ih =>
    rw [pastInversion]
    split_ifs
    · exact put_secondList
    · exact ih.advance

theorem put_firstList : Put bp (ap :: next) (firstList bp ap next) := by
  induction next generalizing ap with
  | nil => exact put_insertAfter
  | cons next rest ih =>
    rw [firstList]
    split_ifs
    · exact put_insertAfter
    · exact ih.advance

theorem put_sortFrom (hbp : bp.order = false) : Put bp (ap :: next) (sortFrom bp ap next) := by
  rw [sortFrom, if_neg (Bool.eq_false_iff.mp hbp)]
  split_ifs
  · exact put_pastInversion
  · exact put_firstList

/-- `b_actl` points at the last request. -/
def Dp.Tailed (dp : Dp) : Prop := ∀ l bp, dp.actf = l ++ [bp] → dp.actl = some bp.addr

/-- The buffers on the queue. -/
def Dp.addrs (dp : Dp) : List ℕ := dp.actf.map Buf.addr

theorem Put.tailed (hput : Put bp dp.actf r) (hnodup : dp.addrs.Nodup) (h : dp.Tailed) :
    Dp.Tailed ⟨r.1, if dp.actl = some r.2 then some bp.addr else dp.actl⟩ := by
  obtain ⟨front, ap, back, hl, rfl⟩ := hput
  intro l' last hlast
  change (if dp.actl = some ap.addr then some bp.addr else dp.actl) = some last.addr
  change front ++ ap :: bp :: back = l' ++ [last] at hlast
  rcases List.eq_nil_or_concat back with rfl | ⟨back, tail, rfl⟩
  · rw [if_pos (h front ap hl)]
    rw [show front ++ [ap, bp] = front ++ [ap] ++ [bp] by simp] at hlast
    rw [(List.append_inj' hlast rfl).2 |> List.cons.inj |>.1]
  · have hactl : dp.actl = some tail.addr := h (front ++ ap :: back) tail (by simp [hl])
    have hne : dp.actl ≠ some ap.addr := by
      rw [hactl, Ne, Option.some.injEq]
      rw [Dp.addrs, hl] at hnodup
      simp only [List.map_append, List.map_cons, List.concat_eq_append, List.map_nil] at hnodup
      intro heq
      rw [heq] at hnodup
      simp [List.nodup_append, List.nodup_cons] at hnodup
    rw [if_neg hne, hactl]
    rw [show front ++ ap :: bp :: back.concat tail = front ++ ap :: bp :: back ++ [tail] by simp]
      at hlast
    rw [(List.append_inj' hlast rfl).2 |> List.cons.inj |>.1]

/-! ## One scan and the next -/

/-- The request may stand before the other one in a scan. -/
def Ascends (a b : Buf) : Prop := a.cylin < b.cylin ∨ a.cylin = b.cylin ∧ a.blkno ≤ b.blkno

theorem Ascends.trans {a b c : Buf} (hab : Ascends a b) (hbc : Ascends b c) : Ascends a c := by
  unfold Ascends at *
  omega

theorem Precedes.ascends {a b : Buf} (h : Precedes a b) : Ascends a b := by
  unfold Precedes at h
  unfold Ascends
  omega

theorem ascends_of_not_precedes {a b : Buf} (h : ¬Precedes a b) : Ascends b a := by
  unfold Precedes at h
  unfold Ascends
  omega

/-- A scan with the request in its place. -/
structure Merged (bp : Buf) (scan scan' : List Buf) : Prop where
  perm : scan'.Perm (bp :: scan)
  sorted : scan'.Pairwise Ascends

theorem Merged.nil : Merged bp [] [bp] := ⟨.refl _, List.pairwise_singleton _ _⟩

theorem Merged.here {a : Buf} (hbp : Precedes bp a) (h : (a :: l).Pairwise Ascends) :
    Merged bp (a :: l) (bp :: a :: l) := by
  refine ⟨.refl _, List.pairwise_cons.mpr ⟨fun b hb ↦ ?_, h⟩⟩
  rcases List.mem_cons.mp hb with rfl | hb
  · exact hbp.ascends
  · exact hbp.ascends.trans (List.rel_of_pairwise_cons h hb)

theorem Merged.cons {a : Buf} {l' : List Buf} (hbp : ¬Precedes bp a) (h : (a :: l).Pairwise Ascends)
    (hl : Merged bp l l') : Merged bp (a :: l) (a :: l') := by
  refine ⟨(hl.perm.cons a).trans (.swap bp a l), List.pairwise_cons.mpr ⟨fun b hb ↦ ?_, hl.sorted⟩⟩
  rcases List.mem_cons.mp (hl.perm.subset hb) with rfl | hb
  · exact ascends_of_not_precedes hbp
  · exact List.rel_of_pairwise_cons h hb

theorem secondList_merged (h : l.Pairwise Ascends) :
    ∃ l', (secondList bp ap l).1 = ap :: l' ∧ Merged bp l l' := by
  induction l generalizing ap with
  | nil => exact ⟨_, rfl, .nil⟩
  | cons a l ih =>
    rw [secondList]
    split_ifs with hbp
    · exact ⟨_, rfl, .here hbp h⟩
    · obtain ⟨l', hl', hmerged⟩ := ih h.of_cons
      exact ⟨a :: l', congrArg (ap :: ·) hl', hmerged.cons hbp h⟩

/-- The requests from `ap` on: the rest of a scan, and behind an inversion the next one. -/
structure Scans (ap : Buf) (first second : List Buf) : Prop where
  first_sorted : first.Pairwise Ascends
  ahead : ∀ a ∈ first, ap.cylin ≤ a.cylin
  second_sorted : second.Pairwise Ascends
  passed : ∀ b ∈ second, b.cylin < ap.cylin

variable {first second : List Buf}

theorem Scans.tail {a : Buf} (h : Scans ap (a :: first) second) : Scans a first second := by
  refine ⟨h.first_sorted.of_cons, fun b hb ↦ ?_, h.second_sorted, fun b hb ↦ ?_⟩
  · have hab := List.rel_of_pairwise_cons h.first_sorted hb
    unfold Ascends at hab
    omega
  · exact lt_of_lt_of_le (h.passed b hb) (h.ahead a List.mem_cons_self)

variable (bp) in
theorem pastInversion_merged (h : Scans ap first second) :
    ∃ second', (pastInversion bp ap (first ++ second)).1 = ap :: (first ++ second') ∧
      Merged bp second second' := by
  induction first generalizing ap with
  | nil =>
    cases second with
    | nil => exact ⟨_, rfl, .nil⟩
    | cons b second =>
      rw [List.nil_append, pastInversion, if_pos (h.passed b List.mem_cons_self)]
      exact secondList_merged h.second_sorted
  | cons a first ih =>
    obtain ⟨second', hsecond, hmerged⟩ := ih h.tail
    refine ⟨second', ?_, hmerged⟩
    rw [List.cons_append, pastInversion, if_neg (h.ahead a List.mem_cons_self).not_gt]
    exact congrArg (ap :: ·) hsecond

variable (bp) in
theorem firstList_merged (h : Scans ap first second) :
    ∃ first', (firstList bp ap (first ++ second)).1 = ap :: (first' ++ second) ∧
      Merged bp first first' := by
  induction first generalizing ap with
  | nil =>
    refine ⟨[bp], ?_, .nil⟩
    cases second with
    | nil => rfl
    | cons b second =>
      rw [List.nil_append, firstList, if_pos (.inl (h.passed b List.mem_cons_self))]
      rfl
  | cons a first ih =>
    have hle := (h.ahead a List.mem_cons_self).not_gt
    rw [List.cons_append, firstList]
    by_cases hbp : Precedes bp a
    · rw [if_pos (.inr hbp)]
      exact ⟨bp :: a :: first, rfl, .here hbp h.first_sorted⟩
    · rw [if_neg (not_or.mpr ⟨hle, hbp⟩)]
      obtain ⟨first', hfirst, hmerged⟩ := ih h.tail
      exact ⟨a :: first', congrArg (ap :: ·) hfirst, hmerged.cons hbp h.first_sorted⟩

/-- The queue is one way: behind its head stands the rest of the scan, and then the next scan up to
the head. -/
def OneWay : List Buf → Prop
  | [] => True
  | ap :: next => ∃ first second, next = first ++ second ∧ Scans ap first second

theorem OneWay.tail (h : OneWay l) : OneWay l.tail := by
  cases l with
  | nil => exact h
  | cons ap next =>
    obtain ⟨first, second, rfl, hscans⟩ := h
    cases first with
    | cons a first => exact ⟨first, second, rfl, hscans.tail⟩
    | nil =>
      cases second with
      | nil => trivial
      | cons b second =>
        refine ⟨second, [], (List.append_nil _).symm, hscans.second_sorted.of_cons, fun c hc ↦ ?_,
          .nil, fun c hc ↦ absurd hc List.not_mem_nil⟩
        have hbc := List.rel_of_pairwise_cons hscans.second_sorted hc
        unfold Ascends at hbc
        omega

theorem Scans.sortFrom (hbp : bp.order = false) (h : Scans ap first second) :
    OneWay (sortFrom bp ap (first ++ second)).1 := by
  rw [Subr.sortFrom, if_neg (Bool.eq_false_iff.mp hbp)]
  split_ifs with hpassed
  · obtain ⟨second', heq, hmerged⟩ := pastInversion_merged bp h
    rw [heq]
    refine ⟨first, second', rfl, h.first_sorted, h.ahead, hmerged.sorted, fun b hb ↦ ?_⟩
    rcases List.mem_cons.mp (hmerged.perm.subset hb) with rfl | hb
    · exact hpassed
    · exact h.passed b hb
  · obtain ⟨first', heq, hmerged⟩ := firstList_merged bp h
    rw [heq]
    refine ⟨first', second, rfl, hmerged.sorted, fun a ha ↦ ?_, h.second_sorted, h.passed⟩
    rcases List.mem_cons.mp (hmerged.perm.subset ha) with rfl | ha
    · exact not_lt.mp hpassed
    · exact h.ahead a ha

/-! ## Runs without ordered requests -/

/-- The buffer of a request that comes is not on the queue. -/
def QueueCall.Fresh (dp : Dp) : QueueCall → Prop
  | .disksort bp => bp.addr ∉ dp.addrs
  | .done => True

/-- The request that comes with a call. -/
def QueueCall.request : QueueCall → Option Buf
  | .disksort bp => some bp
  | .done => none

/-- No request comes with `B_ORDER`. -/
def QueueCall.Plain (call : QueueCall) : Prop := ∀ bp, call.request = some bp → bp.order = false

/-- What holds of a queue that no ordered request has come to. -/
structure Dp.Elevator (dp : Dp) : Prop where
  nodup : dp.addrs.Nodup
  tailed : dp.Tailed
  plain : ∀ bp ∈ dp.actf, bp.order = false
  oneWay : OneWay dp.actf

theorem Dp.Tailed.tail (h : dp.Tailed) : Dp.Tailed { dp with actf := dp.actf.tail } := by
  intro l bp hl
  change dp.actf.tail = l ++ [bp] at hl
  cases hactf : dp.actf with
  | nil =>
    rw [hactf] at hl
    exact absurd hl (List.append_ne_nil_of_right_ne_nil _ (List.cons_ne_nil _ _)).symm
  | cons first rest =>
    rw [hactf] at hl
    exact h (first :: l) bp (hactf.trans (congrArg (first :: ·) hl))

theorem tailed_idle : idle.Tailed := fun _ _ h ↦
  absurd h (List.append_ne_nil_of_right_ne_nil _ (List.cons_ne_nil _ _)).symm

/-- On a queue without marks the request is put among the others. -/
theorem disksort_cons (hactf : dp.actf = ap :: next) (hap : ap.order = false) :
    disksort dp bp = ⟨(sortFrom bp ap next).1,
      if dp.actl = some (sortFrom bp ap next).2 then some bp.addr else dp.actl⟩ := by
  unfold disksort
  rw [hactf]
  dsimp only
  rw [if_neg (Bool.eq_false_iff.mp hap)]

theorem Put.perm (h : Put bp l r) : r.1.Perm (bp :: l) := by
  obtain ⟨front, ap, back, rfl, rfl⟩ := h
  have hswap : (front ++ [ap] ++ bp :: back).Perm (bp :: (front ++ [ap] ++ back)) :=
    List.perm_middle
  simpa using hswap

theorem Dp.Elevator.disksort (h : dp.Elevator) (hbp : bp.order = false)
    (hfresh : bp.addr ∉ dp.addrs) :
    (disksort dp bp).Elevator ∧ (Subr.disksort dp bp).actf.Perm (bp :: dp.actf) := by
  cases hactf : dp.actf with
  | nil =>
    have heq : Subr.disksort dp bp = ⟨[bp], some bp.addr⟩ := by
      unfold Subr.disksort
      rw [hactf]
    rw [heq]
    refine ⟨⟨List.pairwise_singleton _ _, fun l last hl ↦ ?_, fun b hb ↦ ?_, ?_⟩, .refl _⟩
    · have hlast : [bp] = l ++ [last] := hl
      rw [(List.append_inj' (show [] ++ [bp] = l ++ [last] from hlast) rfl).2 |> List.cons.inj |>.1]
    · rw [List.mem_singleton.mp hb]
      exact hbp
    · exact ⟨[], [], rfl, .nil, fun b hb ↦ absurd hb List.not_mem_nil, .nil,
        fun b hb ↦ absurd hb List.not_mem_nil⟩
  | cons ap next =>
    have hput : Put bp (ap :: next) (sortFrom bp ap next) := put_sortFrom hbp
    have hone := h.oneWay
    rw [hactf] at hone
    obtain ⟨first, second, hnext, hscans⟩ := hone
    rw [disksort_cons hactf (h.plain ap (hactf ▸ List.mem_cons_self))]
    refine ⟨⟨?_, Put.tailed (hactf ▸ hput) h.nodup h.tailed, fun b hb ↦ ?_, ?_⟩, hput.perm⟩
    · refine (hput.perm.map Buf.addr).nodup_iff.mpr (List.nodup_cons.mpr ⟨?_, ?_⟩)
      · exact hactf ▸ hfresh
      · exact hactf ▸ h.nodup
    · rcases List.mem_cons.mp (hput.perm.subset hb) with rfl | hb
      · exact hbp
      · exact h.plain b (hactf ▸ hb)
    · rw [hnext]
      exact hscans.sortFrom hbp

theorem Dp.Elevator.done (h : dp.Elevator) : Dp.Elevator { dp with actf := dp.actf.tail } where
  nodup := h.nodup.sublist ((List.tail_sublist _).map _)
  tailed := h.tailed.tail
  plain bp hbp := h.plain bp (List.mem_of_mem_tail hbp)
  oneWay := h.oneWay.tail

theorem Dp.Elevator.step (h : dp.Elevator) {call : QueueCall} (hplain : call.Plain)
    (hfresh : call.Fresh dp) :
    (queueStep dp call).2.Elevator ∧
      (call.request.toList ++ dp.actf).Perm
        ((queueStep dp call).1.toList ++ (queueStep dp call).2.actf) := by
  cases call with
  | disksort bp =>
    obtain ⟨helevator, hperm⟩ := h.disksort (hplain bp rfl) hfresh
    exact ⟨helevator, hperm.symm⟩
  | done =>
    refine ⟨h.done, ?_⟩
    change dp.actf.Perm (dp.actf.head?.toList ++ dp.actf.tail)
    cases dp.actf <;> exact .refl _

theorem Dp.Elevator.run {calls : List QueueCall} (h : dp.Elevator)
    (hplain : ∀ call ∈ calls, call.Plain)
    (hfresh : Machine.Each queueStep QueueCall.Fresh calls dp) :
    (Machine.run queueStep calls dp).2.Elevator ∧
      (calls.flatMap (·.request.toList) ++ dp.actf).Perm
        ((Machine.run queueStep calls dp).1.flatMap (·.toList) ++
          (Machine.run queueStep calls dp).2.actf) := by
  induction calls generalizing dp with
  | nil => exact ⟨h, .refl _⟩
  | cons call calls ih =>
    obtain ⟨hcall, hcalls⟩ := List.forall_mem_cons.mp hplain
    obtain ⟨hstep, hperm⟩ := h.step hcall hfresh.1
    obtain ⟨hrun, hperms⟩ := ih hstep hcalls hfresh.2
    refine ⟨hrun, ?_⟩
    rw [Machine.run, List.flatMap_cons, List.flatMap_cons, List.append_assoc, List.append_assoc]
    refine (List.perm_append_comm_assoc _ _ _).trans ((hperm.append_left _).trans ?_)
    exact (List.perm_append_comm_assoc _ _ _).trans (hperms.append_left _)

/-- However requests without `B_ORDER` come to an idle drive and are done, the queue holds those
that have come and are not done, `b_actl` is the last of them, and behind the head the queue is the
rest of the scan, at or above the head's cylinder, and then the next scan, below it. -/
theorem disksort_one_way {calls : List QueueCall} (hplain : ∀ call ∈ calls, call.Plain)
    (hfresh : Machine.Each queueStep QueueCall.Fresh calls idle) :
    ∃ removed dp, Machine.run queueStep calls idle = (removed, dp) ∧
      (calls.flatMap (·.request.toList)).Perm (removed.flatMap (·.toList) ++ dp.actf) ∧
      (∀ l bp, dp.actf = l ++ [bp] → dp.actl = some bp.addr) ∧
      ∀ ap next, dp.actf = ap :: next → ∃ first second, next = first ++ second ∧
        first.Pairwise Ascends ∧ (∀ a ∈ first, ap.cylin ≤ a.cylin) ∧
        second.Pairwise Ascends ∧ ∀ b ∈ second, b.cylin < ap.cylin := by
  have hidle : idle.Elevator :=
    ⟨List.nodup_nil, tailed_idle, fun _ h ↦ absurd h List.not_mem_nil, trivial⟩
  obtain ⟨hrun, hperm⟩ := hidle.run hplain hfresh
  refine ⟨_, _, rfl, ?_, hrun.tailed, fun ap next hactf ↦ ?_⟩
  · exact (List.Perm.of_eq (List.append_nil _).symm).trans hperm
  · have hone := hrun.oneWay
    rw [hactf] at hone
    obtain ⟨first, second, hnext, hscans⟩ := hone
    exact ⟨first, second, hnext, hscans.first_sorted, hscans.ahead, hscans.second_sorted,
      hscans.passed⟩

/-- Three requests come, the first is done, and one comes behind the head. -/
theorem disksort_one_way_three :
    ∃ removed dp, Machine.run queueStep [.disksort ⟨0, false, 5, 0⟩, .disksort ⟨1, false, 7, 4⟩,
        .disksort ⟨2, false, 3, 1⟩, .done, .disksort ⟨0, false, 7, 2⟩] idle = (removed, dp) ∧
      (∀ l bp, dp.actf = l ++ [bp] → dp.actl = some bp.addr) := by
  have hfresh : Machine.Each queueStep QueueCall.Fresh [.disksort ⟨0, false, 5, 0⟩,
      .disksort ⟨1, false, 7, 4⟩, .disksort ⟨2, false, 3, 1⟩, .done, .disksort ⟨0, false, 7, 2⟩]
      idle := by
    refine ⟨show _ ∉ _ from ?_, show _ ∉ _ from ?_, show _ ∉ _ from ?_, trivial,
      show _ ∉ _ from ?_, trivial⟩ <;> decide
  obtain ⟨removed, dp, hrun, -, htail, -⟩ := disksort_one_way (by
    intro call hcall bp hbp
    simp only [List.mem_cons, List.not_mem_nil, or_false] at hcall
    rcases hcall with rfl | rfl | rfl | rfl | rfl <;> cases hbp <;> rfl) hfresh
  exact ⟨removed, dp, hrun, htail⟩

end Bsd386.Kern.Subr
