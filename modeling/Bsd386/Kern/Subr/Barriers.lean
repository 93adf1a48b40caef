import Bsd386.Kern.Subr.Disksort
import Mathlib.Data.List.Forall2

/-!
# Ordered transfers

A request with `B_ORDER` is to be a barrier on the activity queue: it goes behind all others, and
all that come later go behind it. It marks the requests it goes behind, so that later ones skip
them, but the last of these stays unmarked, and a later request is sorted behind that one, which may
be in front of the barrier.
-/

namespace Bsd386.Kern.Subr

/-- A queue, and the requests on it that came with `B_ORDER`. -/
structure Drive where
  dp : Dp
  barriers : List ℕ

/-- The barriers after a call. -/
def Drive.after (d : Drive) : QueueCall → List ℕ
  | .disksort bp => if bp.order then bp.addr :: d.barriers else d.barriers
  | .done => d.barriers.filter fun a ↦ d.dp.actf.head?.map Buf.addr ≠ some a

/-- A call on a queue. -/
def driveStep (d : Drive) (call : QueueCall) : Option Buf × Drive :=
  ((queueStep d.dp call).1, ⟨(queueStep d.dp call).2, d.after call⟩)

/-- The request goes behind some of the queue, where those in front of which it goes are not
barriers. As a barrier it goes behind all. -/
def Respected (d : Drive) : QueueCall → Prop
  | .disksort bp => ∃ front back, d.dp.addrs = front ++ back ∧
      (disksort d.dp bp).addrs = front ++ bp.addr :: back ∧ (bp.order = true → back = []) ∧
      ∀ a ∈ back, a ∉ d.barriers
  | .done => True

/-- Behind the marked requests at the head stands one without mark, and behind that a marked one, in
front of which the new request is sorted. -/
def Overtakes (bp : Buf) : List Buf → Prop
  | [] => False
  | [_] => False
  | ap :: next :: rest =>
    if ap.order then Overtakes bp (next :: rest)
    else next.order = true ∧
      if bp.cylin < ap.cylin then next.cylin < ap.cylin ∧ Precedes bp next
      else next.cylin < ap.cylin ∨ Precedes bp next

/-- A request without `B_ORDER` does not come where it overtakes. -/
def Orderly (d : Drive) (call : QueueCall) : Prop :=
  ∀ bp, call.request = some bp → bp.order = false → ¬Overtakes bp d.dp.actf

variable {bp ap : Buf} {next l l' : List Buf} {d : Drive} {barriers barriers' : List ℕ}

/-! ## What stands behind the marks -/

/-- Behind the marked requests at the head all are unmarked, but the second one may be a barrier. -/
def Shape (barriers : List ℕ) : List Buf → Prop
  | [] => True
  | ap :: next =>
    if ap.order then Shape barriers next
    else ∀ b rest, next = b :: rest →
      (b.order = true → b.addr ∈ barriers) ∧ ∀ x ∈ rest, x.order = false

theorem shape_cons : Shape barriers (ap :: next) ↔
    if ap.order then Shape barriers next
    else ∀ b rest, next = b :: rest →
      (b.order = true → b.addr ∈ barriers) ∧ ∀ x ∈ rest, x.order = false :=
  Iff.rfl

theorem shape_of_unmarked (h : ∀ x ∈ l, x.order = false) : Shape barriers l := by
  cases l with
  | nil => trivial
  | cons ap next =>
    obtain ⟨hap, hnext⟩ := List.forall_mem_cons.mp h
    rw [shape_cons, if_neg (Bool.eq_false_iff.mp hap)]
    rintro b rest rfl
    obtain ⟨hb, hrest⟩ := List.forall_mem_cons.mp hnext
    exact ⟨fun hmark ↦ absurd hmark (Bool.eq_false_iff.mp hb), hrest⟩

theorem Shape.mono (h : Shape barriers l)
    (hsub : ∀ x ∈ l, x.addr ∈ barriers → x.addr ∈ barriers') : Shape barriers' l := by
  induction l with
  | nil => trivial
  | cons ap next ih =>
    obtain ⟨-, hnext⟩ := List.forall_mem_cons.mp hsub
    rw [shape_cons] at h ⊢
    split_ifs at h ⊢
    · exact ih h hnext
    · rintro b rest rfl
      obtain ⟨hb, hrest⟩ := h b rest rfl
      exact ⟨fun hmark ↦ hnext b List.mem_cons_self (hb hmark), hrest⟩

theorem Shape.tail (h : Shape barriers (ap :: next)) : Shape barriers next := by
  rw [shape_cons] at h
  split_ifs at h
  · exact h
  · cases next with
    | nil => trivial
    | cons b rest =>
      obtain ⟨hb, hrest⟩ := h b rest rfl
      rw [shape_cons]
      split_ifs with hmark
      · exact shape_of_unmarked hrest
      · rintro c rest' rfl
        obtain ⟨hc, hrest'⟩ := List.forall_mem_cons.mp hrest
        exact ⟨fun hmark' ↦ absurd hmark' (Bool.eq_false_iff.mp hc), hrest'⟩

/-! ## Requests with the flag -/

/-- Some requests are marked. -/
def Marks : List Buf → List Buf → Prop :=
  List.Forall₂ fun x x' ↦ x'.addr = x.addr ∧ (x.order = true → x'.order = true)

theorem marks_refl (l : List Buf) : Marks l l := List.forall₂_same.mpr fun _ _ ↦ ⟨rfl, id⟩

theorem Marks.addrs (h : Marks l l') : l'.map Buf.addr = l.map Buf.addr := by
  induction h with
  | nil => rfl
  | cons hx _ ih => exact congrArg₂ List.cons hx.1 ih

theorem Marks.exists_of_mem (h : Marks l l') {x : Buf} (hx : x ∈ l') :
    ∃ y ∈ l, x.addr = y.addr ∧ (y.order = true → x.order = true) := by
  induction h with
  | nil => exact absurd hx List.not_mem_nil
  | cons hy _ ih =>
    rcases List.mem_cons.mp hx with rfl | hx
    · exact ⟨_, List.mem_cons_self, hy⟩
    · obtain ⟨y, hmem, hxy⟩ := ih hx
      exact ⟨y, List.mem_cons_of_mem _ hmem, hxy⟩

/-- The request stands at the end, behind all marks. -/
structure Closes (bp : Buf) (l l' : List Buf) : Prop where
  marks : ∃ m, Marks l m ∧ l' = m ++ [bp]
  shape : ∀ barriers, bp.addr ∈ barriers → Shape barriers l'

theorem closes_single (hbp : bp.order = true) : Closes bp [ap] [ap, bp] := by
  refine ⟨⟨[ap], marks_refl _, rfl⟩, fun barriers hmem ↦ ?_⟩
  rw [shape_cons]
  split_ifs
  · rw [shape_cons, if_pos hbp]
    trivial
  · rintro b rest heq
    cases heq
    exact ⟨fun _ ↦ hmem, fun x hx ↦ absurd hx List.not_mem_nil⟩

theorem Closes.cons {ap' : Buf} (h : Closes bp l l') (haddr : ap'.addr = ap.addr)
    (hmark : ap'.order = true) : Closes bp (ap :: l) (ap' :: l') := by
  obtain ⟨⟨m, hm, rfl⟩, hshape⟩ := h
  refine ⟨⟨ap' :: m, .cons ⟨haddr, fun _ ↦ hmark⟩ hm, rfl⟩, fun barriers hmem ↦ ?_⟩
  rw [shape_cons, if_pos hmark]
  exact hshape barriers hmem

theorem closes_orderAll (hbp : bp.order = true) : Closes bp (ap :: next)
    (orderAll bp ap next).1 := by
  induction next generalizing ap with
  | nil => exact closes_single hbp
  | cons next rest ih => exact ih.cons rfl rfl

theorem closes_sortFrom (hbp : bp.order = true) : Closes bp (ap :: next)
    (sortFrom bp ap next).1 := by
  rw [sortFrom, if_pos hbp]
  exact closes_orderAll hbp

theorem closes_skipOrdered (hbp : bp.order = true) :
    Closes bp (ap :: next) (skipOrdered bp ap next).1 := by
  induction next generalizing ap with
  | nil =>
    rw [skipOrdered]
    split_ifs
    · exact closes_single hbp
    · exact closes_sortFrom hbp
  | cons next rest ih =>
    rw [skipOrdered]
    split_ifs with hap
    · exact ih.cons rfl hap
    · exact closes_sortFrom hbp

/-! ## Requests without the flag -/

/-- The request stands among the others, in front of a barrier only if it overtakes. -/
structure Enters (barriers : List ℕ) (bp : Buf) (l l' : List Buf) : Prop where
  split : ∃ front back, l = front ++ back ∧ l' = front ++ bp :: back ∧
    (Overtakes bp l → ∃ b ∈ back, b.addr ∈ barriers) ∧
    (¬Overtakes bp l → ∀ b ∈ back, b.order = false)
  shape : ¬Overtakes bp l → Shape barriers l'

/-- Behind a request without mark all is sorted. -/
theorem enters_second {b : Buf} {rest : List Buf} {r : List Buf × ℕ} (hbp : bp.order = false)
    (hap : ap.order = false) (h : Shape barriers (ap :: b :: rest))
    (hover : ¬Overtakes bp (ap :: b :: rest)) (hput : Put bp (b :: rest) r) :
    Enters barriers bp (ap :: b :: rest) (advance ap r).1 := by
  obtain ⟨front, a, back, hl, rfl⟩ := hput
  rw [shape_cons, if_neg (Bool.eq_false_iff.mp hap)] at h
  obtain ⟨hb, hrest⟩ := h b rest rfl
  have hback : ∀ x ∈ back, x.order = false := by
    cases front with
    | nil =>
      cases hl
      exact hrest
    | cons _ front =>
      cases hl
      exact fun x hx ↦ hrest x (List.mem_append_right _ (List.mem_cons_of_mem _ hx))
  refine ⟨⟨ap :: front ++ [a], back, by simp [hl], by simp [advance], fun h' ↦ absurd h' hover,
    fun _ ↦ hback⟩, fun _ ↦ ?_⟩
  change Shape barriers (ap :: (front ++ a :: bp :: back))
  rw [shape_cons, if_neg (Bool.eq_false_iff.mp hap)]
  intro b' rest' heq
  cases front with
  | nil =>
    cases hl
    cases heq
    exact ⟨hb, List.forall_mem_cons.mpr ⟨hbp, hback⟩⟩
  | cons _ front =>
    cases hl
    cases heq
    refine ⟨hb, fun x hx ↦ ?_⟩
    have hfront := fun y hy ↦ hrest y (List.mem_append_left _ hy)
    rcases List.mem_append.mp hx with hx | hx
    · exact hrest x (List.mem_append_left _ hx)
    · rcases List.mem_cons.mp hx with rfl | hx
      · exact hrest x (List.mem_append_right _ List.mem_cons_self)
      · rcases List.mem_cons.mp hx with rfl | hx
        · exact hbp
        · exact hback x hx

theorem enters_end (hshape : Shape barriers [ap, bp]) :
    Enters barriers bp [ap] [ap, bp] :=
  ⟨⟨[ap], [], rfl, rfl, False.elim, fun _ _ hx ↦ absurd hx List.not_mem_nil⟩, fun _ ↦ hshape⟩

/-- Where a request without mark stands first, the next one decides. -/
theorem enters_sortFrom (hbp : bp.order = false) (hap : ap.order = false)
    (h : Shape barriers (ap :: next)) :
    Enters barriers bp (ap :: next) (sortFrom bp ap next).1 := by
  have hplain : ap.order ≠ true := Bool.eq_false_iff.mp hap
  cases next with
  | nil =>
    have hend : (sortFrom bp ap []).1 = [ap, bp] := by
      rw [sortFrom, if_neg (Bool.eq_false_iff.mp hbp)]
      split_ifs <;> rfl
    rw [hend]
    refine enters_end (shape_of_unmarked ?_)
    simp [hap, hbp]
  | cons b rest =>
    by_cases hsorted : if bp.cylin < ap.cylin then b.cylin < ap.cylin ∧ Precedes bp b
        else b.cylin < ap.cylin ∨ Precedes bp b
    · have hfirst : (sortFrom bp ap (b :: rest)).1 = ap :: bp :: b :: rest := by
        rw [sortFrom, if_neg (Bool.eq_false_iff.mp hbp)]
        split_ifs at hsorted ⊢
        · rw [pastInversion, if_pos hsorted.1, secondList, if_pos hsorted.2]
          rfl
        · rw [firstList, if_pos hsorted]
          rfl
      have hover : Overtakes bp (ap :: b :: rest) ↔ b.order = true := by
        rw [Overtakes, if_neg hplain]
        exact and_iff_left hsorted
      rw [shape_cons, if_neg hplain] at h
      obtain ⟨hb, hrest⟩ := h b rest rfl
      rw [hfirst]
      refine ⟨⟨[ap], b :: rest, rfl, rfl, fun hmark ↦ ⟨b, List.mem_cons_self, hb (hover.mp hmark)⟩,
        fun hmark ↦ ?_⟩, fun hmark ↦ ?_⟩
      · exact List.forall_mem_cons.mpr ⟨Bool.eq_false_iff.mpr (mt hover.mpr hmark), hrest⟩
      · refine shape_of_unmarked (List.forall_mem_cons.mpr ⟨hap, List.forall_mem_cons.mpr
          ⟨hbp, List.forall_mem_cons.mpr ⟨?_, hrest⟩⟩⟩)
        exact Bool.eq_false_iff.mpr (mt hover.mpr hmark)
    · have hover : ¬Overtakes bp (ap :: b :: rest) := by
        rw [Overtakes, if_neg hplain]
        exact fun hmark ↦ hsorted hmark.2
      have hlater : ∃ r, Put bp (b :: rest) r ∧ sortFrom bp ap (b :: rest) = advance ap r := by
        rw [sortFrom, if_neg (Bool.eq_false_iff.mp hbp)]
        split_ifs at hsorted ⊢
        · rw [pastInversion]
          split_ifs with hinversion
          · rw [secondList, if_neg fun hprec ↦ hsorted ⟨hinversion, hprec⟩]
            exact ⟨_, put_secondList, rfl⟩
          · exact ⟨_, put_pastInversion, rfl⟩
        · rw [firstList, if_neg hsorted]
          exact ⟨_, put_firstList, rfl⟩
      obtain ⟨r, hput, hr⟩ := hlater
      rw [hr]
      exact enters_second hbp hap h hover hput

theorem Enters.cons (hap : ap.order = true) (hl : l ≠ []) (h : Enters barriers bp l l') :
    Enters barriers bp (ap :: l) (ap :: l') := by
  have hover : Overtakes bp (ap :: l) ↔ Overtakes bp l := by
    cases l with
    | nil => exact absurd rfl hl
    | cons next rest => rw [Overtakes, if_pos hap]
  obtain ⟨⟨front, back, rfl, rfl, hover₁, hover₂⟩, hshape⟩ := h
  refine ⟨⟨ap :: front, back, rfl, rfl, fun hmark ↦ hover₁ (hover.mp hmark),
    fun hmark ↦ hover₂ (mt hover.mpr hmark)⟩, fun hmark ↦ ?_⟩
  rw [shape_cons, if_pos hap]
  exact hshape (mt hover.mpr hmark)

theorem enters_skipOrdered (hbp : bp.order = false) (h : Shape barriers (ap :: next)) :
    Enters barriers bp (ap :: next) (skipOrdered bp ap next).1 := by
  induction next generalizing ap with
  | nil =>
    rw [skipOrdered]
    split_ifs with hap
    · refine enters_end ?_
      rw [shape_cons, if_pos hap]
      exact shape_of_unmarked (List.forall_mem_singleton.mpr hbp)
    · exact enters_sortFrom hbp (Bool.eq_false_iff.mpr hap) h
  | cons next rest ih =>
    rw [skipOrdered]
    split_ifs with hap
    · exact (ih h.tail).cons hap (List.cons_ne_nil _ _)
    · exact enters_sortFrom hbp (Bool.eq_false_iff.mpr hap) h

/-! ## Runs -/

/-- What holds of a queue where no barrier has been overtaken. -/
structure Drive.Sound (d : Drive) : Prop where
  nodup : d.dp.addrs.Nodup
  queued : ∀ a ∈ d.barriers, a ∈ d.dp.addrs
  marked : ∀ x ∈ d.dp.actf, x.addr ∈ d.barriers → x.order = true
  shape : Shape d.barriers d.dp.actf

/-- On a queue that is not empty, the list after `disksort`. -/
theorem actf_disksort {dp : Dp} (hactf : dp.actf = ap :: next) :
    (disksort dp bp).actf = (if ap.order then skipOrdered bp ap next
      else sortFrom bp ap next).1 := by
  unfold disksort
  rw [hactf]

theorem actf_disksort_nil {dp : Dp} (hactf : dp.actf = []) : (disksort dp bp).actf = [bp] := by
  unfold disksort
  rw [hactf]

theorem closes_disksort (dp : Dp) (hbp : bp.order = true) :
    Closes bp dp.actf (disksort dp bp).actf := by
  cases hactf : dp.actf with
  | nil =>
    rw [actf_disksort_nil hactf]
    refine ⟨⟨[], marks_refl _, rfl⟩, fun _ _ ↦ ?_⟩
    rw [shape_cons, if_pos hbp]
    trivial
  | cons ap next =>
    rw [actf_disksort hactf]
    split_ifs
    · exact closes_skipOrdered hbp
    · exact closes_sortFrom hbp

theorem enters_disksort {dp : Dp} (hbp : bp.order = false) (h : Shape barriers dp.actf) :
    Enters barriers bp dp.actf (disksort dp bp).actf := by
  cases hactf : dp.actf with
  | nil =>
    rw [actf_disksort_nil hactf]
    refine ⟨⟨[], [], rfl, rfl, False.elim, fun _ _ hx ↦ absurd hx List.not_mem_nil⟩, fun _ ↦ ?_⟩
    exact shape_of_unmarked (List.forall_mem_singleton.mpr hbp)
  | cons ap next =>
    rw [hactf] at h
    rw [actf_disksort hactf]
    split_ifs with hap
    · exact enters_skipOrdered hbp h
    · exact enters_sortFrom hbp (Bool.eq_false_iff.mpr hap) h

theorem Drive.Sound.respected_iff (h : d.Sound) {call : QueueCall} (hfresh : call.Fresh d.dp) :
    Respected d call ↔ Orderly d call := by
  cases call with
  | done => exact iff_of_true trivial fun _ hbp ↦ (by cases hbp)
  | disksort bp =>
    by_cases hbp : bp.order = true
    · obtain ⟨⟨m, hm, hl⟩, -⟩ := closes_disksort d.dp hbp
      refine iff_of_true ⟨d.dp.addrs, [], (List.append_nil _).symm, ?_, fun _ ↦ rfl,
        fun a ha ↦ absurd ha List.not_mem_nil⟩ fun bp' hbp' hplain ↦ ?_
      · rw [Dp.addrs, hl, List.map_append, hm.addrs]
        rfl
      · cases hbp'
        exact absurd hbp (Bool.eq_false_iff.mp hplain)
    · have hplain := Bool.eq_false_iff.mpr hbp
      obtain ⟨⟨front, back, hl, hl', hover, horder⟩, -⟩ := enters_disksort hplain h.shape
      constructor
      · rintro ⟨front', back', haddrs, haddrs', -, hback'⟩ bp' hbp' - hmark
        cases hbp'
        obtain ⟨b, hb, hbarrier⟩ := hover hmark
        have hfresh' : bp.addr ∉ front.map Buf.addr := fun hmem ↦
          hfresh (by rw [Dp.addrs, hl, List.map_append]; exact List.mem_append_left _ hmem)
        have hfresh'' : bp.addr ∉ back.map Buf.addr := fun hmem ↦
          hfresh (by rw [Dp.addrs, hl, List.map_append]; exact List.mem_append_right _ hmem)
        rw [Dp.addrs, hl', List.map_append, List.map_cons] at haddrs'
        obtain ⟨-, hbacks⟩ := (List.append_cons_inj_of_notMem hfresh' hfresh'').mp haddrs'
        exact hback' b.addr (hbacks.2 ▸ List.mem_map_of_mem hb) hbarrier
      · intro horderly
        have hback := horder (horderly bp rfl hplain)
        refine ⟨front.map Buf.addr, back.map Buf.addr, ?_, ?_, fun h' ↦ absurd h' hbp, ?_⟩
        · rw [Dp.addrs, hl, List.map_append]
        · rw [Dp.addrs, hl', List.map_append, List.map_cons]
        · intro a ha hbarrier
          obtain ⟨x, hx, rfl⟩ := List.mem_map.mp ha
          have hmark := h.marked x (hl ▸ List.mem_append_right _ hx) hbarrier
          exact Bool.eq_false_iff.mp (hback x hx) hmark

theorem Drive.Sound.done (h : d.Sound) : (driveStep d .done).2.Sound := by
  have hmem : ∀ x ∈ d.dp.actf.tail, x.addr ∈ d.barriers → x.addr ∈ d.after .done := by
    intro x hx hbarrier
    refine List.mem_filter.mpr ⟨hbarrier, decide_eq_true ?_⟩
    have hnodup := h.nodup
    rw [Dp.addrs] at hnodup
    cases hactf : d.dp.actf with
    | nil =>
      rw [hactf] at hx
      exact absurd hx List.not_mem_nil
    | cons ap next =>
      rw [hactf] at hx hnodup
      intro heq
      refine (List.nodup_cons.mp hnodup).1 ?_
      rw [Option.some.inj heq]
      exact List.mem_map_of_mem hx
  refine ⟨h.nodup.sublist ((List.tail_sublist _).map _), fun a ha ↦ ?_, fun x hx hbarrier ↦ ?_, ?_⟩
  · obtain ⟨hbarrier, hne⟩ := List.mem_filter.mp ha
    have hqueued := h.queued a hbarrier
    have hne' := of_decide_eq_true hne
    change a ∈ d.dp.actf.tail.map Buf.addr
    rw [Dp.addrs] at hqueued
    cases hactf : d.dp.actf with
    | nil =>
      rw [hactf] at hqueued
      exact absurd hqueued List.not_mem_nil
    | cons ap next =>
      rw [hactf] at hqueued hne'
      exact (List.mem_cons.mp hqueued).resolve_left fun heq ↦ hne' (congrArg some heq.symm)
  · exact h.marked x (List.mem_of_mem_tail hx) (List.mem_of_mem_filter hbarrier)
  · have hshape := h.shape
    change Shape _ d.dp.actf.tail
    cases hactf : d.dp.actf with
    | nil => trivial
    | cons ap next =>
      rw [hactf] at hshape hmem
      exact hshape.tail.mono hmem

theorem Drive.Sound.ordered (h : d.Sound) (hbp : bp.order = true) (hfresh : bp.addr ∉ d.dp.addrs) :
    (driveStep d (.disksort bp)).2.Sound := by
  obtain ⟨⟨m, hm, hl⟩, hshape⟩ := closes_disksort d.dp hbp
  have hafter : d.after (.disksort bp) = bp.addr :: d.barriers := if_pos hbp
  have haddrs : (disksort d.dp bp).addrs = d.dp.addrs ++ [bp.addr] := by
    rw [Dp.addrs, hl, List.map_append, hm.addrs]
    rfl
  refine ⟨?_, ?_, ?_, ?_⟩
  · change (disksort d.dp bp).addrs.Nodup
    rw [haddrs]
    exact (List.perm_append_singleton _ _).nodup_iff.mpr (List.nodup_cons.mpr ⟨hfresh, h.nodup⟩)
  · intro a ha
    change a ∈ (disksort d.dp bp).addrs
    change a ∈ d.after (.disksort bp) at ha
    rw [hafter] at ha
    rw [haddrs]
    rcases List.mem_cons.mp ha with rfl | ha
    · exact List.mem_append_right _ (List.mem_singleton.mpr rfl)
    · exact List.mem_append_left _ (h.queued a ha)
  · intro x hx hbarrier
    change x ∈ (disksort d.dp bp).actf at hx
    change x.addr ∈ d.after (.disksort bp) at hbarrier
    rw [hafter] at hbarrier
    rw [hl] at hx
    rcases List.mem_append.mp hx with hx | hx
    · obtain ⟨y, hy, haddr, hmark⟩ := hm.exists_of_mem hx
      refine hmark (h.marked y hy ?_)
      rcases List.mem_cons.mp hbarrier with heq | hbarrier
      · rw [haddr] at heq
        exact absurd (heq ▸ List.mem_map_of_mem hy) hfresh
      · exact haddr ▸ hbarrier
    · rw [List.mem_singleton.mp hx]
      exact hbp
  · change Shape (d.after (.disksort bp)) (disksort d.dp bp).actf
    rw [hafter]
    exact hshape _ List.mem_cons_self

theorem Drive.Sound.plain (h : d.Sound) (hbp : bp.order = false) (hfresh : bp.addr ∉ d.dp.addrs)
    (hover : ¬Overtakes bp d.dp.actf) : (driveStep d (.disksort bp)).2.Sound := by
  obtain ⟨⟨front, back, hfront, hl, -, -⟩, hshape⟩ := enters_disksort hbp h.shape
  have hafter : d.after (.disksort bp) = d.barriers := if_neg (Bool.eq_false_iff.mp hbp)
  have hperm : (disksort d.dp bp).actf.Perm (bp :: d.dp.actf) := by
    rw [hl, hfront]
    exact List.perm_middle
  refine ⟨?_, ?_, ?_, ?_⟩
  · exact (hperm.map Buf.addr).nodup_iff.mpr (List.nodup_cons.mpr ⟨hfresh, h.nodup⟩)
  · intro a ha
    change a ∈ d.after (.disksort bp) at ha
    exact (hperm.map Buf.addr).mem_iff.mpr (List.mem_cons_of_mem _ (h.queued a (hafter ▸ ha)))
  · intro x hx hbarrier
    change x.addr ∈ d.after (.disksort bp) at hbarrier
    rcases List.mem_cons.mp (hperm.subset hx) with rfl | hx
    · exact absurd (h.queued _ (hafter ▸ hbarrier)) hfresh
    · exact h.marked x hx (hafter ▸ hbarrier)
  · change Shape (d.after (.disksort bp)) (disksort d.dp bp).actf
    rw [hafter]
    exact hshape hover

theorem Drive.Sound.step (h : d.Sound) {call : QueueCall} (hfresh : call.Fresh d.dp)
    (horderly : Orderly d call) : (driveStep d call).2.Sound := by
  cases call with
  | done => exact h.done
  | disksort bp =>
    by_cases hbp : bp.order = true
    · exact h.ordered hbp hfresh
    · have hplain := Bool.eq_false_iff.mpr hbp
      exact h.plain hplain hfresh (horderly bp rfl hplain)

theorem sound_idle : (⟨idle, []⟩ : Drive).Sound :=
  ⟨List.nodup_nil, fun _ h ↦ h, fun _ h ↦ absurd h List.not_mem_nil, trivial⟩

/-- In a run on an idle drive no barrier overtakes and none is overtaken, just if no request without
`B_ORDER` comes where the last request before a barrier is unmarked and the new one is sorted
between them. -/
theorem disksort_respects {calls : List QueueCall}
    (hfresh : Machine.Each driveStep (fun d ↦ QueueCall.Fresh d.dp) calls ⟨idle, []⟩) :
    Machine.Each driveStep Respected calls ⟨idle, []⟩ ↔
      Machine.Each driveStep Orderly calls ⟨idle, []⟩ :=
  Machine.each_iff Drive.Sound (fun _ _ h hfresh ↦ h.respected_iff hfresh)
    (fun _ _ h hfresh horderly ↦ h.step hfresh horderly) calls sound_idle hfresh

/-- A barrier at the head, and a request for a lower cylinder. -/
theorem disksort_respects_head :
    Machine.Each driveStep Respected [.disksort ⟨0, true, 9, 0⟩, .disksort ⟨1, false, 7, 0⟩]
      ⟨idle, []⟩ := by
  have hfresh : Machine.Each driveStep (fun d ↦ QueueCall.Fresh d.dp)
      [.disksort ⟨0, true, 9, 0⟩, .disksort ⟨1, false, 7, 0⟩] ⟨idle, []⟩ :=
    ⟨show _ ∉ _ by decide, show _ ∉ _ by decide, trivial⟩
  refine (disksort_respects hfresh).mpr ⟨fun bp hbp hplain ↦ ?_, fun bp hbp hplain hover ↦ ?_,
    trivial⟩
  · cases hbp
    cases hplain
  · cases hbp
    exact hover

/-- A barrier comes behind a request for cylinder 5, and then a request for cylinder 7 goes between
them. -/
theorem disksort_overtakes :
    ¬∀ calls, Machine.Each driveStep (fun d ↦ QueueCall.Fresh d.dp) calls ⟨idle, []⟩ →
      Machine.Each driveStep Respected calls ⟨idle, []⟩ := by
  intro hall
  obtain ⟨-, -, ⟨front, back, -, hl, -, hback⟩, -⟩ := hall [.disksort ⟨0, false, 5, 0⟩,
    .disksort ⟨1, true, 9, 0⟩, .disksort ⟨2, false, 7, 0⟩]
    ⟨show _ ∉ _ by decide, show _ ∉ _ by decide, show _ ∉ _ by decide, trivial⟩
  have hqueue : [0] ++ 2 :: [1] = front ++ 2 :: back := hl
  obtain ⟨-, -, rfl⟩ := (List.append_cons_inj_of_notMem (by decide) (by decide)).mp hqueue
  exact hback 1 List.mem_cons_self (show 1 ∈ [1] from List.mem_cons_self)

end Bsd386.Kern.Subr
