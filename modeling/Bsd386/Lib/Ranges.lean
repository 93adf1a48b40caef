import Mathlib.Data.List.Pairwise
import Mathlib.Data.Set.Card
import Mathlib.Data.Set.Lattice
import Mathlib.Order.CompletePartialOrder
import Mathlib.Order.Interval.Finset.Basic
import Mathlib.Order.Interval.Set.LinearOrder

/-!
# Sorted lists of half-open ranges

A list of records is read as a set of points through two projections, the inclusive lower and
the exclusive upper bound of a record. `Ordered` lists are increasing and do not overlap;
`Separated` lists moreover leave a gap between neighbours, so that every run of covered points
lies inside a single record. Nothing here depends on what the records carry besides their bounds.
-/

namespace Bsd386.Ranges

variable {β α γ : Type*} [LinearOrder α] {lo hi : β → α} {val : β → α → γ}

/-- Nonempty ranges in increasing order, none overlapping another. -/
structure Ordered (lo hi : β → α) (l : List β) : Prop where
  nonempty : ∀ s ∈ l, lo s < hi s
  pairwise : l.Pairwise fun s t ↦ hi s ≤ lo t

/-- Ordered ranges no two of which are adjacent. -/
structure Separated (lo hi : β → α) (l : List β) : Prop where
  nonempty : ∀ s ∈ l, lo s < hi s
  pairwise : l.Pairwise fun s t ↦ hi s < lo t

/-- The points lying in some range of the list. -/
def cover (lo hi : β → α) (l : List β) : Set α := {x | ∃ s ∈ l, lo s ≤ x ∧ x < hi s}

@[simp]
theorem cover_nil : cover lo hi ([] : List β) = ∅ := by
  simp [cover]

@[simp]
theorem cover_cons (s : β) (l : List β) :
    cover lo hi (s :: l) = Set.Ico (lo s) (hi s) ∪ cover lo hi l := by
  ext x
  simp [cover]

@[simp]
theorem cover_append (l m : List β) : cover lo hi (l ++ m) = cover lo hi l ∪ cover lo hi m := by
  ext x
  simp [cover, or_and_right, exists_or]

theorem mem_cover {l : List β} {x : α} :
    x ∈ cover lo hi l ↔ ∃ s ∈ l, lo s ≤ x ∧ x < hi s := Iff.rfl

theorem Ico_subset_cover {s : β} {l : List β} (hs : s ∈ l) :
    Set.Ico (lo s) (hi s) ⊆ cover lo hi l := fun _ hx ↦ ⟨s, hs, hx⟩

theorem Ordered.nil : Ordered lo hi ([] : List β) := ⟨by simp, List.Pairwise.nil⟩

theorem ordered_cons {s : β} {l : List β} :
    Ordered lo hi (s :: l) ↔ lo s < hi s ∧ (∀ t ∈ l, hi s ≤ lo t) ∧ Ordered lo hi l := by
  constructor
  · rintro ⟨hne, hpair⟩
    rw [List.forall_mem_cons] at hne
    rw [List.pairwise_cons] at hpair
    exact ⟨hne.1, hpair.1, hne.2, hpair.2⟩
  · rintro ⟨hs, hbefore, hl⟩
    exact ⟨List.forall_mem_cons.2 ⟨hs, hl.nonempty⟩, List.pairwise_cons.2 ⟨hbefore, hl.pairwise⟩⟩

theorem ordered_append {l m : List β} :
    Ordered lo hi (l ++ m) ↔
      Ordered lo hi l ∧ Ordered lo hi m ∧ ∀ s ∈ l, ∀ t ∈ m, hi s ≤ lo t := by
  constructor
  · rintro ⟨hne, hpair⟩
    rw [List.forall_mem_append] at hne
    rw [List.pairwise_append] at hpair
    exact ⟨⟨hne.1, hpair.1⟩, ⟨hne.2, hpair.2.1⟩, hpair.2.2⟩
  · rintro ⟨hl, hm, hbefore⟩
    exact ⟨List.forall_mem_append.2 ⟨hl.nonempty, hm.nonempty⟩,
      List.pairwise_append.2 ⟨hl.pairwise, hm.pairwise, hbefore⟩⟩

/-- The ranges in the middle of a list can be replaced by others that fit between the rest. -/
theorem Ordered.replace {l m s t : List β} (h : Ordered lo hi (l ++ (s ++ m)))
    (ht : Ordered lo hi t) (hbelow : ∀ r ∈ l, ∀ x ∈ t, hi r ≤ lo x)
    (habove : ∀ x ∈ t, ∀ r ∈ m, hi x ≤ lo r) : Ordered lo hi (l ++ (t ++ m)) := by
  obtain ⟨hl, hsm, hlsm⟩ := ordered_append.1 h
  obtain ⟨-, hm, -⟩ := ordered_append.1 hsm
  refine ordered_append.2 ⟨hl, ordered_append.2 ⟨ht, hm, habove⟩, fun r hr x hx ↦ ?_⟩
  rcases List.mem_append.1 hx with hx | hx
  · exact hbelow r hr x hx
  · exact hlsm r hr x (List.mem_append_right s hx)

theorem Separated.nil : Separated lo hi ([] : List β) := ⟨by simp, List.Pairwise.nil⟩

theorem separated_cons {s : β} {l : List β} :
    Separated lo hi (s :: l) ↔ lo s < hi s ∧ (∀ t ∈ l, hi s < lo t) ∧ Separated lo hi l := by
  constructor
  · rintro ⟨hne, hpair⟩
    rw [List.forall_mem_cons] at hne
    rw [List.pairwise_cons] at hpair
    exact ⟨hne.1, hpair.1, hne.2, hpair.2⟩
  · rintro ⟨hs, hbefore, hl⟩
    exact ⟨List.forall_mem_cons.2 ⟨hs, hl.nonempty⟩, List.pairwise_cons.2 ⟨hbefore, hl.pairwise⟩⟩

theorem Separated.ordered {l : List β} (h : Separated lo hi l) : Ordered lo hi l :=
  ⟨h.nonempty, h.pairwise.imp le_of_lt⟩

/-- A covered point fixes its range: two ranges of an ordered list sharing a point are equal. -/
theorem Ordered.eq_of_mem {l : List β} (h : Ordered lo hi l) {s t : β} (hs : s ∈ l) (ht : t ∈ l)
    {x : α} (hsx : lo s ≤ x ∧ x < hi s) (htx : lo t ≤ x ∧ x < hi t) : s = t := by
  induction l with
  | nil => simp at hs
  | cons r l ih =>
    obtain ⟨_, hbefore, hl⟩ := ordered_cons.1 h
    rcases List.mem_cons.1 hs with rfl | hs' <;> rcases List.mem_cons.1 ht with rfl | ht'
    · rfl
    · exact absurd (hsx.2.trans_le ((hbefore t ht').trans htx.1)) (lt_irrefl x)
    · exact absurd (htx.2.trans_le ((hbefore s hs').trans hsx.1)) (lt_irrefl x)
    · exact ih hl hs' ht'

/-- Two distinct ranges of a separated list leave a gap on one side or the other. -/
theorem Separated.lt_or_lt {l : List β} (h : Separated lo hi l) {s t : β} (hs : s ∈ l)
    (ht : t ∈ l) (hst : s ≠ t) : hi s < lo t ∨ hi t < lo s := by
  have : Std.Symm fun s t : β ↦ hi s < lo t ∨ hi t < lo s := ⟨fun _ _ ↦ Or.symm⟩
  have hpair : l.Pairwise fun s t ↦ hi s < lo t ∨ hi t < lo s := h.pairwise.imp Or.inl
  exact hpair.forall hs ht hst

/-- In a separated list a run of covered points never crosses from one range into the next. -/
theorem Separated.run_subset_one {l : List β} (h : Separated lo hi l) {a b : α} (hab : a < b)
    (hrun : Set.Ico a b ⊆ cover lo hi l) : ∃ s ∈ l, lo s ≤ a ∧ b ≤ hi s := by
  obtain ⟨s, hs, hlo, hhi⟩ := hrun ⟨le_rfl, hab⟩
  refine ⟨s, hs, hlo, ?_⟩
  by_contra hlt
  -- The end of `s` would be a covered point, hence inside a range adjacent to `s`.
  obtain ⟨t, ht, htlo, hthi⟩ := hrun ⟨hhi.le, not_le.1 hlt⟩
  have hst : s ≠ t := by
    rintro rfl
    exact lt_irrefl _ hthi
  rcases h.lt_or_lt hs ht hst with hbefore | hafter
  · exact lt_irrefl _ (hbefore.trans_le htlo)
  · exact lt_irrefl _ ((hafter.trans_le hlo).trans (hhi.trans hthi))

/-! ## Ranges without gaps -/

/-- Each range begins where the one before it ends, from `a` to `b`. -/
def Tiles (lo hi : β → α) : α → List β → α → Prop
  | a, [], b => a = b
  | a, s :: l, b => lo s = a ∧ Tiles lo hi (hi s) l b

theorem Tiles.le {l : List β} {a b : α} (h : Tiles lo hi a l b) (hne : ∀ s ∈ l, lo s ≤ hi s) :
    a ≤ b := by
  induction l generalizing a with
  | nil => exact le_of_eq h
  | cons s l ih =>
    obtain ⟨rfl, hrest⟩ := h
    exact (hne s List.mem_cons_self).trans (ih hrest fun t ht ↦ hne t (List.mem_cons_of_mem s ht))

theorem Tiles.cover_eq {l : List β} {a b : α} (h : Tiles lo hi a l b)
    (hne : ∀ s ∈ l, lo s ≤ hi s) : cover lo hi l = Set.Ico a b := by
  induction l generalizing a with
  | nil =>
    obtain rfl : a = b := h
    rw [cover_nil, Set.Ico_self]
  | cons s l ih =>
    obtain ⟨rfl, hrest⟩ := h
    have hne' : ∀ t ∈ l, lo t ≤ hi t := fun t ht ↦ hne t (List.mem_cons_of_mem s ht)
    rw [cover_cons, ih hrest hne',
      Set.Ico_union_Ico_eq_Ico (hne s List.mem_cons_self) (hrest.le hne')]

/-- Ordered ranges that cover a range leave no gap. -/
theorem Ordered.tiles {l : List β} {a b : α} (h : Ordered lo hi l) (hab : a ≤ b)
    (hcover : cover lo hi l = Set.Ico a b) : Tiles lo hi a l b := by
  induction l generalizing a with
  | nil =>
    rw [cover_nil] at hcover
    exact le_antisymm hab (Set.Ico_eq_empty_iff.1 hcover.symm |> le_of_not_gt)
  | cons s l ih =>
    obtain ⟨hs, hbefore, hl⟩ := ordered_cons.1 h
    have hmem : lo s ∈ Set.Ico a b := hcover ▸ ⟨s, List.mem_cons_self, le_rfl, hs⟩
    -- The least point that is covered lies in the first range
    have hfirst : lo s = a := by
      have ha : a ∈ cover lo hi (s :: l) := hcover ▸ ⟨le_rfl, hmem.1.trans_lt hmem.2⟩
      obtain ⟨t, ht, hlo, -⟩ := ha
      rcases List.mem_cons.1 ht with rfl | ht
      · exact le_antisymm hlo hmem.1
      · exact absurd ((hs.trans_le (hbefore t ht)).trans_le hlo) (not_lt.2 hmem.1)
    have hend : hi s ≤ b := by
      by_contra hlt
      have hb : b ∈ cover lo hi (s :: l) :=
        ⟨s, List.mem_cons_self, hmem.2.le, not_le.1 hlt⟩
      rw [hcover] at hb
      exact lt_irrefl b hb.2
    refine ⟨hfirst, ih hl hend ?_⟩
    ext x
    constructor
    · rintro ⟨t, ht, hlo, hhi⟩
      have hx : x ∈ Set.Ico a b := hcover ▸ ⟨t, List.mem_cons_of_mem s ht, hlo, hhi⟩
      exact ⟨(hbefore t ht).trans hlo, hx.2⟩
    · rintro ⟨hlo, hhi⟩
      have hx : x ∈ cover lo hi (s :: l) := hcover ▸ ⟨(hfirst ▸ hs.le).trans hlo, hhi⟩
      obtain ⟨t, ht, htx⟩ := hx
      rcases List.mem_cons.1 ht with rfl | ht
      · exact absurd htx.2 (not_lt.2 hlo)
      · exact ⟨t, ht, htx⟩

/-! ## Functions given in pieces -/

/-- The partial function that a list of ranges describes, when `val` gives the value of a range at
each of its points. -/
def piecewise (lo hi : β → α) (val : β → α → γ) (l : List β) (x : α) : Option γ :=
  (l.find? fun s ↦ lo s ≤ x ∧ x < hi s).map (val · x)

@[simp]
theorem piecewise_nil (x : α) : piecewise lo hi val [] x = none := rfl

theorem piecewise_cons (s : β) (l : List β) (x : α) :
    piecewise lo hi val (s :: l) x =
      if lo s ≤ x ∧ x < hi s then some (val s x) else piecewise lo hi val l x := by
  unfold piecewise
  rw [List.find?_cons]
  by_cases hs : lo s ≤ x ∧ x < hi s
  · simp [hs]
  · simp [hs]

theorem piecewise_append (l m : List β) (x : α) :
    piecewise lo hi val (l ++ m) x =
      (piecewise lo hi val l x).or (piecewise lo hi val m x) := by
  induction l with
  | nil => rfl
  | cons s l ih =>
    rw [List.cons_append, piecewise_cons, piecewise_cons, ih]
    by_cases hs : lo s ≤ x ∧ x < hi s
    · simp [hs]
    · simp [hs]

theorem piecewise_eq_none {l : List β} {x : α} :
    piecewise lo hi val l x = none ↔ ∀ s ∈ l, lo s ≤ x → hi s ≤ x := by
  simp [piecewise]

/-- The ranges that lie on one side of a point do not matter there. -/
theorem piecewise_of_le {l : List β} {x : α} (h : ∀ s ∈ l, hi s ≤ x) :
    piecewise lo hi val l x = none :=
  piecewise_eq_none.2 fun s hs _ ↦ h s hs

theorem piecewise_of_lt {l : List β} {x : α} (h : ∀ s ∈ l, x < lo s) :
    piecewise lo hi val l x = none :=
  piecewise_eq_none.2 fun s hs hlo ↦ absurd hlo (not_le.2 (h s hs))

/-- In an ordered list a point has the value of the range that it lies in. -/
theorem Ordered.piecewise_eq_some {l : List β} (h : Ordered lo hi l) {x : α} {c : γ} :
    piecewise lo hi val l x = some c ↔ ∃ s ∈ l, lo s ≤ x ∧ x < hi s ∧ val s x = c := by
  have hfound : ∀ s, l.find? (fun s ↦ lo s ≤ x ∧ x < hi s) = some s → s ∈ l ∧ lo s ≤ x ∧ x < hi s :=
    fun s hs ↦ ⟨List.mem_of_find?_eq_some hs, by simpa using List.find?_some hs⟩
  unfold piecewise
  rw [Option.map_eq_some_iff]
  constructor
  · rintro ⟨s, hs, hval⟩
    obtain ⟨hmem, hlo, hhi⟩ := hfound s hs
    exact ⟨s, hmem, hlo, hhi, hval⟩
  · rintro ⟨s, hs, hlo, hhi, hval⟩
    have hsome : (l.find? fun s ↦ lo s ≤ x ∧ x < hi s).isSome :=
      List.find?_isSome.2 ⟨s, hs, by simpa using ⟨hlo, hhi⟩⟩
    obtain ⟨t, ht⟩ := Option.isSome_iff_exists.1 hsome
    obtain ⟨hmem, htx⟩ := hfound t ht
    have heq : t = s := h.eq_of_mem hmem hs htx ⟨hlo, hhi⟩
    exact ⟨t, ht, heq ▸ hval⟩

/-- Two ranges that meet describe what one range does, if their values agree with it. -/
theorem piecewise_join {s t r : β} (l : List β) (x : α) (hlo : lo s = lo r) (hmid : hi s = lo t)
    (hhi : hi t = hi r) (hs : lo s ≤ hi s) (ht : lo t ≤ hi t) (hvals : val s x = val r x)
    (hvalt : val t x = val r x) :
    piecewise lo hi val (s :: t :: l) x = piecewise lo hi val (r :: l) x := by
  rw [piecewise_cons, piecewise_cons, piecewise_cons, hvals, hvalt, ← hlo, ← hhi, ← hmid]
  rcases lt_or_ge x (hi s) with hx | hx
  · by_cases hsx : lo s ≤ x
    · simp [hsx, hx, hx.trans_le (hmid ▸ ht)]
    · simp [hsx, hx.not_ge]
  · simp [hx, hs.trans hx, hx.not_gt]

end Bsd386.Ranges

/-!
# The extent of a list of ranges

How many points a list of half-open ranges covers. For ordered ranges this is the sum of their
lengths, so two ordered lists that cover the same points have the same extent, however they divide
them.
-/

namespace Bsd386.Ranges

variable {β α γ : Type*} [LinearOrder α] {lo hi : β → α} {val : β → α → γ} {l m : List β}

theorem mem_cover_iff {x : α} : x ∈ cover lo hi l ↔ piecewise lo hi val l x ≠ none := by
  rw [Ne, piecewise_eq_none]
  push Not
  rfl

theorem cover_congr (h : piecewise lo hi val l = piecewise lo hi val m) :
    cover lo hi l = cover lo hi m := by
  ext x
  have hiff : ∀ k : List β, x ∈ cover lo hi k ↔ piecewise lo hi val k x ≠ none :=
    fun k ↦ mem_cover_iff
  rw [hiff, hiff, h]

theorem Ordered.disjoint_cover {s : β} (h : Ordered lo hi (s :: l)) :
    Disjoint (Set.Ico (lo s) (hi s)) (cover lo hi l) := by
  rw [Set.disjoint_left]
  rintro x hx ⟨t, ht, htx⟩
  exact absurd (hx.2.trans_le ((ordered_cons.1 h).2.1 t ht)) (not_lt.2 htx.1)

variable [LocallyFiniteOrder α]

theorem cover_finite (l : List β) : (cover lo hi l).Finite := by
  induction l with
  | nil =>
    rw [cover_nil]
    exact Set.finite_empty
  | cons s l ih =>
    rw [cover_cons]
    exact (Set.finite_Ico _ _).union ih

/-- The number of points that ordered ranges cover. -/
theorem Ordered.ncard_cover (h : Ordered lo hi l) :
    (cover lo hi l).ncard = (l.map fun s ↦ (Finset.Ico (lo s) (hi s)).card).sum := by
  induction l with
  | nil =>
    rw [cover_nil]
    exact Set.ncard_empty α
  | cons s l ih =>
    rw [cover_cons, Set.ncard_union_eq h.disjoint_cover (Set.finite_Ico _ _) (cover_finite l),
      ih (ordered_cons.1 h).2.2, ← Finset.coe_Ico, Set.ncard_coe_finset]
    rfl

end Bsd386.Ranges
