import Mathlib.Data.List.Basic

/-!
# Tables of slots

A table is searched slot by slot. A marker ends the part that was ever used, slots that are gone can
be used again, and a search remembers the first slot that it could use.
-/

namespace Bsd386.Slots

variable {P E : Type*}

/-- The slots behind which nothing was ever used, and the slots that are gone. -/
structure Marks (E : Type*) where
  ends : E → Bool
  gone : E → Bool

/-- What a search comes to: a slot that matches, the marker, or the end of what is searched. The
last two come with the first slot that can be used. -/
inductive Outcome (P : Type*)
  | hit (p : P)
  | stop (slot : Option P)
  | next (slot : Option P)
  deriving DecidableEq

/-- The search goes on at the end. -/
def Outcome.andThen (r : Outcome P) (g : Option P → Outcome P) : Outcome P :=
  match r with
  | .next slot => g slot
  | r => r

/-- The slot that a search without a match has found. -/
def Outcome.slot : Outcome P → Option P
  | .hit _ => none
  | .stop slot | .next slot => slot

/-- The search. -/
def look (m : Marks E) (hit : E → Bool) (f : P → E) : List P → Option P → Outcome P
  | [], slot => .next slot
  | p :: ps, slot =>
    if m.ends (f p) then .stop (slot.or (some p))
    else if m.gone (f p) then look m hit f ps (slot.or (some p))
    else if hit (f p) then .hit p
    else look m hit f ps slot

/-- A slot that lies in front of the marker. -/
def Reached (m : Marks E) (f : P → E) (p : P) : List P → Prop
  | [] => False
  | x :: xs => m.ends (f x) = false ∧ (x = p ∨ Reached m f p xs)

/-- A slot in front of the marker that is in use. -/
structure Visible (m : Marks E) (f : P → E) (ps : List P) (p : P) : Prop where
  reached : Reached m f p ps
  here : m.gone (f p) = false

/-- At most one slot matches. -/
def Once (m : Marks E) (hit : E → Bool) (f : P → E) (ps : List P) : Prop :=
  ∀ p q, Visible m f ps p → Visible m f ps q → hit (f p) = true → hit (f q) = true → p = q

variable {m : Marks E} {hit : E → Bool} {f f' : P → E} {ps qs : List P} {slot : Option P}
  {p q r : P}

/-! ## Slots in front of the marker -/

theorem reached_cons {x : P} {xs : List P} :
    Reached m f p (x :: xs) ↔ m.ends (f x) = false ∧ (x = p ∨ Reached m f p xs) :=
  Iff.rfl

theorem Reached.mem (hreached : Reached m f p ps) : p ∈ ps := by
  induction ps with
  | nil => exact hreached.elim
  | cons x xs ih =>
    rcases hreached.2 with rfl | hrest
    · exact List.mem_cons_self
    · exact List.mem_cons_of_mem x (ih hrest)

theorem Reached.ends_eq (hreached : Reached m f p ps) : m.ends (f p) = false := by
  induction ps with
  | nil => exact hreached.elim
  | cons x xs ih =>
    rcases hreached.2 with rfl | hrest
    · exact hreached.1
    · exact ih hrest

/-- Contents with the same markers have the same slots in front. -/
theorem Reached.congr (hends : ∀ x ∈ ps, m.ends (f' x) = m.ends (f x)) :
    Reached m f' p ps ↔ Reached m f p ps := by
  induction ps with
  | nil => rfl
  | cons x xs ih =>
    rw [reached_cons, reached_cons, hends x List.mem_cons_self,
      ih fun y hy ↦ hends y (List.mem_cons_of_mem x hy)]

/-! ## Searches -/

theorem look_cons {x : P} {xs : List P} : look m hit f (x :: xs) slot =
    if m.ends (f x) then .stop (slot.or (some x))
    else if m.gone (f x) then look m hit f xs (slot.or (some x))
    else if hit (f x) then .hit x
    else look m hit f xs slot :=
  rfl

/-- A search finds a slot in use. -/
theorem look_hit (hlook : look m hit f ps slot = .hit p) :
    Visible m f ps p ∧ hit (f p) = true := by
  induction ps generalizing slot with
  | nil => cases hlook
  | cons x xs ih =>
    rw [look_cons] at hlook
    by_cases hends : m.ends (f x) = true
    · rw [if_pos hends] at hlook
      cases hlook
    rw [if_neg hends] at hlook
    have hends' : m.ends (f x) = false := Bool.eq_false_iff.mpr hends
    by_cases hgone : m.gone (f x) = true
    · rw [if_pos hgone] at hlook
      obtain ⟨hvisible, hhit⟩ := ih hlook
      exact ⟨⟨⟨hends', Or.inr hvisible.reached⟩, hvisible.here⟩, hhit⟩
    rw [if_neg hgone] at hlook
    by_cases hhere : hit (f x) = true
    · rw [if_pos hhere] at hlook
      cases hlook
      exact ⟨⟨⟨hends', Or.inl rfl⟩, Bool.eq_false_iff.mpr hgone⟩, hhere⟩
    · rw [if_neg hhere] at hlook
      obtain ⟨hvisible, hhit⟩ := ih hlook
      exact ⟨⟨⟨hends', Or.inr hvisible.reached⟩, hvisible.here⟩, hhit⟩

/-- Where a slot in use matches, one is found. -/
theorem exists_hit (hvisible : Visible m f ps p) (hhit : hit (f p) = true) (slot : Option P) :
    ∃ q, look m hit f ps slot = .hit q := by
  obtain ⟨hreached, hhere⟩ := hvisible
  induction ps generalizing slot with
  | nil => exact hreached.elim
  | cons x xs ih =>
    rw [look_cons, if_neg (by rw [hreached.1]; exact Bool.false_ne_true)]
    rcases hreached.2 with rfl | hrest
    · rw [if_neg (by rw [hhere]; exact Bool.false_ne_true), if_pos hhit]
      exact ⟨_, rfl⟩
    · split_ifs
      · exact ih _ hrest
      · exact ⟨x, rfl⟩
      · exact ih _ hrest

/-- Where only one slot in use matches, it is found. -/
theorem look_eq_hit (hvisible : Visible m f ps p) (hhit : hit (f p) = true)
    (honce : ∀ q, Visible m f ps q → hit (f q) = true → q = p) (slot : Option P) :
    look m hit f ps slot = .hit p := by
  obtain ⟨q, hlook⟩ := exists_hit hvisible hhit slot
  obtain ⟨hq, hhitq⟩ := look_hit hlook
  rw [hlook, honce q hq hhitq]

/-- Where no slot in use matches, none is found. -/
theorem look_ne_hit (hnone : ∀ q, Visible m f ps q → hit (f q) = false) (slot : Option P) (p : P) :
    look m hit f ps slot ≠ .hit p := by
  intro hlook
  obtain ⟨hvisible, hhit⟩ := look_hit hlook
  rw [hnone p hvisible] at hhit
  cases hhit

theorem look_congr (hsame : ∀ x ∈ ps, f' x = f x) :
    look m hit f' ps slot = look m hit f ps slot := by
  induction ps generalizing slot with
  | nil => rfl
  | cons x xs ih =>
    rw [look_cons, look_cons, hsame x List.mem_cons_self]
    split_ifs
    · rfl
    · exact ih fun y hy ↦ hsame y (List.mem_cons_of_mem x hy)
    · rfl
    · exact ih fun y hy ↦ hsame y (List.mem_cons_of_mem x hy)

theorem look_append : look m hit f (ps ++ qs) slot =
    (look m hit f ps slot).andThen fun slot ↦ look m hit f qs slot := by
  induction ps generalizing slot with
  | nil => rfl
  | cons x xs ih =>
    rw [List.cons_append, look_cons, look_cons]
    split_ifs
    · rfl
    · exact ih
    · rfl
    · exact ih

/-- A search that comes to the end has met no marker. -/
theorem ends_of_look_next {slot' : Option P} (hlook : look m hit f ps slot = .next slot') :
    ∀ x ∈ ps, m.ends (f x) = false := by
  induction ps generalizing slot with
  | nil => exact fun x hx ↦ absurd hx List.not_mem_nil
  | cons y ys ih =>
    rw [look_cons] at hlook
    by_cases hends : m.ends (f y) = true
    · rw [if_pos hends] at hlook
      cases hlook
    rw [if_neg hends] at hlook
    have hrest : ∀ x ∈ ys, m.ends (f x) = false := by
      split_ifs at hlook
      · exact ih hlook
      · exact ih hlook
    intro x hx
    rcases List.mem_cons.mp hx with rfl | hx
    · exact Bool.eq_false_iff.mpr hends
    · exact hrest x hx

/-! ## The slot that can be used -/

/-- The first slot is kept. -/
theorem look_slot_some (hmiss : ∀ p, look m hit f ps (some q) ≠ .hit p) :
    (look m hit f ps (some q)).slot = some q := by
  induction ps with
  | nil => rfl
  | cons x xs ih =>
    rw [look_cons] at hmiss ⊢
    split_ifs at hmiss ⊢
    · rfl
    · exact ih hmiss
    · exact absurd rfl (hmiss x)
    · exact ih hmiss

/-- A slot that is found is one of those that are searched. -/
theorem look_slot_mem (hslot : (look m hit f ps slot).slot = some r) : slot = some r ∨ r ∈ ps := by
  induction ps generalizing slot with
  | nil => exact Or.inl hslot
  | cons x xs ih =>
    have hnew : (slot.or (some x)) = some r → slot = some r ∨ r ∈ x :: xs := by
      intro heq
      cases slot with
      | none => exact Or.inr (Option.some.inj heq ▸ List.mem_cons_self)
      | some q => exact Or.inl heq
    rw [look_cons] at hslot
    split_ifs at hslot
    · exact hnew hslot
    · exact (ih hslot).elim hnew fun hmem ↦ Or.inr (List.mem_cons_of_mem x hmem)
    · cases hslot
    · exact (ih hslot).imp_right (List.mem_cons_of_mem x)

/-- A slot that is put where a search without a match could use one is found by the next search. -/
theorem look_put (hmiss : ∀ p, look m hit f ps none ≠ .hit p)
    (hslot : (look m hit f ps none).slot = some r) (hsame : ∀ x ∈ ps, x ≠ r → f' x = f x)
    (hends : m.ends (f' r) = false) (hhere : m.gone (f' r) = false) (hhit : hit (f' r) = true)
    (slot : Option P) : look m hit f' ps slot = .hit r := by
  have hnew : ∀ xs slot, look m hit f' (r :: xs) slot = .hit r := by
    intro xs slot
    rw [look_cons, hends, hhere, hhit]
    rfl
  induction ps generalizing slot with
  | nil => cases hslot
  | cons x xs ih =>
    by_cases hx : x = r
    · rw [hx]
      exact hnew xs slot
    have hrest : ∀ y ∈ xs, y ≠ r → f' y = f y := fun y hy ↦ hsame y (List.mem_cons_of_mem x hy)
    rw [look_cons] at hmiss hslot
    rw [look_cons, hsame x List.mem_cons_self hx]
    by_cases hstop : m.ends (f x) = true
    · rw [if_pos hstop] at hslot
      exact absurd (Option.some.inj hslot) hx
    rw [if_neg hstop] at hmiss hslot ⊢
    by_cases hgone : m.gone (f x) = true
    · rw [if_pos hgone] at hmiss hslot
      exact absurd (Option.some.inj ((look_slot_some hmiss).symm.trans hslot)) hx
    rw [if_neg hgone] at hmiss hslot ⊢
    by_cases hfound : hit (f x) = true
    · rw [if_pos hfound] at hmiss
      exact absurd rfl (hmiss x)
    rw [if_neg hfound] at hmiss hslot ⊢
    exact ih hmiss hslot hrest slot

/-- A search without a match that finds no slot has come to the end. -/
theorem look_eq_next (hmiss : ∀ p, look m hit f ps slot ≠ .hit p)
    (hslot : (look m hit f ps slot).slot = none) : look m hit f ps slot = .next none := by
  cases hlook : look m hit f ps slot with
  | hit p => exact absurd hlook (hmiss p)
  | next slot' =>
    rw [hlook] at hslot
    exact congrArg Outcome.next hslot
  | stop slot' =>
    exfalso
    rw [hlook] at hslot
    clear hmiss
    induction ps generalizing slot with
    | nil => cases hlook
    | cons x xs ih =>
      rw [look_cons] at hlook
      split_ifs at hlook
      · cases hlook
        cases slot <;> cases hslot
      · exact ih hlook
      · exact ih hlook

end Bsd386.Slots
