import Mathlib.Data.List.Nodup
import Mathlib.Logic.Function.Basic

/-!
# Singly linked lists in memory

A list is threaded through memory when each of its cells holds the address of the next one and the
last holds the null address. The cells are determined by the address of the first, no cell occurs
twice, and writing to other cells does not change the list.
-/

namespace Bsd386

open Function

variable {A : Type*} {null a b : A} {next next' : A → A} {l m : List A}

/-- From an address the links lead through the cells of the list to the null address. -/
def Threaded (null : A) (next : A → A) : A → List A → Prop
  | a, [] => a = null
  | a, b :: l => a = b ∧ b ≠ null ∧ Threaded null next (next b) l

namespace Threaded

theorem cons (hne : a ≠ null) (h : Threaded null next (next a) l) :
    Threaded null next a (a :: l) :=
  ⟨rfl, hne, h⟩

theorem eq_nil (h : Threaded null next null l) : l = [] := by
  cases l with
  | nil => rfl
  | cons b l => exact absurd h.1.symm h.2.1

/-- A list that does not start at the null address has a first cell. -/
theorem exists_cons (h : Threaded null next a l) (hne : a ≠ null) :
    ∃ m, l = a :: m ∧ Threaded null next (next a) m := by
  cases l with
  | nil => exact absurd h hne
  | cons b m =>
    obtain ⟨rfl, -, hrest⟩ := h
    exact ⟨m, rfl, hrest⟩

/-- The first address determines the list. -/
theorem unique (h : Threaded null next a l) (h' : Threaded null next a m) : l = m := by
  induction l generalizing a m with
  | nil =>
    cases h
    exact h'.eq_nil.symm
  | cons b l ih =>
    obtain ⟨rfl, hne, hrest⟩ := h
    obtain ⟨m, rfl, hrest'⟩ := h'.exists_cons hne
    rw [ih hrest hrest']

/-- The list depends on its own cells only. -/
theorem congr (h : Threaded null next a l) (hnext : ∀ b ∈ l, next' b = next b) :
    Threaded null next' a l := by
  induction l generalizing a with
  | nil => exact h
  | cons b l ih =>
    obtain ⟨rfl, hne, hrest⟩ := h
    refine cons hne (ih ?_ fun c hc ↦ hnext c (List.mem_cons_of_mem _ hc))
    rw [hnext a List.mem_cons_self]
    exact hrest

/-- The links lead on from every cell of the list. -/
theorem of_append (h : Threaded null next a (l ++ b :: m)) : Threaded null next b (b :: m) := by
  induction l generalizing a with
  | nil => exact ⟨rfl, h.2⟩
  | cons c l ih => exact ih h.2.2

/-- No cell occurs twice, or the links would lead round for ever. -/
theorem nodup (h : Threaded null next a l) : l.Nodup := by
  induction l generalizing a with
  | nil => exact List.nodup_nil
  | cons b l ih =>
    refine List.nodup_cons.2 ⟨fun hb ↦ ?_, ih h.2.2⟩
    obtain ⟨s, t, rfl⟩ := List.append_of_mem hb
    have hagain : Threaded null next b (b :: t) := of_append h.2.2
    have heq : b :: (s ++ b :: t) = b :: t := unique (h.1 ▸ h) hagain
    have hlength := congrArg List.length heq
    simp only [List.length_cons, List.length_append] at hlength
    omega

variable [DecidableEq A]

/-- A cell outside the list can be written. -/
theorem store (h : Threaded null next a l) (hb : b ∉ l) (c : A) :
    Threaded null (update next b c) a l :=
  h.congr fun _ hx ↦ update_of_ne (ne_of_mem_of_not_mem hx hb) ..

/-- A cell that is made to point to the first one becomes the first one. -/
theorem push (h : Threaded null next a l) (hne : b ≠ null) (hb : b ∉ l) :
    Threaded null (update next b a) b (b :: l) := by
  refine cons hne ?_
  rw [update_self]
  exact h.store hb a

end Threaded

end Bsd386
