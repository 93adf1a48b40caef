import Mathlib.Data.Fintype.Card
import Mathlib.Logic.Function.Basic

/-!
# References

How often a value is referred to, and objects that count the references to them. An object exists
exactly as long as there is a reference to it.
-/

namespace Bsd386

open Function

variable {A B X : Type*} [DecidableEq B]

/-! ### Occurrences -/

section Occurrences

variable [Fintype A] {f : A → B} {a a' : A} {b : B}

/-- How often a function takes a value. -/
def occurrences (f : A → B) (b : B) : ℕ := (Finset.univ.filter fun a ↦ f a = b).card

theorem occurrences_pos (h : f a = b) : 0 < occurrences f b :=
  Finset.card_pos.mpr ⟨a, Finset.mem_filter.mpr ⟨Finset.mem_univ a, h⟩⟩

theorem exists_of_occurrences_pos (h : 0 < occurrences f b) : ∃ a, f a = b := by
  obtain ⟨a, ha⟩ := Finset.card_pos.mp h
  exact ⟨a, (Finset.mem_filter.mp ha).2⟩

theorem eq_of_occurrences_le_one (h : occurrences f b ≤ 1) (ha : f a = b) (ha' : f a' = b) :
    a = a' :=
  Finset.card_le_one.mp h a (Finset.mem_filter.mpr ⟨Finset.mem_univ a, ha⟩) a'
    (Finset.mem_filter.mpr ⟨Finset.mem_univ a', ha'⟩)

variable [DecidableEq A]

/-- One value goes and another one comes. -/
theorem occurrences_update (f : A → B) (a : A) (v b : B) :
    occurrences (update f a v) b + (if f a = b then 1 else 0) =
      occurrences f b + (if v = b then 1 else 0) := by
  have hsplit : ∀ g : A → B, (∀ x, x ≠ a → g x = f x) → occurrences g b =
      ((Finset.univ.erase a).filter fun x ↦ f x = b).card + (if g a = b then 1 else 0) := by
    intro g hg
    have hrest : ((Finset.univ.erase a).filter fun x ↦ f x = b) =
        (Finset.univ.erase a).filter fun x ↦ g x = b :=
      Finset.filter_congr fun x hx ↦ by rw [hg x (Finset.ne_of_mem_erase hx)]
    rw [hrest, occurrences, ← Finset.insert_erase (Finset.mem_univ a), Finset.filter_insert,
      Finset.erase_insert (Finset.notMem_erase a _)]
    split_ifs
    · exact Finset.card_insert_of_notMem fun h ↦ Finset.notMem_erase a _ (Finset.mem_filter.mp h).1
    · rfl
  rw [hsplit f fun _ _ ↦ rfl, hsplit (update f a v) fun x hx ↦ update_of_ne hx _ _, update_self]
  omega

end Occurrences

/-! ### Counts -/

/-- Each object counts the references to it, and there are none to what does not exist. -/
def Counted (ref : X → ℕ) (n : B → ℕ) (m : B → Option X) : Prop :=
  ∀ b, n b = 0 ∧ m b = none ∨ ∃ x, m b = some x ∧ ref x = n b ∧ n b ≠ 0

namespace Counted

variable {ref : X → ℕ} {n n' : B → ℕ} {m : B → Option X} {b : B} {x x' : X}

omit [DecidableEq B] in
/-- What is referred to exists. -/
theorem get (h : Counted ref n m) (hb : n b ≠ 0) : ∃ x, m b = some x ∧ ref x = n b := by
  rcases h b with ⟨hzero, -⟩ | ⟨x, hx, href, -⟩
  · exact absurd hzero hb
  · exact ⟨x, hx, href⟩

omit [DecidableEq B] in
theorem ref_eq (h : Counted ref n m) (hx : m b = some x) : ref x = n b ∧ n b ≠ 0 := by
  rcases h b with ⟨-, hnone⟩ | ⟨y, hy, href, hne⟩
  · rw [hnone] at hx
    cases hx
  · rw [hy] at hx
    cases hx
    exact ⟨href, hne⟩

omit [DecidableEq B] in
theorem eq_zero (h : Counted ref n m) (hb : m b = none) : n b = 0 := by
  rcases h b with ⟨hzero, -⟩ | ⟨y, hy, -⟩
  · exact hzero
  · rw [hy] at hb
    cases hb

omit [DecidableEq B] in
theorem congr (h : Counted ref n m) (hn : ∀ b, n' b = n b) : Counted ref n' m := fun b ↦ by
  rw [hn b]
  exact h b

/-- What an object is worth changes, and the number of references to it. -/
theorem set (h : Counted ref n m) (href : ref x' = n' b) (hne : n' b ≠ 0)
    (hother : ∀ c, c ≠ b → n' c = n c) : Counted ref n' (update m b (some x')) := fun c ↦ by
  by_cases hcb : c = b
  · rw [hcb, update_self]
    exact .inr ⟨x', rfl, href, hne⟩
  · rw [update_of_ne hcb, hother c hcb]
    exact h c

/-- An object goes with the last reference to it. -/
theorem free (h : Counted ref n m) (hzero : n' b = 0) (hother : ∀ c, c ≠ b → n' c = n c) :
    Counted ref n' (update m b none) := fun c ↦ by
  by_cases hcb : c = b
  · rw [hcb, update_self]
    exact .inl ⟨hzero, rfl⟩
  · rw [update_of_ne hcb, hother c hcb]
    exact h c

end Counted

end Bsd386
