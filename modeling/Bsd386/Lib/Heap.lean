import Mathlib.Data.Nat.Notation
import Mathlib.Tactic.ByContra

/-!
# Heaps

Places that are numbered from 1 on, where the parent of a place has half of its number. A value that
is too small for its place sinks by exchanges with the largest child.
-/

namespace Bsd386

variable {β : Type*}

/-- No value is above that of its parent, for the parents from a number on. -/
def HeapFrom (le : β → β → Prop) (n lo : ℕ) (f : ℕ → β) : Prop :=
  ∀ j ≤ n, lo ≤ j / 2 → le (f j) (f (j / 2))

/-- Only the children of one place may be above it, and these are not above its parent. -/
structure HeapBut (le : β → β → Prop) (n lo i : ℕ) (f : ℕ → β) : Prop where
  others : ∀ j ≤ n, lo ≤ j / 2 → j / 2 ≠ i → le (f j) (f (j / 2))
  children : ∀ j ≤ n, j / 2 = i → lo ≤ i / 2 → le (f j) (f (i / 2))

variable {le : β → β → Prop} {n lo i c : ℕ} {f g : ℕ → β}

/-- The children of a place that is no parent yet may be above it. -/
theorem HeapFrom.extend (h : HeapFrom le n (lo + 1) f) (hpos : 1 ≤ lo) : HeapBut le n lo lo f where
  others j hj hlo hne := h j hj (by omega)
  children j _ _ hlo := by omega

/-- No child is above the place. -/
theorem HeapBut.done (h : HeapBut le n lo i f) (hchildren : ∀ j ≤ n, j / 2 = i → le (f j) (f i)) :
    HeapFrom le n lo f := by
  intro j hj hlo
  by_cases heq : j / 2 = i
  · rw [heq]
    exact hchildren j hj heq
  · exact h.others j hj hlo heq

/-- The value sinks to the place of the largest child. -/
theorem HeapBut.sink (h : HeapBut le n lo i f) (hpos : 1 ≤ lo) (hlo : lo ≤ i) (hc : c ≤ n)
    (hchild : c / 2 = i) (hlargest : ∀ j ≤ n, j / 2 = i → le (f j) (f c)) (hle : le (f i) (f c))
    (hi : g i = f c) (hgc : g c = f i) (hg : ∀ j, 1 ≤ j → j ≠ i → j ≠ c → g j = f j) :
    HeapBut le n lo c g where
  others j hj hlow hne := by
    by_cases hsame : j / 2 = i
    · rw [hsame, hi]
      by_cases hjc : j = c
      · rw [hjc, hgc]
        exact hle
      · rw [hg j (by omega) (by omega) hjc]
        exact hlargest j hj hsame
    · rw [hg (j / 2) (by omega) hsame hne]
      by_cases hji : j = i
      · rw [hji, hi]
        exact h.children c hc hchild (hji ▸ hlow)
      · rw [hg j (by omega) hji fun hjc ↦ hsame (hjc ▸ hchild)]
        exact h.others j hj hlow hsame
  children j hj hparent _ := by
    rw [hchild, hi, hg j (by omega) (by omega) (by omega), ← hparent]
    exact h.others j hj (by omega) (by omega)

/-- No value is above the first one. -/
theorem HeapFrom.root_max (h : HeapFrom le n 1 f) (hrefl : ∀ x, le x x)
    (htrans : ∀ x y z, le x y → le y z → le x z) {j : ℕ} (hpos : 1 ≤ j) (hj : j ≤ n) :
    le (f j) (f 1) := by
  induction j using Nat.strongRecOn with
  | ind j ih =>
    by_cases hone : j = 1
    · rw [hone]
      exact hrefl (f 1)
    · have hhalf : 1 ≤ j / 2 := by omega
      exact htrans _ _ _ (h j hj hhalf) (ih (j / 2) (by omega) hhalf (by omega))

end Bsd386
