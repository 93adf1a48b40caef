import Mathlib.Data.List.Basic

/-!
# Sorting by segments

An array in which any two places are in order, except for those that lie in one of the segments
that are still to be sorted. A segment is rearranged into smaller ones until none is left.
-/

namespace Bsd386

variable {β : Type*}

/-- Places that follow each other. -/
structure Segment where
  lo : ℕ
  len : ℕ
  deriving DecidableEq

/-- The places of a segment. -/
def Segment.Has (s : Segment) (i : ℕ) : Prop := s.lo ≤ i ∧ i < s.lo + s.len

/-- No place is in both segments. -/
def Segment.Apart (s t : Segment) : Prop := ∀ i, s.Has i → ¬t.Has i

theorem Segment.Apart.symm {s t : Segment} (h : s.Apart t) : t.Apart s := fun i ht hs ↦ h i hs ht

/-- Two of the first places are in order, or both in a segment that is to be sorted. -/
def OrderedBut (le : β → β → Prop) (n : ℕ) (segs : List Segment) (f : ℕ → β) : Prop :=
  ∀ i j, i < j → j < n → (∀ s ∈ segs, ¬(s.Has i ∧ s.Has j)) → le (f i) (f j)

variable {le : β → β → Prop} {n : ℕ} {segs segs' : List Segment} {s : Segment} {f g : ℕ → β}

theorem OrderedBut.mono (h : OrderedBut le n segs f) (hsub : ∀ s ∈ segs, s ∈ segs') :
    OrderedBut le n segs' f :=
  fun i j hij hj hout ↦ h i j hij hj fun s hs ↦ hout s (hsub s hs)

/-- A whole array is a segment. -/
theorem orderedBut_whole : OrderedBut le n [⟨0, n⟩] f := by
  intro i j hij hj hout
  exact absurd ⟨⟨Nat.zero_le i, by dsimp only; omega⟩, ⟨Nat.zero_le j, by dsimp only; omega⟩⟩
    (hout _ (List.mem_singleton.mpr rfl))

/-- A segment is rearranged, so that two of its places are in order or both in a smaller one. -/
theorem OrderedBut.refine (h : OrderedBut le n (s :: segs) f) (hapart : ∀ t ∈ segs, s.Apart t)
    (hend : s.lo + s.len ≤ n) (hout : ∀ i, ¬s.Has i → g i = f i)
    (hin : ∀ i, s.Has i → ∃ j, s.Has j ∧ g i = f j)
    (hseg : ∀ i j, i < j → s.Has i → s.Has j → (∀ t ∈ segs', ¬(t.Has i ∧ t.Has j)) →
      le (g i) (g j)) : OrderedBut le n (segs' ++ segs) g := by
  intro i j hij hj hnot
  have hold : ∀ t ∈ segs, ¬(t.Has i ∧ t.Has j) := fun t ht ↦
    hnot t (List.mem_append_right _ ht)
  by_cases hi : s.Has i
  · by_cases hjs : s.Has j
    · exact hseg i j hij hi hjs fun t ht ↦ hnot t (List.mem_append_left _ ht)
    · obtain ⟨i', hi', heq⟩ := hin i hi
      rw [heq, hout j hjs]
      have hlt : i' < j := by
        rw [Segment.Has] at hi hjs hi'
        omega
      refine h i' j hlt hj fun t ht hboth ↦ ?_
      rcases List.mem_cons.mp ht with rfl | ht
      · exact hjs hboth.2
      · exact hapart t ht i' hi' hboth.1
  · rw [hout i hi]
    by_cases hjs : s.Has j
    · obtain ⟨j', hj', heq⟩ := hin j hjs
      rw [heq]
      have hlt : i < j' := by
        rw [Segment.Has] at hi hjs hj'
        omega
      refine h i j' hlt (Nat.lt_of_lt_of_le hj'.2 hend) fun t ht hboth ↦ ?_
      rcases List.mem_cons.mp ht with rfl | ht
      · exact hi hboth.1
      · exact hapart t ht j' hj' hboth.2
    · rw [hout j hjs]
      refine h i j hij hj fun t ht hboth ↦ ?_
      rcases List.mem_cons.mp ht with rfl | ht
      · exact hi hboth.1
      · exact hold t ht hboth

/-- Without segments the array is sorted. -/
theorem OrderedBut.sorted (h : OrderedBut le n [] f) {i j : ℕ} (hij : i < j) (hj : j < n) :
    le (f i) (f j) :=
  h i j hij hj fun _ ht ↦ absurd ht List.not_mem_nil

end Bsd386
