import Mathlib.Data.List.Basic

/-!
# Owners of disjoint lists

A family of lists of which no two share an element, while two of its members hand elements over.
-/

namespace Bsd386

variable {A C : Type*}

/-- No element is in the lists of two owners. -/
def Apart (own : A → List C) : Prop := ∀ a b, a ≠ b → ∀ c ∈ own a, c ∉ own b

/-- Two owners hand elements over to each other, or take ones that nobody has. -/
theorem Apart.move {own own' : A → List C} {a b : A} (h : Apart own)
    (hother : ∀ d, d ≠ a → d ≠ b → own' d = own d)
    (hsub : ∀ c, c ∈ own' a ∨ c ∈ own' b → c ∈ own a ∨ c ∈ own b ∨ ∀ d, c ∉ own d)
    (hdisj : ∀ c ∈ own' a, c ∉ own' b) : Apart own' := by
  have hrest : ∀ d, d ≠ a → d ≠ b → ∀ c ∈ own' d, c ∉ own' a ∧ c ∉ own' b := by
    intro d hda hdb c hc
    rw [hother d hda hdb] at hc
    have hout : ¬(c ∈ own a ∨ c ∈ own b ∨ ∀ d, c ∉ own d) := by
      rintro (hmem | hmem | hnone)
      · exact h d a hda c hc hmem
      · exact h d b hdb c hc hmem
      · exact hnone d hc
    exact ⟨fun hmem ↦ hout (hsub c (.inl hmem)), fun hmem ↦ hout (hsub c (.inr hmem))⟩
  intro d e hde c hc hce
  by_cases hda : d = a
  · subst hda
    by_cases heb : e = b
    · exact hdisj c hc (heb ▸ hce)
    · exact (hrest e (Ne.symm hde) heb c hce).1 hc
  · by_cases hdb : d = b
    · subst hdb
      by_cases hea : e = a
      · exact hdisj c (hea ▸ hce) hc
      · exact (hrest e hea (Ne.symm hde) c hce).2 hc
    · by_cases hea : e = a
      · exact (hrest d hda hdb c hc).1 (hea ▸ hce)
      · by_cases heb : e = b
        · exact (hrest d hda hdb c hc).2 (heb ▸ hce)
        · rw [hother d hda hdb] at hc
          rw [hother e hea heb] at hce
          exact h d e hde c hc hce

end Bsd386
