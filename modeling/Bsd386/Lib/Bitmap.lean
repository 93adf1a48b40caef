import Mathlib.Logic.Function.Basic
import Mathlib.Data.Nat.Init
import Mathlib.Data.List.Range

/-!
# Bitmaps

An array of words as a map of bits, with a search for the first bit that is clear.
-/

namespace Bsd386.Bitmap

open Function

variable {w : ℕ}

/-- A bit. -/
def get (m : ℕ → BitVec w) (c : ℕ) : Bool := (m (c / w)).getLsbD (c % w)

/-- Set a bit. -/
def set (m : ℕ → BitVec w) (c : ℕ) : ℕ → BitVec w :=
  update m (c / w) (m (c / w) ||| 1#w <<< (c % w))

/-- Clear a bit. -/
def clear (m : ℕ → BitVec w) (c : ℕ) : ℕ → BitVec w :=
  update m (c / w) (m (c / w) &&& ~~~(1#w <<< (c % w)))

/-- The first clear bit from one word to another. -/
def findClear (m : ℕ → BitVec w) (first last : ℕ) : Option ℕ :=
  match (List.range' first (last + 1 - first)).find? fun idx ↦ m idx ≠ BitVec.allOnes w with
  | none => none
  | some idx => ((List.range w).find? fun bit ↦ !(m idx).getLsbD bit).map fun bit ↦ idx * w + bit

variable {m : ℕ → BitVec w} {c d first last : ℕ}

/-- Bits of one word are told apart by their positions. -/
theorem mod_eq_iff (hword : d / w = c / w) : c % w = d % w ↔ d = c := by
  refine ⟨fun h ↦ ?_, fun h ↦ by rw [h]⟩
  rw [← Nat.div_add_mod c w, ← Nat.div_add_mod d w, hword, h]

theorem getLsbD_bit (hw : 0 < w) : (1#w <<< (c % w)).getLsbD (d % w) = decide (c % w = d % w) := by
  rw [← BitVec.twoPow_eq, BitVec.getLsbD_twoPow, decide_eq_true (Nat.mod_lt c hw), Bool.true_and]

theorem get_set (hw : 0 < w) : get (set m c) d = (decide (d = c) || get m d) := by
  rw [get, set]
  by_cases hword : d / w = c / w
  · rw [hword, update_self, BitVec.getLsbD_or, getLsbD_bit hw, get, hword, Bool.or_comm]
    rw [decide_eq_decide.mpr (mod_eq_iff hword)]
  · rw [update_of_ne hword, decide_eq_false fun h ↦ hword (by rw [h]), Bool.false_or, get]

theorem get_clear (hw : 0 < w) : get (clear m c) d = (!decide (d = c) && get m d) := by
  rw [get, clear]
  by_cases hword : d / w = c / w
  · rw [hword, update_self, BitVec.getLsbD_and, BitVec.getLsbD_not,
      decide_eq_true (Nat.mod_lt d hw),
      Bool.true_and, getLsbD_bit hw, get, hword, Bool.and_comm]
    rw [decide_eq_decide.mpr (mod_eq_iff hword)]
  · rw [update_of_ne hword, decide_eq_false fun h ↦ hword (by rw [h]), Bool.not_false,
      Bool.true_and,
      get]

/-- The bits of a word in which all bits are set. -/
theorem get_of_allOnes (hw : 0 < w) (hword : m (c / w) = BitVec.allOnes w) : get m c = true := by
  rw [get, hword, BitVec.getLsbD_allOnes, decide_eq_true (Nat.mod_lt c hw)]

theorem findClear_eq_none (hw : 0 < w) (h : findClear m first last = none) (hfirst : first ≤ c / w)
    (hlast : c / w ≤ last) : get m c = true := by
  rw [findClear] at h
  cases hfind : (List.range' first (last + 1 - first)).find? fun idx ↦ m idx ≠ BitVec.allOnes w with
  | none =>
    rw [List.find?_eq_none] at hfind
    have hword := hfind (c / w) (List.mem_range'_1.mpr ⟨hfirst, by omega⟩)
    simp only [ne_eq, decide_not, Bool.not_eq_true', decide_eq_false_iff_not, not_not] at hword
    exact get_of_allOnes hw hword
  | some idx =>
    -- A word that is not all ones has a clear bit.
    rw [hfind] at h
    have hne : m idx ≠ BitVec.allOnes w := by simpa using List.find?_some hfind
    refine absurd (BitVec.eq_of_getLsbD_eq fun i hi ↦ ?_) hne
    rw [Option.map_eq_none_iff, List.find?_eq_none] at h
    have hbit := h i (List.mem_range.mpr hi)
    rw [BitVec.getLsbD_allOnes, decide_eq_true hi]
    simpa using hbit

/-- The bit that is found is the first one. -/
theorem findClear_eq_some (hw : 0 < w) (h : findClear m first last = some c) :
    get m c = false ∧ first ≤ c / w ∧ c / w ≤ last ∧
      ∀ d, first ≤ d / w → d < c → get m d = true := by
  rw [findClear] at h
  cases hfind : (List.range' first (last + 1 - first)).find? fun idx ↦ m idx ≠ BitVec.allOnes w with
  | none =>
    rw [hfind] at h
    cases h
  | some idx =>
    rw [hfind] at h
    obtain ⟨bit, hbit, rfl⟩ := Option.map_eq_some_iff.mp h
    rw [List.find?_range_eq_some] at hbit
    obtain ⟨hclear, hlt, hbefore⟩ := hbit
    have hlt := List.mem_range.mp hlt
    rw [List.find?_range'_eq_some] at hfind
    obtain ⟨-, hrange, hwords⟩ := hfind
    rw [List.mem_range'_1] at hrange
    have hdiv : (idx * w + bit) / w = idx := by
      rw [Nat.mul_comm, Nat.mul_add_div hw, Nat.div_eq_of_lt hlt, Nat.add_zero]
    have hmod :
      (idx * w + bit) % w = bit := by rw [Nat.mul_comm, Nat.mul_add_mod, Nat.mod_eq_of_lt hlt]
    refine ⟨?_, by omega, by omega, fun d hd hdc ↦ ?_⟩
    · rw [get, hdiv, hmod]
      simpa using hclear
    · have hle : d / w ≤ idx := by
        rw [← hdiv]
        exact Nat.div_le_div_right hdc.le
      rcases Nat.lt_or_eq_of_le hle with hword | hword
      · have hones := hwords (d / w) hd hword
        simp only [ne_eq, decide_not, Bool.not_not, decide_eq_true_eq] at hones
        exact get_of_allOnes hw hones
      · have hlow : d % w < bit := by
          have hd' := Nat.div_add_mod d w
          rw [hword, Nat.mul_comm] at hd'
          omega
        rw [get, hword]
        simpa using hbefore (d % w) hlow

end Bsd386.Bitmap
