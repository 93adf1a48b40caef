import Mathlib.Data.List.Nodup
import Mathlib.Logic.Function.Basic

/-!
# Queues of cells

Many queues in one memory of cells. A cell holds the null value or an element, whose link is the
next cell, so that a queue is given by its first cell alone, and the first element is removed like
any other. The value that is stored for an element is `val`, and its link is the cell `link`.
-/

namespace Bsd386

open Function

variable {C E V : Type*} {null : V} {val : E → V} {link : E → C} {load load' : C → V} {c : C}
  {e : E}
  {l l₁ l₂ : List E}

/-- From a cell the links lead through the elements of the list to a null value. -/
def Leads (null : V) (val : E → V) (link : E → C) (load : C → V) : C → List E → Prop
  | c, [] => load c = null
  | c, e :: l => load c = val e ∧ Leads null val link load (link e) l

/-- The cell behind the last element. -/
def endCell (link : E → C) : C → List E → C
  | c, [] => c
  | _, e :: l => endCell link (link e) l

theorem endCell_append : endCell link c (l₁ ++ l₂) = endCell link (endCell link c l₁) l₂ := by
  induction l₁ generalizing c with
  | nil => rfl
  | cons e l₁ ih => exact ih

theorem endCell_concat : endCell link c (l ++ [e]) = link e := endCell_append

/-- The last cell is the first one or a link. -/
theorem endCell_cases (link : E → C) (c : C) (l : List E) :
    (l = [] ∧ endCell link c l = c) ∨ ∃ e ∈ l, endCell link c l = link e := by
  induction l generalizing c with
  | nil => exact .inl ⟨rfl, rfl⟩
  | cons e l ih =>
    right
    rcases ih (link e) with ⟨hnil, hcell⟩ | ⟨f, hf, hcell⟩
    · exact ⟨e, List.mem_cons_self, hcell⟩
    · exact ⟨f, List.mem_cons_of_mem e hf, hcell⟩

namespace Leads

/-- The queue depends on its own cells only. -/
theorem congr (h : Leads null val link load c l) (hfirst : load' c = load c)
    (hlink : ∀ e ∈ l, load' (link e) = load (link e)) : Leads null val link load' c l := by
  induction l generalizing c with
  | nil => exact hfirst.trans h
  | cons e l ih =>
    exact ⟨hfirst.trans h.1, ih h.2 (hlink e List.mem_cons_self)
      fun f hf ↦ hlink f (List.mem_cons_of_mem e hf)⟩

theorem load_endCell (h : Leads null val link load c l) : load (endCell link c l) = null := by
  induction l generalizing c with
  | nil => exact h
  | cons e l ih => exact ih h.2

/-- The cell before an element holds it. -/
theorem load_before (h : Leads null val link load c (l₁ ++ e :: l₂)) :
    load (endCell link c l₁) = val e := by
  induction l₁ generalizing c with
  | nil => exact h.1
  | cons f l₁ ih => exact ih h.2

variable [DecidableEq C]

/-- A cell elsewhere can be written. -/
theorem store {d : C} (h : Leads null val link load c l) (hfirst : d ≠ c)
    (hlink : ∀ e ∈ l, d ≠ link e)
    (v : V) : Leads null val link (update load d v) c l :=
  h.congr (update_of_ne hfirst.symm ..) fun e he ↦ update_of_ne (hlink e he).symm ..

omit [DecidableEq C] in
/-- The cell behind the last element is not one that is no link of the list. -/
theorem endCell_ne {d : C} (hne : ∀ f ∈ l, d ≠ link f) (hl : l ≠ []) : endCell link c l ≠ d := by
  rcases endCell_cases link c l with ⟨hnil, -⟩ | ⟨f, hf, hcell⟩
  · exact absurd hnil hl
  · rw [hcell]
    exact (hne f hf).symm

/-- An element is removed by storing what its link holds in the cell before it. -/
theorem remove (hlink : Injective link) (h : Leads null val link load c (l₁ ++ e :: l₂))
    (hfirst : ∀ f ∈ l₁ ++ e :: l₂, c ≠ link f) (hnodup : (l₁ ++ e :: l₂).Nodup) :
    Leads null val link (update load (endCell link c l₁) (load (link e))) c (l₁ ++ l₂) := by
  induction l₁ generalizing c with
  | nil =>
    have hrest : ∀ f ∈ l₂, c ≠ link f := fun f hf ↦ hfirst f (List.mem_cons_of_mem e hf)
    have hhead : update load c (load (link e)) c = load (link e) := update_self ..
    cases l₂ with
    | nil => exact hhead.trans h.2
    | cons f l₂ =>
      exact ⟨hhead.trans h.2.1, h.2.2.store (hrest f List.mem_cons_self)
        (fun g hg ↦ hrest g (List.mem_cons_of_mem f hg)) _⟩
  | cons g l₁ ih =>
    obtain ⟨hg, hnodup⟩ := List.nodup_cons.mp hnodup
    have hcell : endCell link (link g) l₁ ≠ c := by
      refine endCell_ne (c := c) (l := g :: l₁) (fun f hf ↦ hfirst f ?_) (List.cons_ne_nil g l₁)
      exact List.mem_append_left (e :: l₂) hf
    refine ⟨(update_of_ne hcell.symm ..).trans h.1, ih h.2 (fun f hf heq ↦ hg ?_) hnodup⟩
    exact hlink heq ▸ hf

/-- An element is appended by storing it in the last cell and the null value in its link. -/
theorem concat (hlink : Injective link) (h : Leads null val link load c l)
    (hfirst : ∀ f ∈ l ++ [e], c ≠ link f) (hnodup : (l ++ [e]).Nodup) :
    Leads null val link (update (update load (endCell link c l) (val e)) (link e) null) c
      (l ++ [e]) := by
  induction l generalizing c with
  | nil =>
    have hne : c ≠ link e := hfirst e List.mem_cons_self
    exact ⟨(update_of_ne hne ..).trans (update_self ..), update_self ..⟩
  | cons g l ih =>
    obtain ⟨hg, hnodup⟩ := List.nodup_cons.mp hnodup
    have hlast : link e ≠ c :=
      (hfirst e (List.mem_cons_of_mem g (List.mem_append_right l List.mem_cons_self))).symm
    have hcell : endCell link (link g) l ≠ c := by
      refine endCell_ne (c := c) (l := g :: l) (fun f hf ↦ hfirst f ?_) (List.cons_ne_nil g l)
      exact List.mem_append_left [e] hf
    refine ⟨?_, ih h.2 (fun f hf heq ↦ hg ?_) hnodup⟩
    · rw [update_of_ne hlast.symm]
      exact (update_of_ne hcell.symm ..).trans h.1
    · exact hlink heq ▸ hf

end Leads

end Bsd386
