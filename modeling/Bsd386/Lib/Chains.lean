import Mathlib.Logic.Function.Basic
import Mathlib.Data.List.Basic

/-!
# Chains

A table that gives each element the next one makes a chain out of a list that begins somewhere and
ends at an end mark. A chain is found again from its beginning, and writing to the table extends or
cuts it.
-/

namespace Bsd386

open Function

variable {α : Type*}

/-- The elements that are met from a value on until an end mark. -/
def Chain (next : α → α) (isEnd : α → Prop) : α → List α → Prop
  | a, [] => isEnd a
  | a, b :: l => a = b ∧ Chain next isEnd (next b) l

namespace Chain

variable {next next' : α → α} {isEnd : α → Prop} {a b x y e : α} {l l' l₁ l₂ : List α}

theorem congr (h : Chain next isEnd a l) (hnext : ∀ b ∈ l, next' b = next b) :
    Chain next' isEnd a l := by
  induction l generalizing a with
  | nil => exact h
  | cons b l ih =>
    refine ⟨h.1, ?_⟩
    rw [hnext b (List.mem_cons_self ..)]
    exact ih h.2 fun c hc ↦ hnext c (List.mem_cons_of_mem b hc)

/-- A write elsewhere leaves a chain. -/
theorem update [DecidableEq α] (h : Chain next isEnd a l) (hx : x ∉ l) :
    Chain (Function.update next x e) isEnd a l :=
  h.congr fun b hb ↦ update_of_ne (fun hbx : b = x ↦ hx (hbx ▸ hb)) e next

/-- The rest of a chain is a chain. -/
theorem of_append (h : Chain next isEnd a (l₁ ++ b :: l₂)) : Chain next isEnd b (b :: l₂) := by
  induction l₁ generalizing a with
  | nil => exact ⟨rfl, h.2⟩
  | cons c l₁ ih => exact ih h.2

/-- What follows an element of a chain. -/
theorem next_of_append (h : Chain next isEnd a (l₁ ++ x :: l₂)) : Chain next isEnd (next x) l₂ :=
  h.of_append.2

theorem unique (h : Chain next isEnd a l) (h' : Chain next isEnd a l') (hl : ∀ b ∈ l, ¬isEnd b)
    (hl' : ∀ b ∈ l', ¬isEnd b) : l = l' := by
  induction l generalizing a l' with
  | nil =>
    cases l' with
    | nil => rfl
    | cons b l' => exact absurd (h'.1 ▸ h) (hl' b (List.mem_cons_self ..))
  | cons b l ih =>
    cases l' with
    | nil => exact absurd (h.1 ▸ h') (hl b (List.mem_cons_self ..))
    | cons c l' =>
      have hbc : b = c := h.1.symm.trans h'.1
      subst hbc
      rw [ih h.2 h'.2 (fun d hd ↦ hl d (List.mem_cons_of_mem b hd))
        fun d hd ↦ hl' d (List.mem_cons_of_mem b hd)]

/-- An element that is written behind the last one extends the chain. -/
theorem concat [DecidableEq α] (h : Chain next isEnd a (l ++ [x])) (hx : x ∉ l) (hy : y ∉ l ++ [x])
    (he : isEnd (next y)) : Chain (Function.update next x y) isEnd a (l ++ [x] ++ [y]) := by
  induction l generalizing a with
  | nil =>
    have hyx : y ≠ x := fun h ↦ hy (List.mem_singleton.mpr h)
    refine ⟨h.1, ?_, ?_⟩
    · rw [update_self]
    · rw [update_of_ne hyx]
      exact he
  | cons b l ih =>
    rw [List.mem_cons, not_or] at hx
    rw [List.cons_append, List.mem_cons, not_or] at hy
    refine ⟨h.1, ?_⟩
    rw [update_of_ne (Ne.symm hx.1)]
    exact ih h.2 hx.2 hy.2

/-- An end mark that is written cuts the chain. -/
theorem cut [DecidableEq α] (h : Chain next isEnd a (l₁ ++ x :: l₂)) (hx : x ∉ l₁) (he : isEnd e) :
    Chain (Function.update next x e) isEnd a (l₁ ++ [x]) := by
  induction l₁ generalizing a with
  | nil =>
    refine ⟨h.1, ?_⟩
    rw [update_self]
    exact he
  | cons b l₁ ih =>
    rw [List.mem_cons, not_or] at hx
    refine ⟨h.1, ?_⟩
    rw [update_of_ne (Ne.symm hx.1)]
    exact ih h.2 hx.2

/-- The entry of an element is another element or an end mark. -/
theorem next_mem_or_isEnd (h : Chain next isEnd a l) (hx : x ∈ l) :
    next x ∈ l ∨ isEnd (next x) := by
  obtain ⟨l₁, l₂, rfl⟩ := List.append_of_mem hx
  have hrest := h.next_of_append
  cases l₂ with
  | nil => exact .inr hrest
  | cons b l₂ =>
    rw [hrest.1]
    exact .inl (List.mem_append_right l₁ (List.mem_cons_of_mem x (List.mem_cons_self ..)))

end Chain

end Bsd386
