import Mathlib.Algebra.Order.Group.Nat

/-!
# Paths of a relation

Paths with their length, and what becomes of them when the relation gets one more edge: a cycle that
is new runs through the edge, and the way back to the edge's source needs no edge from there.
-/

namespace Bsd386

variable {α : Type*} {r r' : α → α → Prop} {n k : ℕ} {a b c p : α}

/-- A path of a relation, with the number of its edges. -/
inductive Path (r : α → α → Prop) : ℕ → α → α → Prop
  | nil (a : α) : Path r 0 a a
  | cons {n : ℕ} {a b c : α} (hstep : r a b) (h : Path r n b c) : Path r (n + 1) a c

namespace Path

theorem append (h : Path r n a b) (h' : Path r k b c) : Path r (n + k) a c := by
  induction h with
  | nil a => rwa [Nat.zero_add]
  | cons hstep _ ih =>
    rw [Nat.add_right_comm]
    exact .cons hstep (ih h')

theorem mono (hle : ∀ a b, r a b → r' a b) (h : Path r n a b) : Path r' n a b := by
  induction h with
  | nil a => exact .nil a
  | cons hstep _ ih => exact .cons (hle _ _ hstep) ih

/-- The first part of a path to `p` leaves from `p` nowhere. -/
theorem avoid (hrest : ∀ a b, a ≠ p → r' a b → r a b) (h : Path r' n a p) :
    ∃ k ≤ n, Path r k a p := by
  induction h with
  | nil a => exact ⟨0, le_rfl, .nil a⟩
  | @cons n a b p hstep _ ih =>
    by_cases ha : a = p
    · exact ⟨0, Nat.zero_le _, ha ▸ .nil a⟩
    · obtain ⟨k, hk, hpath⟩ := ih hrest
      exact ⟨k + 1, Nat.succ_le_succ hk, .cons (hrest a b ha hstep) hpath⟩

/-- A path uses only the edges that do not leave from `p`, or it runs through `p`. -/
theorem through (hrest : ∀ a b, a ≠ p → r' a b → r a b) (h : Path r' n a c) :
    Path r n a c ∨ ∃ i j, i + (j + 1) = n ∧ Path r' i a p ∧ Path r' (j + 1) p c := by
  induction h with
  | nil a => exact Or.inl (.nil a)
  | @cons n a b c hstep h ih =>
    by_cases ha : a = p
    · subst ha
      exact Or.inr ⟨0, n, Nat.zero_add _, .nil a, .cons hstep h⟩
    · rcases ih with hpath | ⟨i, j, rfl, hto, hfrom⟩
      · exact Or.inl (.cons (hrest a b ha hstep) hpath)
      · exact Or.inr ⟨i + 1, j, Nat.add_right_comm i 1 (j + 1), .cons hstep hto, hfrom⟩

/-- A cycle that appears with the only edge from `p` closes a path from the end of the edge back to
`p`. -/
theorem of_cycle (hrest : ∀ a b, a ≠ p → r' a b → r a b) (hedge : ∀ c, r' p c → c = b)
    (h : Path r' (n + 1) a a) : Path r (n + 1) a a ∨ ∃ k ≤ n, Path r k b p := by
  refine (h.through hrest).imp id ?_
  rintro ⟨i, j, hlength, hto, hfrom⟩
  have hcycle := hfrom.append hto
  have hsucc : j + 1 + i = n + 1 := by omega
  rw [hsucc] at hcycle
  cases hcycle with
  | cons hstep hback =>
    rw [hedge _ hstep] at hback
    exact hback.avoid hrest

end Path

end Bsd386
