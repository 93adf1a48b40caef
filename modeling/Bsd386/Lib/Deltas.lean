import Mathlib.Order.Lattice
import Mathlib.Algebra.Order.Ring.Int

/-!
# Delta queues

A queue of times, each given as the difference to the one before it. At the front may stand any
number of times that are over, each of which counts from now.
-/

namespace Bsd386.Deltas

variable {A : Type}

/-- The times from now on, when the part of the queue before comes to `base`. -/
def offsets (base : ℤ) : List (A × ℤ) → List (A × ℤ)
  | [] => []
  | (a, t) :: l => (a, base + t) :: offsets (base + max t 0) l

/-- Only the times at the front are negative. -/
def Ordered (base : ℤ) : List (A × ℤ) → Prop
  | [] => True
  | (_, t) :: l => (0 < base → 0 ≤ t) ∧ Ordered (base + max t 0) l

variable {a : A} {t base d : ℤ} {l : List (A × ℤ)}

@[simp]
theorem offsets_nil : offsets base ([] : List (A × ℤ)) = [] := rfl

theorem offsets_cons (base : ℤ) (x : A × ℤ) (l : List (A × ℤ)) :
    offsets base (x :: l) = (x.1, base + x.2) :: offsets (base + max x.2 0) l := rfl

theorem ordered_cons (base : ℤ) (x : A × ℤ) (l : List (A × ℤ)) :
    Ordered base (x :: l) ↔ (0 < base → 0 ≤ x.2) ∧ Ordered (base + max x.2 0) l := Iff.rfl

theorem offsets_cons_over (hover : t ≤ 0) :
    offsets base ((a, t) :: l) = (a, base + t) :: offsets base l := by
  rw [offsets_cons, max_eq_right hover, add_zero]

theorem offsets_cons_ahead (hahead : 0 ≤ t) :
    offsets base ((a, t) :: l) = (a, base + t) :: offsets (base + t) l := by
  rw [offsets_cons, max_eq_left hahead]

theorem ordered_cons_over (hover : t ≤ 0) :
    Ordered base ((a, t) :: l) ↔ (0 < base → 0 ≤ t) ∧ Ordered base l := by
  rw [ordered_cons, max_eq_right hover, add_zero]

theorem ordered_cons_ahead (hahead : 0 ≤ t) :
    Ordered base ((a, t) :: l) ↔ Ordered (base + t) l := by
  rw [ordered_cons, max_eq_left hahead]
  exact and_iff_right fun _ ↦ hahead

/-- All times move with the base. -/
theorem offsets_add : offsets (base + d) l = (offsets base l).map fun x ↦ (x.1, x.2 + d) := by
  induction l generalizing base with
  | nil => rfl
  | cons x l ih =>
    rw [offsets_cons, offsets_cons, List.map_cons, add_right_comm base d (max x.2 0), ih,
      add_right_comm base d x.2]

theorem map_fst_offsets : (offsets base l).map Prod.fst = l.map Prod.fst := by
  induction l generalizing base with
  | nil => rfl
  | cons x l ih => rw [offsets_cons, List.map_cons, List.map_cons, ih]

/-- Behind a time to come are no times that are over. -/
theorem le_of_mem_offsets (hbase : 0 < base) (hordered : Ordered base l) :
    ∀ x ∈ offsets base l, base ≤ x.2 := by
  induction l generalizing base with
  | nil => exact fun x hx ↦ absurd hx List.not_mem_nil
  | cons y l ih =>
    obtain ⟨a, t⟩ := y
    have ht : 0 ≤ t := hordered.1 hbase
    rw [ordered_cons_ahead ht] at hordered
    rw [offsets_cons_ahead ht]
    intro x hx
    rcases List.mem_cons.mp hx with rfl | hx
    · exact le_add_of_nonneg_right ht
    · have hrest := ih (by omega) hordered x hx
      omega

/-- The base of a part that is all ahead may be anything positive. -/
theorem Ordered.rebase {base' : ℤ} (hbase : 0 < base) (hordered : Ordered base l) :
    Ordered base' l := by
  induction l generalizing base base' with
  | nil => trivial
  | cons y l ih =>
    obtain ⟨a, t⟩ := y
    have ht : 0 ≤ t := hordered.1 hbase
    rw [ordered_cons_ahead ht] at hordered ⊢
    exact ih (by omega) hordered

end Bsd386.Deltas
