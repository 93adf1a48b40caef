import Mathlib.Data.List.Basic

/-!
# Machines with outputs

A machine takes inputs one after the other and answers each of them. A simulation between two
machines that holds as long as a condition is met makes their answers equal.
-/

namespace Bsd386.Machine

variable {σ τ ι ω : Type*}

/-- The answers to a list of inputs, and the state behind it. -/
def run (step : σ → ι → ω × σ) : List ι → σ → List ω × σ
  | [], s => ([], s)
  | i :: is, s => ((step s i).1 :: (run step is (step s i).2).1, (run step is (step s i).2).2)

/-- A condition that is met at each step of two machines that get the same inputs. -/
def Along (f : σ → ι → ω × σ) (g : τ → ι → ω × τ) (p : σ → τ → ι → Prop) : List ι → σ → τ → Prop
  | [], _, _ => True
  | i :: is, s, t => p s t i ∧ Along f g p is (f s i).2 (g t i).2

variable {f : σ → ι → ω × σ} {g : τ → ι → ω × τ} {p : σ → τ → ι → Prop} {r : σ → τ → Prop}

/-- A simulation under a condition makes the runs agree that meet it. -/
theorem run_eq_of_simulation
    (hstep : ∀ s t i, r s t → p s t i → (f s i).1 = (g t i).1 ∧ r (f s i).2 (g t i).2) (is : List ι)
    {s : σ} {t : τ} (hr : r s t) (hp : Along f g p is s t) :
    (run f is s).1 = (run g is t).1 ∧ r (run f is s).2 (run g is t).2 := by
  induction is generalizing s t with
  | nil => exact ⟨rfl, hr⟩
  | cons i is ih =>
    obtain ⟨hanswer, hr'⟩ := hstep s t i hr hp.1
    obtain ⟨hanswers, hend⟩ := ih hr' hp.2
    exact ⟨congrArg₂ List.cons hanswer hanswers, hend⟩

/-! ## Conditions on the steps -/

/-- A condition on each step of a run. -/
def Each (f : σ → ι → ω × σ) (p : σ → ι → Prop) : List ι → σ → Prop
  | [], _ => True
  | i :: is, s => p s i ∧ Each f p is (f s i).2

variable {c p q : σ → ι → Prop}

/-- A condition that always holds. -/
theorem each_of_forall (hp : ∀ s i, p s i) (is : List ι) (s : σ) : Each f p is s := by
  induction is generalizing s with
  | nil => exact trivial
  | cons i is ih => exact ⟨hp s i, ih _⟩

/-- A condition that every input of a run meets. -/
theorem each_of_mem {is : List ι} (hp : ∀ i ∈ is, ∀ s, p s i) (s : σ) : Each f p is s := by
  induction is generalizing s with
  | nil => exact trivial
  | cons i is ih =>
    exact ⟨hp i List.mem_cons_self s, ih (fun j hj ↦ hp j (List.mem_cons_of_mem i hj)) _⟩

/-- Under a condition on the steps, two properties agree on runs if they agree where an invariant
holds that the second one keeps. -/
theorem each_iff (inv : σ → Prop) (hiff : ∀ s i, inv s → c s i → (p s i ↔ q s i))
    (hinv : ∀ s i, inv s → c s i → q s i → inv (f s i).2) (is : List ι) {s : σ} (hs : inv s)
    (hc : Each f c is s) : Each f p is s ↔ Each f q is s := by
  induction is generalizing s with
  | nil => rfl
  | cons i is ih =>
    rw [Each, Each, hiff s i hs hc.1]
    exact and_congr_right fun hq ↦ ih (hinv s i hs hc.1 hq) hc.2

/-- Under a condition on the steps, a property holds along a run if it holds where an invariant does
that the steps keep. -/
theorem each_of_invariant (inv : σ → Prop) (hp : ∀ s i, inv s → c s i → p s i)
    (hinv : ∀ s i, inv s → c s i → inv (f s i).2) (is : List ι) {s : σ} (hs : inv s)
    (hc : Each f c is s) : Each f p is s := by
  induction is generalizing s with
  | nil => exact trivial
  | cons i is ih => exact ⟨hp s i hs hc.1, ih (hinv s i hs hc.1) hc.2⟩

/-- A property of the state behind each step holds at the end of a run. -/
theorem Each.last {q : σ → Prop} {s : σ} (hq : q s) {is : List ι}
    (heach : Each f (fun s i ↦ q (f s i).2) is s) :
    q (run f is s).2 := by
  induction is generalizing s with
  | nil => exact hq
  | cons i is ih => exact ih heach.1 heach.2

end Bsd386.Machine
