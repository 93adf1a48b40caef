import Mathlib.Data.List.Count
import Mathlib.Data.List.Nodup
import Mathlib.Logic.Function.Basic

/-!
# Counting

How many members of a list have a property that changes for one of them.
-/

namespace Bsd386

variable {A : Type*} [DecidableEq A]

/-- One member more or less has the property. -/
theorem countP_update {l : List A} (hnodup : l.Nodup) {p : A → Bool} {a : A} (hmem : a ∈ l)
    (b : Bool) :
    l.countP (Function.update p a b) + (p a).toNat = l.countP p + b.toNat := by
  induction l with
  | nil => cases hmem
  | cons f l ih =>
    obtain ⟨hnew, hrest⟩ := List.nodup_cons.mp hnodup
    rw [List.countP_cons, List.countP_cons]
    by_cases hf : a = f
    · subst hf
      have hsame : l.countP (Function.update p a b) = l.countP p := by
        apply List.countP_congr
        intro c hc
        have hca : c ≠ a := fun h ↦ hnew (h ▸ hc)
        rw [Function.update_of_ne hca]
      rw [hsame, Function.update_self]
      cases b <;> cases p a <;> simp
    · have htail : a ∈ l := (List.mem_cons.mp hmem).resolve_left hf
      have hthis := ih hrest htail
      rw [Function.update_of_ne (Ne.symm hf)]
      omega

end Bsd386
