import Mathlib.Init

/-!
# Partial correctness

What holds after a stateful computation that may fail, if it returns. The condition before a
computation that makes a condition true after it is computed along the program: one equation for
each way to put programs together.
-/

namespace Bsd386

universe u

variable {σ ε α β : Type u}

/-- A sequence that returns has returned at each step. -/
theorem exists_of_bind_ok {x : Except ε α} {f : α → Except ε β} {b : β}
    (hok : (x >>= f) = .ok b) : ∃ a, x = .ok a ∧ f a = .ok b := by
  cases x with
  | error e => cases hok
  | ok a => exact ⟨a, rfl, hok⟩

theorem exists_of_map_ok {x : Except ε α} {f : α → β} {b : β} (hok : x.map f = .ok b) :
    ∃ a, x = .ok a ∧ f a = b := by
  cases x with
  | error e => cases hok
  | ok a => exact ⟨a, rfl, Except.ok.inj hok⟩

/-- A loop over numbers that follow each other returns if each turn does. -/
theorem exists_foldlM_range' {f : β → Nat → Option β} (inv : Nat → β → Prop) {n : Nat} {s : Nat}
    {b : β} (hb : inv s b)
    (hstep : ∀ i b, s ≤ i → i < s + n → inv i b → ∃ b', f b i = some b' ∧ inv (i + 1) b') :
    ∃ b', (List.range' s n).foldlM f b = some b' ∧ inv (s + n) b' := by
  induction n generalizing s b with
  | zero => exact ⟨b, rfl, hb⟩
  | succ n ih =>
    obtain ⟨b', hf, hb'⟩ := hstep s b (Nat.le_refl s) (Nat.lt_add_of_pos_right n.succ_pos) hb
    obtain ⟨b'', hrest, hb''⟩ := ih hb' fun i b hi hlt ↦
      hstep i b (Nat.le_of_succ_le hi) (by rw [Nat.succ_add] at hlt; exact hlt)
    refine ⟨b'', ?_, by rw [Nat.succ_add] at hb''; exact hb''⟩
    rw [List.range'_succ, List.foldlM_cons, hf]
    exact hrest

/-- What is read at numbers that follow each other is a list. -/
theorem mapM_range'_eq {f : Nat → Option α} {out : List α} (s : Nat)
    (hf : ∀ j x, out[j]? = some x → f (s + j) = some x) :
    (List.range' s out.length).mapM f = some out := by
  induction out generalizing s with
  | nil => rfl
  | cons x out ih =>
    have hfirst : f s = some x := hf 0 x rfl
    rw [List.length_cons, List.range'_succ, List.mapM_cons, hfirst]
    have hrest := ih (s + 1) fun j y hy ↦ by
      rw [Nat.add_assoc, Nat.add_comm 1]
      exact hf (j + 1) y hy
    rw [hrest]
    rfl

/-- If the computation returns, the condition holds of what it returns and of the state then. -/
def Ensures (x : StateT σ (Except ε) α) (Q : α → σ → Prop) (s : σ) : Prop :=
  ∀ a s', x s = .ok (a, s') → Q a s'

namespace Ensures

variable {x : StateT σ (Except ε) α} {f : α → StateT σ (Except ε) β} {Q R : α → σ → Prop}
  {P : β → σ → Prop} {s : σ}

@[simp]
theorem pure_iff {a : α} : Ensures (pure a : StateT σ (Except ε) α) Q s ↔ Q a s := by
  constructor
  · intro h
    exact h a s rfl
  · intro h b s' hok
    cases hok
    exact h

@[simp]
theorem bind_iff : Ensures (x >>= f) P s ↔ Ensures x (fun a s' ↦ Ensures (f a) P s') s := by
  constructor
  · intro h a s' hx b s'' hf
    apply h b s''
    calc (x >>= f) s = (x s >>= fun p ↦ f p.1 p.2) := rfl
      _ = f a s' := by rw [hx]; rfl
      _ = .ok (b, s'') := hf
  · intro h b s'' hok
    have hbind : (x s >>= fun p ↦ f p.1 p.2) = .ok (b, s'') := hok
    cases hx : x s with
    | error e =>
      rw [hx] at hbind
      cases hbind
    | ok p =>
      rw [hx] at hbind
      exact h p.1 p.2 hx b s'' hbind

@[simp]
theorem throw_iff {e : ε} : Ensures (throw e : StateT σ (Except ε) α) Q s ↔ True := by
  constructor
  · intro _
    trivial
  · intro _ a s' hok
    cases hok

@[simp]
theorem get_iff {Q : σ → σ → Prop} : Ensures (get : StateT σ (Except ε) σ) Q s ↔ Q s s :=
  pure_iff (a := s)

@[simp]
theorem modify_iff {Q : PUnit → σ → Prop} {g : σ → σ} :
    Ensures (modify g : StateT σ (Except ε) PUnit) Q s ↔ Q ⟨⟩ (g s) := by
  constructor
  · intro h
    exact h ⟨⟩ (g s) rfl
  · intro h a s' hok
    cases hok
    exact h

/-- A computation that does not look at the state. -/
@[simp]
theorem lift_iff {y : Except ε α} :
    Ensures (StateT.lift y : StateT σ (Except ε) α) Q s ↔ ∀ a, y = .ok a → Q a s := by
  cases y with
  | error e =>
    constructor
    · intro _ a hok
      cases hok
    · intro _ a s' hok
      cases hok
  | ok b =>
    constructor
    · intro h a hok
      cases hok
      exact h b s rfl
    · intro h a s' hok
      cases hok
      exact h b rfl

@[simp]
theorem ite_iff {c : Prop} [Decidable c] {y : StateT σ (Except ε) α} :
    Ensures (if c then x else y) Q s ↔ (c → Ensures x Q s) ∧ (¬ c → Ensures y Q s) := by
  by_cases hc : c
  · rw [if_pos hc]
    exact ⟨fun h ↦ ⟨fun _ ↦ h, fun hn ↦ absurd hc hn⟩, fun h ↦ h.1 hc⟩
  · rw [if_neg hc]
    exact ⟨fun h ↦ ⟨fun hp ↦ absurd hp hc, fun _ ↦ h⟩, fun h ↦ h.2 hc⟩

/-- The rule for a sequence, with a condition for the state between. -/
theorem bind (h : Ensures x Q s) (hf : ∀ a s', Q a s' → Ensures (f a) P s') :
    Ensures (x >>= f) P s :=
  bind_iff.2 fun a s' hok ↦ hf a s' (h a s' hok)

theorem mono (h : Ensures x Q s) (hQR : ∀ a s', Q a s' → R a s') : Ensures x R s :=
  fun a s' hok ↦ hQR a s' (h a s' hok)

theorem any : Ensures x (fun _ _ ↦ True) s := fun _ _ _ ↦ trivial

theorem and (h : Ensures x Q s) (h' : Ensures x R s) : Ensures x (fun a s' ↦ Q a s' ∧ R a s') s :=
  fun a s' hok ↦ ⟨h a s' hok, h' a s' hok⟩

end Ensures

end Bsd386
