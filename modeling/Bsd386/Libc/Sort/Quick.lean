import Bsd386.Libc.Sort.Insertion

/-!
# Quicksort

In front of the place to which `bot` has come no element is larger than the one in the middle, and
behind `top` none is smaller. The middle element may be swapped to either end of what is left. When
nothing is left, what is in front of it and what is behind it are sorted on their own, the smaller
one of them by a nested call.
-/

namespace Bsd386.Libc.Sort

variable {α : Type*} {job : Job} {val : α → List Byte} {X Z A B U V L S W R : List α} {x y z v : α}
  {i j n bot mid top fuel depth : ℕ}

/-! ## Scans -/

/-- The loop over `bot` passes the elements that are not larger. -/
theorem scanUp_spec (fuel : ℕ) (h : Layout job val)
    (hl : (W ++ (U ++ x :: R)).length ≤ job.nmemb) (hfuel : U.length < fuel) :
    ∃ U₁ U₂, U = U₁ ++ U₂ ∧ (∀ u ∈ U₁, job.cmp val u x ≤ 0) ∧
      (∀ u ∈ U₂.head?, 0 < job.cmp val u x) ∧
      scanUp job (addr job (W.length + U.length)) fuel (addr job W.length)
        (bytes val (W ++ (U ++ x :: R))) = some (addr job (W.length + U₁.length)) := by
  induction U generalizing W fuel with
  | nil =>
    obtain ⟨fuel, rfl⟩ := Nat.exists_eq_succ_of_ne_zero (Nat.ne_of_gt hfuel)
    refine ⟨[], [], rfl, fun u hu ↦ absurd hu List.not_mem_nil, fun u hu ↦ absurd hu (by simp), ?_⟩
    rw [scanUp, List.length_nil, Nat.add_zero, if_neg (Nat.lt_irrefl _)]
  | cons u U ih =>
    obtain ⟨fuel, rfl⟩ := Nat.exists_eq_succ_of_ne_zero (Nat.ne_of_gt (Nat.zero_lt_of_lt hfuel))
    rw [List.length_cons] at hfuel
    have hless : addr job W.length < addr job (W.length + (u :: U).length) :=
      h.addr_lt (by rw [List.length_cons]; omega)
    have hroom : W.length < job.nmemb := by
      simp only [List.length_append, List.length_cons] at hl
      omega
    have hu : (W ++ (u :: U ++ x :: R))[W.length]? = some u := by
      rw [List.cons_append, getElem?_middle]
    have hx : (W ++ (u :: U ++ x :: R))[W.length + (u :: U).length]? = some x := by
      rw [← List.append_assoc, ← List.length_append, getElem?_middle]
    rw [scanUp, if_pos hless, h.call_eq hl hu hx, Option.bind_some, h.forward_size hroom]
    by_cases hle : job.compar (val u) (val x) ≤ 0
    · rw [if_pos hle]
      have hshape : W ++ (u :: U ++ x :: R) = (W ++ [u]) ++ (U ++ x :: R) := by
        rw [List.append_assoc, List.singleton_append, List.cons_append]
      have hlength (k : ℕ) : (W ++ [u]).length + k = W.length + (k + 1) := by
        rw [List.length_append, List.length_singleton]
        omega
      obtain ⟨U₁, U₂, hU, hpassed, hstop, hrun⟩ := ih (W := W ++ [u]) fuel
        (by rw [← hshape]; exact hl) (Nat.lt_of_succ_lt_succ hfuel)
      have hstart : (W ++ [u]).length = W.length + 1 := hlength 0
      rw [← hshape, hlength, hlength, hstart] at hrun
      refine ⟨u :: U₁, U₂, by rw [hU]; rfl, List.forall_mem_cons.mpr ⟨hle, hpassed⟩, hstop, hrun⟩
    · rw [if_neg hle]
      refine ⟨[], u :: U, rfl, fun u hu ↦ absurd hu List.not_mem_nil, fun u' hu' ↦ ?_, rfl⟩
      rw [← Option.some_inj.mp hu']
      exact Int.not_le.mp hle

/-- The loop over `top` passes the elements that are not smaller. -/
theorem scanDown_spec (fuel : ℕ) (h : Layout job val)
    (hl : (W ++ x :: (V ++ R)).length ≤ job.nmemb) (hfuel : V.length < fuel) :
    ∃ V₁ V₂, V = V₁ ++ V₂ ∧ (∀ v ∈ V₂, job.cmp val x v ≤ 0) ∧
      (∀ v ∈ V₁.getLast?, 0 < job.cmp val x v) ∧
      scanDown job (addr job W.length) fuel (addr job (W.length + V.length))
        (bytes val (W ++ x :: (V ++ R))) = some (addr job (W.length + V₁.length)) := by
  induction V using List.reverseRecOn generalizing R fuel with
  | nil =>
    obtain ⟨fuel, rfl⟩ := Nat.exists_eq_succ_of_ne_zero (Nat.ne_of_gt hfuel)
    refine ⟨[], [], rfl, fun v hv ↦ absurd hv List.not_mem_nil, fun v hv ↦ absurd hv (by simp), ?_⟩
    rw [scanDown, List.length_nil, Nat.add_zero, if_neg (Nat.lt_irrefl _)]
  | append_singleton V v ih =>
    obtain ⟨fuel, rfl⟩ := Nat.exists_eq_succ_of_ne_zero (Nat.ne_of_gt (Nat.zero_lt_of_lt hfuel))
    rw [List.length_append, List.length_singleton] at hfuel
    have hshape : W ++ x :: (V ++ [v] ++ R) = W ++ x :: (V ++ (v :: R)) := by
      rw [List.append_assoc, List.singleton_append]
    have hlength : W.length + (V ++ [v]).length = W.length + V.length + 1 := by
      rw [List.length_append, List.length_singleton, Nat.add_assoc]
    rw [hshape] at hl
    have hroom : W.length + V.length < job.nmemb := by
      simp only [List.length_append, List.length_cons] at hl
      omega
    have hx : (W ++ x :: (V ++ (v :: R)))[W.length]? = some x := getElem?_middle
    have hv : (W ++ x :: (V ++ (v :: R)))[W.length + V.length + 1]? = some v := by
      have hplace : W.length + V.length + 1 = (W ++ x :: V).length := by
        rw [List.length_append, List.length_cons, Nat.add_assoc]
      rw [hplace, ← List.cons_append, ← List.append_assoc, getElem?_middle]
    rw [hlength, hshape, scanDown, if_pos (h.addr_lt (by omega)), h.call_eq hl hx hv,
      Option.bind_some, h.back_addr hroom]
    by_cases hle : job.compar (val x) (val v) ≤ 0
    · rw [if_pos hle]
      obtain ⟨V₁, V₂, hV, hpassed, hstop, hrun⟩ := ih (R := v :: R) fuel hl
        (Nat.lt_of_succ_lt_succ hfuel)
      refine ⟨V₁, V₂ ++ [v], by rw [hV, List.append_assoc], fun v' hv' ↦ ?_, hstop, hrun⟩
      rcases List.mem_append.mp hv' with hmem | hmem
      · exact hpassed v' hmem
      · rw [List.mem_singleton.mp hmem]
        exact hle
    · rw [if_neg hle]
      refine ⟨V ++ [v], [], (List.append_nil _).symm, fun v hv ↦ absurd hv List.not_mem_nil,
        fun v' hv' ↦ ?_, by rw [hlength]⟩
      rw [List.getLast?_concat, Option.mem_some_iff] at hv'
      rw [← hv']
      exact Int.not_le.mp hle

/-! ## The partition -/

/-- The scans of a turn. -/
theorem scans_spec (n : ℕ) (h : Layout job val)
    (hl : (X ++ (U ++ x :: (V ++ Z))).length ≤ job.nmemb) (hn : U.length + V.length ≤ n) :
    ∃ U₁ U₂ V₁ V₂, U = U₁ ++ U₂ ∧ V = V₁ ++ V₂ ∧ (∀ u ∈ U₁, job.cmp val u x ≤ 0) ∧
      (∀ v ∈ V₂, job.cmp val x v ≤ 0) ∧ (∀ u ∈ U₂.head?, 0 < job.cmp val u x) ∧
      (∀ v ∈ V₁.getLast?, 0 < job.cmp val x v) ∧
      scanUp job (addr job (X.length + U.length)) (n + 1) (addr job X.length)
        (bytes val (X ++ (U ++ x :: (V ++ Z)))) = some (addr job (X.length + U₁.length)) ∧
      scanDown job (addr job (X.length + U.length)) (n + 1)
        (addr job (X.length + U.length + V.length)) (bytes val (X ++ (U ++ x :: (V ++ Z)))) =
          some (addr job (X.length + U.length + V₁.length)) := by
  have hdown : X ++ (U ++ x :: (V ++ Z)) = (X ++ U) ++ x :: (V ++ Z) := by
    rw [List.append_assoc]
  obtain ⟨U₁, U₂, hU, hpassed, hstop, hscan⟩ := scanUp_spec (n + 1) h hl (by omega)
  obtain ⟨V₁, V₂, hV, hpassed', hstop', hscan'⟩ := scanDown_spec (n + 1) h (hdown ▸ hl) (by omega)
  rw [← hdown, List.length_append] at hscan'
  exact ⟨U₁, U₂, V₁, V₂, hU, hV, hpassed, hpassed', hstop, hstop', hscan, hscan'⟩

/-- An exchange in memory of any shape. -/
theorem swap_shape {P Q S T R : List α} {p q : ℕ} (h : Layout job val)
    (hl : T.length ≤ job.nmemb) (hT : T = P ++ y :: (Q ++ z :: S))
    (hR : R = P ++ z :: (Q ++ y :: S)) (hp : p = P.length) (hq : q = P.length + 1 + Q.length) :
    swap job job.size (addr job p) (addr job q) (bytes val T) = some (bytes val R) := by
  subst hT hR hp hq
  exact h.swap_eq hl

/-- A run divides a part by an element of it. -/
def Divides (job : Job) (val : α → List Byte) (X U : List α) (x : α) (V Z : List α)
    (run : Option (ℕ × Bool × List Byte)) : Prop :=
  ∃ A B didswap, run =
      some (addr job (X.length + A.length), didswap, bytes val (X ++ (A ++ x :: (B ++ Z)))) ∧
    (A ++ x :: B).Perm (U ++ x :: V) ∧ (∀ a ∈ A, job.cmp val a x ≤ 0) ∧
    ∀ b ∈ B, job.cmp val x b ≤ 0

/-- What has been passed on either side belongs to the division. -/
theorem Divides.extend {P S U' V' : List α} {run : Option (ℕ × Bool × List Byte)}
    (h : Divides job val (X ++ P) U' x V' (S ++ Z) run) (hP : ∀ p ∈ P, job.cmp val p x ≤ 0)
    (hS : ∀ s ∈ S, job.cmp val x s ≤ 0) (hperm : (P ++ ((U' ++ x :: V') ++ S)).Perm (U ++ x :: V)) :
    Divides job val X U x V Z run := by
  obtain ⟨A, B, didswap, hrun, hall, hbelow, habove⟩ := h
  refine ⟨P ++ A, B ++ S, didswap, ?_, ?_, ?_, ?_⟩
  · rw [hrun]
    simp only [List.length_append, List.append_assoc, Nat.add_assoc]
  · have hshape : P ++ A ++ x :: (B ++ S) = P ++ ((A ++ x :: B) ++ S) := by
      simp only [List.append_assoc, List.cons_append]
    rw [hshape]
    exact ((hall.append_right S).append_left P).trans hperm
  · exact fun a ha ↦ (List.mem_append.mp ha).elim (hP a) (hbelow a)
  · exact fun b hb ↦ (List.mem_append.mp hb).elim (habove b) (hS b)

/-- The partition divides the elements. -/
theorem partition_spec (didswap : Bool) (n fuel : ℕ) (h : Layout job val)
    (hpre : Preordered job val) (hl : (X ++ (U ++ x :: (V ++ Z))).length ≤ job.nmemb)
    (hn : U.length + V.length ≤ n) (hfuel : U.length + V.length < fuel) :
    Divides job val X U x V Z (partition job n fuel (addr job X.length)
      (addr job (X.length + U.length)) (addr job (X.length + U.length + V.length)) didswap
      (bytes val (X ++ (U ++ x :: (V ++ Z))))) := by
  induction fuel generalizing X U V Z didswap with
  | zero => exact absurd hfuel (Nat.not_lt_zero _)
  | succ fuel ih =>
    obtain ⟨U₁, U₂, V₁, V₂, rfl, rfl, hpassed, hpassed', hstop, hstop', hscan, hscan'⟩ :=
      scans_spec n h hl hn
    have hroom : X.length + (U₁ ++ U₂).length + (V₁ ++ V₂).length + 1 ≤ job.nmemb := by
      simp only [List.length_append, List.length_cons] at hl ⊢
      omega
    rw [partition, hscan, Option.bind_some, hscan', Option.bind_some]
    rw [List.length_append, List.length_append] at hn hfuel hroom
    have hhigh (v : α) (hv : v ∈ V₁.getLast?) : job.cmp val v x ≤ 0 :=
      Int.le_of_lt ((hpre.lt_iff v x).mpr (hstop' v hv))
    have hlow (u : α) (hu : u ∈ U₂.head?) : job.cmp val x u ≤ 0 :=
      Int.le_of_lt ((hpre.lt_iff x u).mpr (hstop u hu))
    rcases List.eq_nil_or_concat' V₁ with rfl | ⟨V₁, v, rfl⟩
    · -- no smaller element is left behind the middle one
      rw [List.length_nil, Nat.add_zero, if_neg (Nat.lt_irrefl _)]
      cases U₂ with
      | nil =>
        rw [List.append_nil, if_pos rfl]
        exact ⟨U₁, V₂, didswap, rfl, List.Perm.refl _, hpassed, hpassed'⟩
      | cons u U₂ =>
        rw [List.length_cons] at hn hfuel hroom
        have hmid : X.length + (U₁ ++ u :: U₂).length = X.length + U₁.length + U₂.length + 1 := by
          simp only [List.length_append, List.length_cons]
          omega
        have hstart : (X ++ U₁).length = X.length + U₁.length := List.length_append
        have hne : addr job (X.length + U₁.length) ≠
            addr job (X.length + U₁.length + U₂.length + 1) := by
          rw [ne_eq, h.addr_inj]
          omega
        have hswap := swap_shape (P := X ++ U₁) (Q := U₂) (S := V₂ ++ Z) (y := u) (z := x)
          (R := (X ++ U₁) ++ ([] ++ x :: (U₂ ++ (u :: V₂ ++ Z))))
          (p := X.length + U₁.length) (q := X.length + U₁.length + U₂.length + 1) h hl
          (by simp) (by simp) (by simp) (by simp; omega)
        have hturn := ih (X := X ++ U₁) (U := []) (V := U₂) (Z := u :: V₂ ++ Z) true
          (by simp only [List.length_append, List.length_cons] at hl ⊢; simp; omega)
          (by simp; omega) (by simp; omega)
        rw [List.length_nil, Nat.add_zero, hstart] at hturn
        rw [hmid, if_neg hne, hswap, Option.bind_some, h.back_addr (by omega)]
        refine hturn.extend hpassed (List.forall_mem_cons.mpr ⟨hlow u rfl, hpassed'⟩) ?_
        classical
        rw [List.perm_iff_count]
        intro a
        simp only [List.count_append, List.count_cons, List.count_nil]
        omega
    · -- a smaller one is swapped to the front
      rw [List.length_append, List.length_singleton] at hn hfuel hroom
      have hv := hhigh v (by rw [List.getLast?_concat]; rfl)
      have hpassed'' : ∀ a ∈ U₁ ++ [v], job.cmp val a x ≤ 0 := by
        intro a ha
        rcases List.mem_append.mp ha with ha | ha
        · exact hpassed a ha
        · rw [List.mem_singleton.mp ha]
          exact hv
      have htop : X.length + (U₁ ++ U₂).length + (V₁ ++ [v]).length =
          X.length + (U₁ ++ U₂).length + V₁.length + 1 := by
        simp only [List.length_append, List.length_singleton]
        omega
      have hstart : (X ++ (U₁ ++ [v])).length = X.length + U₁.length + 1 := by
        simp only [List.length_append, List.length_singleton]
        omega
      rw [htop, if_pos (h.addr_lt (by omega)), h.forward_size (by omega)]
      cases U₂ with
      | nil =>
        have hmid : X.length + (U₁ ++ []).length = X.length + U₁.length := by
          rw [List.append_nil]
        have hswap := swap_shape (P := X ++ U₁) (Q := V₁) (S := V₂ ++ Z) (y := x) (z := v)
          (R := (X ++ (U₁ ++ [v])) ++ (V₁ ++ x :: ([] ++ (V₂ ++ Z))))
          (p := X.length + U₁.length) (q := X.length + U₁.length + V₁.length + 1) h hl
          (by simp) (by simp) (by simp) (by simp; omega)
        have hturn := ih (X := X ++ (U₁ ++ [v])) (U := V₁) (V := []) (Z := V₂ ++ Z) true
          (by simp only [List.length_append, List.length_cons] at hl ⊢; simp at hl ⊢; omega)
          (by simp; omega) (by simp; omega)
        have hlast : X.length + U₁.length + 1 + V₁.length = X.length + U₁.length + V₁.length + 1 :=
          Nat.add_right_comm _ _ _
        rw [List.length_nil, Nat.add_zero, hstart, hlast] at hturn
        rw [hmid, hswap, Option.bind_some, if_pos rfl]
        refine hturn.extend hpassed'' hpassed' ?_
        classical
        rw [List.perm_iff_count]
        intro a
        simp only [List.count_append, List.count_cons, List.count_nil]
        omega
      | cons u U₂ =>
        rw [List.length_cons] at hn hfuel hroom
        have hmid : X.length + (U₁ ++ u :: U₂).length = X.length + U₁.length + 1 + U₂.length := by
          simp only [List.length_append, List.length_cons]
          omega
        have hne : addr job (X.length + U₁.length) ≠
            addr job (X.length + U₁.length + 1 + U₂.length) := by
          rw [ne_eq, h.addr_inj]
          omega
        have hswap := swap_shape (P := X ++ U₁) (Q := U₂ ++ x :: V₁) (S := V₂ ++ Z) (y := u)
          (z := v) (R := (X ++ (U₁ ++ [v])) ++ (U₂ ++ x :: (V₁ ++ (u :: V₂ ++ Z))))
          (p := X.length + U₁.length) (q := X.length + U₁.length + 1 + U₂.length + V₁.length + 1)
          h hl (by simp) (by simp) (by simp) (by simp; omega)
        have hturn := ih (X := X ++ (U₁ ++ [v])) (U := U₂) (V := V₁) (Z := u :: V₂ ++ Z) true
          (by simp only [List.length_append, List.length_cons] at hl ⊢; simp at hl ⊢; omega)
          (by omega) (by omega)
        rw [hstart] at hturn
        rw [hmid, hswap, Option.bind_some, if_neg hne, h.back_addr (by omega)]
        refine hturn.extend hpassed'' (List.forall_mem_cons.mpr ⟨hlow u rfl, hpassed'⟩) ?_
        classical
        rw [List.perm_iff_count]
        intro a
        simp only [List.count_append, List.count_cons, List.count_nil]
        omega

/-- In elements that are divided already nothing is swapped. -/
theorem partition_divided (didswap : Bool) (n fuel : ℕ) (h : Layout job val)
    (hl : (X ++ (U ++ x :: (V ++ Z))).length ≤ job.nmemb)
    (hU : ∀ u ∈ U, job.cmp val u x ≤ 0) (hV : ∀ v ∈ V, job.cmp val x v ≤ 0)
    (hn : U.length + V.length ≤ n) :
    partition job n (fuel + 1) (addr job X.length) (addr job (X.length + U.length))
        (addr job (X.length + U.length + V.length)) didswap
        (bytes val (X ++ (U ++ x :: (V ++ Z)))) =
      some (addr job (X.length + U.length), didswap, bytes val (X ++ (U ++ x :: (V ++ Z)))) := by
  have hdown : X ++ (U ++ x :: (V ++ Z)) = (X ++ U) ++ x :: (V ++ Z) := by
    rw [List.append_assoc]
  obtain ⟨U₁, U₂, hsplit, -, hstop, hscan⟩ := scanUp_spec (n + 1) h hl (by omega)
  obtain ⟨V₁, V₂, hsplit', -, hstop', hscan'⟩ := scanDown_spec (n + 1) h (hdown ▸ hl) (by omega)
  have hU₂ : U₂ = [] := by
    cases U₂ with
    | nil => rfl
    | cons u U₂ =>
      have hle := hU u (by rw [hsplit]; exact List.mem_append_right U₁ List.mem_cons_self)
      exact absurd (hstop u rfl) (Int.not_lt.mpr hle)
  have hV₁ : V₁ = [] := by
    rcases List.eq_nil_or_concat' V₁ with hnil | ⟨V₁', v, rfl⟩
    · exact hnil
    · have hle := hV v (by
        rw [hsplit']
        exact List.mem_append_left V₂ (List.mem_append_right V₁' List.mem_cons_self))
      exact absurd (hstop' v (by rw [List.getLast?_concat]; rfl)) (Int.not_lt.mpr hle)
  rw [hU₂, List.append_nil] at hsplit
  rw [← hdown, List.length_append, hV₁, List.length_nil, Nat.add_zero] at hscan'
  rw [partition, hscan, Option.bind_some, hscan', Option.bind_some, Nat.add_zero,
    if_neg (Nat.lt_irrefl _), ← hsplit, if_pos rfl]

/-! ## The median -/

/-- Two elements of a part are exchanged. -/
theorem swap_set (h : Layout job val) (hl : (X ++ (L ++ Z)).length ≤ job.nmemb)
    (hi : i < L.length) (hj : j < L.length) (hne : i ≠ j) :
    swap job job.size (addr job (X.length + i)) (addr job (X.length + j))
        (bytes val (X ++ (L ++ Z))) =
      some (bytes val (X ++ ((L.set i L[j]).set j L[i] ++ Z))) := by
  have hlt {i j : ℕ} (hij : i < j) (hi : i < L.length) (hj : j < L.length) :
      swap job job.size (addr job (X.length + i)) (addr job (X.length + j))
        (bytes val (X ++ (L ++ Z))) =
          some (bytes val (X ++ ((L.set i L[j]).set j L[i] ++ Z))) := by
    have hrest : j - (i + 1) < (L.drop (i + 1)).length := by
      rw [List.length_drop]
      omega
    obtain ⟨A, B, D, hA, hB, hL⟩ : ∃ A B D, A.length = i ∧ B.length = j - (i + 1) ∧
        L = A ++ L[i] :: (B ++ L[j] :: D) := by
      refine ⟨L.take i, (L.drop (i + 1)).take (j - (i + 1)),
        (L.drop (i + 1)).drop (j - (i + 1) + 1), ?_, ?_, ?_⟩
      · rw [List.length_take]
        omega
      · rw [List.length_take]
        omega
      · have hget : (L.drop (i + 1))[j - (i + 1)] = L[j] := by
          rw [List.getElem_drop]
          congr 1
          omega
        rw [← hget, ← List.drop_eq_getElem_cons hrest, List.take_append_drop,
          ← List.drop_eq_getElem_cons hi, List.take_append_drop]
    generalize L[i] = x at *
    generalize L[j] = y at *
    have hplace : j = (A ++ y :: B).length := by
      rw [List.length_append, List.length_cons]
      omega
    have hset : (L.set i y).set j x = A ++ y :: (B ++ x :: D) := by
      rw [hL, ← hA, List.set_append_right _ _ (Nat.le_refl _), Nat.sub_self, List.set_cons_zero,
        ← List.cons_append, ← List.append_assoc, hplace,
        List.set_append_right _ _ (Nat.le_refl _), Nat.sub_self, List.set_cons_zero,
        List.append_assoc, List.cons_append]
    have hshape (x y : α) : X ++ (A ++ x :: (B ++ y :: D) ++ Z) =
        (X ++ A) ++ x :: (B ++ y :: (D ++ Z)) := by
      simp only [List.append_assoc, List.cons_append]
    have hswap := h.swap_eq (X := X ++ A) (x := x) (y := y) (Y := B) (Z := D ++ Z)
      (by rw [← hshape, ← hL]; exact hl)
    have hj' : (X ++ A).length + 1 + B.length = X.length + j := by
      rw [List.length_append]
      omega
    rw [← hshape, ← hshape, ← hL, hj', List.length_append, hA] at hswap
    rw [hset]
    exact hswap
  rcases Nat.lt_or_gt_of_ne hne with hij | hij
  · exact hlt hij hi hj
  · rw [swap_comm, hlt hij hj hi, List.set_comm _ _ hne]

theorem getElem?_part (hi : i < L.length) : (X ++ (L ++ Z))[X.length + i]? = some L[i] := by
  rw [List.getElem?_append_right (Nat.le_add_right _ _), Nat.add_sub_cancel_left,
    List.getElem?_append_left hi, List.getElem?_eq_getElem hi]

/-- The median permutes the elements. -/
theorem median_spec (h : Layout job val) (hl : (X ++ (L ++ Z)).length ≤ job.nmemb)
    (hpos : 2 ≤ L.length) :
    ∃ L', median job (addr job X.length) (addr job (X.length + L.length / 2))
        (addr job (X.length + (L.length - 1))) L.length (bytes val (X ++ (L ++ Z))) =
      some (bytes val (X ++ (L' ++ Z))) ∧ L'.Perm L := by
  have hbot : (X ++ (L ++ Z))[X.length]? = some L[0] :=
    getElem?_part (i := 0) (L := L) (by omega)
  have hmid : (X ++ (L ++ Z))[X.length + L.length / 2]? = some L[L.length / 2] :=
    getElem?_part (by omega)
  have htop : (X ++ (L ++ Z))[X.length + (L.length - 1)]? = some L[L.length - 1] :=
    getElem?_part (by omega)
  have hkeep : ∃ L', some (bytes val (X ++ (L ++ Z))) = some (bytes val (X ++ (L' ++ Z))) ∧
      L'.Perm L := ⟨L, rfl, List.Perm.refl L⟩
  -- whichever element is selected, it is one of the part
  have hselect (i : ℕ) (hi : i < L.length) :
      ∃ L', (if addr job (X.length + i) = addr job (X.length + L.length / 2) then
          some (bytes val (X ++ (L ++ Z)))
        else swap job job.size (addr job (X.length + i)) (addr job (X.length + L.length / 2))
          (bytes val (X ++ (L ++ Z)))) = some (bytes val (X ++ (L' ++ Z))) ∧ L'.Perm L := by
    split_ifs with heq
    · exact hkeep
    · exact ⟨_, swap_set h hl hi (by omega) fun hi ↦ heq (by rw [hi]), List.set_set_perm _ _⟩
  rw [median]
  split_ifs with hmany
  · rw [h.call_eq hl hbot hmid, h.call_eq hl hmid htop, h.call_eq hl hbot htop, Option.bind_some,
      Option.bind_some, Option.map_some, Option.map_some]
    have hfirst := hselect 0 (by omega)
    have hlast := hselect (L.length - 1) (by omega)
    rw [Nat.add_zero] at hfirst
    split_ifs
    all_goals first
      | exact hlast
      | exact hfirst
      | exact hselect (L.length / 2) (by omega)
  · exact hkeep

/-! ## The sort -/

/-- A run sorts a part. -/
def Sorts (job : Job) (val : α → List Byte) (run : List Byte → Option (List Byte))
    (X L Z : List α) : Prop :=
  ∃ S, run (bytes val (X ++ (L ++ Z))) = some (bytes val (X ++ (S ++ Z))) ∧ S.Perm L ∧
    Sorted job val S

/-- `SORT` sorts a part. -/
theorem sortFew_spec (h : Layout job val) (hpre : Preordered job val)
    (hbot : job.size ≤ job.bot) (hl : (X ++ (L ++ Z)).length ≤ job.nmemb) :
    Sorts job val (sortFew job (addr job X.length) L.length) X L Z := by
  by_cases hmany : L.length > 1
  · by_cases htwo : L.length = 2
    · obtain ⟨x, y, rfl⟩ := List.length_eq_two.mp htwo
      have hroom : X.length + 2 ≤ job.nmemb := by
        simp only [List.length_append, List.length_cons, List.length_nil] at hl
        omega
      have hx : (X ++ ([x, y] ++ Z))[X.length]? = some x :=
        getElem?_part (i := 0) (L := [x, y]) Nat.two_pos
      have hy : (X ++ ([x, y] ++ Z))[X.length + 1]? = some y :=
        getElem?_part (L := [x, y]) hmany
      have hswap := h.swap_eq (X := X) (x := x) (y := y) (Y := []) (Z := Z) hl
      rw [List.length_nil, Nat.add_zero, swap_comm] at hswap
      by_cases hless : job.compar (val y) (val x) < 0
      · refine ⟨[y, x], ?_, List.Perm.swap x y [],
          List.pairwise_pair.mpr (Int.le_of_lt hless)⟩
        rw [sortFew, if_pos hmany, if_pos htwo, h.forward_size (by omega), h.call_eq hl hy hx,
          Option.bind_some, if_pos hless]
        exact hswap
      · refine ⟨[x, y], ?_, List.Perm.refl _,
          List.pairwise_pair.mpr (hpre.le_of_nonneg (Int.not_lt.mp hless))⟩
        rw [sortFew, if_pos hmany, if_pos htwo, h.forward_size (by omega), h.call_eq hl hy hx,
          Option.bind_some, if_neg hless]
    · obtain ⟨S, hrun, hsorted⟩ := insertionSort_spec h hpre hbot hl fun hnil ↦ by
        rw [hnil] at hmany
        exact absurd hmany (Nat.not_lt_zero 1)
      refine ⟨S, ?_, hsorted⟩
      rw [sortFew, if_pos hmany, if_neg htwo]
      exact hrun
  · refine ⟨L, ?_, List.Perm.refl L, List.pairwise_iff_getElem.mpr fun i j hi hj hij ↦ ?_⟩
    · rw [sortFew, if_neg hmany]
    · omega

/-- What is in front of the middle element and what is behind it are sorted, so that all is. -/
theorem Sorted.divide (hpre : Preordered job val) (hA : ∀ a ∈ A, job.cmp val a x ≤ 0)
    (hB : ∀ b ∈ B, job.cmp val x b ≤ 0) (hSA : S.Perm A) (hS : Sorted job val S)
    (hLB : L.Perm B) (hL : Sorted job val L) : Sorted job val (S ++ x :: L) := by
  have hbelow : ∀ a ∈ S, job.cmp val a x ≤ 0 := fun a ha ↦ hA a (hSA.mem_iff.mp ha)
  have habove : ∀ b ∈ L, job.cmp val x b ≤ 0 := fun b hb ↦ hB b (hLB.mem_iff.mp hb)
  refine List.pairwise_append.mpr ⟨hS, List.pairwise_cons.mpr ⟨habove, hL⟩, fun a ha b hb ↦ ?_⟩
  rcases List.mem_cons.mp hb with rfl | hb
  · exact hbelow a ha
  · exact hpre.trans a x b (hbelow a ha) (habove b hb)

/-- The upper part is sorted first. -/
theorem Sorts.upper_first {lower upper : List Byte → Option (List Byte)}
    (hpre : Preordered job val) (hA : ∀ a ∈ A, job.cmp val a x ≤ 0)
    (hB : ∀ b ∈ B, job.cmp val x b ≤ 0) (hupper : Sorts job val upper (X ++ A ++ [x]) B Z)
    (hlower : ∀ S : List α, S.length = B.length → Sorts job val lower X A (x :: (S ++ Z))) :
    ∃ S, (upper (bytes val (X ++ (A ++ x :: (B ++ Z))))).bind lower =
      some (bytes val (X ++ (S ++ Z))) ∧ S.Perm (A ++ x :: B) ∧ Sorted job val S := by
  obtain ⟨S, hrun, hperm, hsorted⟩ := hupper
  obtain ⟨S', hrun', hperm', hsorted'⟩ := hlower S hperm.length_eq
  have hshape (B : List α) : (X ++ A ++ [x]) ++ (B ++ Z) = X ++ (A ++ x :: (B ++ Z)) := by
    simp only [List.append_assoc, List.cons_append, List.nil_append]
  rw [hshape, hshape] at hrun
  refine ⟨S' ++ x :: S, ?_, hperm'.append (hperm.cons x),
    Sorted.divide hpre hA hB hperm' hsorted' hperm hsorted⟩
  rw [hrun, Option.bind_some, hrun', List.append_assoc, List.cons_append]

/-- The lower part is sorted first. -/
theorem Sorts.lower_first {lower upper : List Byte → Option (List Byte)}
    (hpre : Preordered job val) (hA : ∀ a ∈ A, job.cmp val a x ≤ 0)
    (hB : ∀ b ∈ B, job.cmp val x b ≤ 0) (hlower : Sorts job val lower X A (x :: (B ++ Z)))
    (hupper : ∀ S : List α, S.length = A.length → Sorts job val upper (X ++ S ++ [x]) B Z) :
    ∃ S, (lower (bytes val (X ++ (A ++ x :: (B ++ Z))))).bind upper =
      some (bytes val (X ++ (S ++ Z))) ∧ S.Perm (A ++ x :: B) ∧ Sorted job val S := by
  obtain ⟨S, hrun, hperm, hsorted⟩ := hlower
  obtain ⟨S', hrun', hperm', hsorted'⟩ := hupper S hperm.length_eq
  have hshape (B : List α) : (X ++ S ++ [x]) ++ (B ++ Z) = X ++ (S ++ x :: (B ++ Z)) := by
    simp only [List.append_assoc, List.cons_append, List.nil_append]
  rw [hshape, hshape] at hrun'
  refine ⟨S ++ x :: S', ?_, hperm.append (hperm'.cons x),
    Sorted.divide hpre hA hB hperm hsorted hperm' hsorted'⟩
  rw [hrun, Option.bind_some, hrun', List.append_assoc, List.cons_append]

/-- `quick_sort` sorts a part, with stack for the logarithm of its length. -/
theorem quickSort_spec (fuel : ℕ) (h : Layout job val) (hpre : Preordered job val)
    (hbot : job.size ≤ job.bot) (hl : (X ++ (L ++ Z)).length ≤ job.nmemb) (hfew : 4 ≤ L.length)
    (hfuel : L.length ≤ fuel) (hdepth : L.length < 2 ^ (depth + 1)) :
    Sorts job val (quickSort job fuel depth (addr job X.length) L.length) X L Z := by
  induction fuel generalizing X L Z depth with
  | zero => omega
  | succ fuel ih =>
    have hlen : X.length + L.length + Z.length ≤ job.nmemb := by
      rw [List.length_append, List.length_append] at hl
      omega
    have hmid : forward (addr job X.length) (job.size * (L.length / 2)) =
        addr job (X.length + L.length / 2) := by
      rw [Nat.mul_comm]
      exact h.forward_addr (by omega)
    have htop : forward (addr job X.length) ((L.length - 1) * job.size) =
        addr job (X.length + (L.length - 1)) := h.forward_addr (by omega)
    obtain ⟨L', hmedian, hperm⟩ := median_spec h hl (by omega)
    obtain ⟨U, x, V, hL', hU⟩ : ∃ U x V, L' = U ++ x :: V ∧ U.length = L.length / 2 := by
      have hlt : L.length / 2 < L'.length := by
        rw [hperm.length_eq]
        omega
      refine ⟨L'.take (L.length / 2), L'[L.length / 2], L'.drop (L.length / 2 + 1), ?_, ?_⟩
      · rw [← List.drop_eq_getElem_cons hlt, List.take_append_drop]
      · rw [List.length_take]
        omega
    have hlengths : U.length + V.length + 1 = L.length := by
      rw [← hperm.length_eq, hL', List.length_append, List.length_cons, Nat.add_assoc]
    have hshape : X ++ (L' ++ Z) = X ++ (U ++ x :: (V ++ Z)) := by
      rw [hL']
      simp only [List.append_assoc, List.cons_append]
    have hl' : (X ++ (U ++ x :: (V ++ Z))).length ≤ job.nmemb := by
      simp only [List.length_append, List.length_cons]
      omega
    have htop' : X.length + U.length + V.length = X.length + (L.length - 1) := by omega
    obtain ⟨A, B, didswap, hpartition, hperm', hbelow, habove⟩ :=
      partition_spec false L.length (L.length + 1) h hpre hl' (by omega) (by omega)
    rw [htop', hU] at hpartition
    have hall : (A ++ x :: B).Perm L := by
      refine hperm'.trans ?_
      rw [← hL']
      exact hperm
    have hsizes : A.length + B.length + 1 = L.length := by
      rw [← hall.length_eq, List.length_append, List.length_cons, Nat.add_assoc]
    have hroom (S : List α) (hS : S.length = B.length) :
        (X ++ (A ++ x :: (S ++ Z))).length ≤ job.nmemb := by
      simp only [List.length_append, List.length_cons]
      omega
    have hroom' (S : List α) (hS : S.length = A.length) :
        (X ++ S ++ [x] ++ (B ++ Z)).length ≤ job.nmemb := by
      simp only [List.length_append, List.length_cons, List.length_nil]
      omega
    have hlower : (addr job (X.length + A.length) - addr job X.length) / job.size = A.length := by
      rw [addr, addr, Nat.add_mul, ← Nat.add_assoc, Nat.add_sub_cancel_left]
      exact Nat.mul_div_cancel _ h.size_pos
    have hupper : L.length - A.length - 1 = B.length := by omega
    have hnext : forward (addr job (X.length + A.length)) job.size =
        addr job (X.length + A.length + 1) := h.forward_size (by omega)
    have hbehind (S : List α) (hS : S.length = A.length) :
        (X ++ S ++ [x]).length = X.length + A.length + 1 := by
      rw [List.length_append, List.length_append, List.length_singleton, hS]
    -- the runs on what is in front of the middle element, and on what is behind it
    have hfewLower (S : List α) (hS : S.length = B.length) : Sorts job val
        (sortFew job (addr job X.length) A.length) X A (x :: (S ++ Z)) :=
      sortFew_spec h hpre hbot (hroom S hS)
    have hfewUpper (S : List α) (hS : S.length = A.length) : Sorts job val
        (sortFew job (addr job (X.length + A.length + 1)) B.length) (X ++ S ++ [x]) B Z := by
      rw [← hbehind S hS]
      exact sortFew_spec h hpre hbot (hroom' S hS)
    have hquickLower (S : List α) (hS : S.length = B.length) {depth : ℕ}
        (hmany : THRESH ≤ A.length) (hdepth : A.length < 2 ^ (depth + 1)) : Sorts job val
        (quickSort job fuel depth (addr job X.length) A.length) X A (x :: (S ++ Z)) :=
      ih (hroom S hS) hmany (by omega) hdepth
    have hquickUpper (S : List α) (hS : S.length = A.length) {depth : ℕ}
        (hmany : THRESH ≤ B.length) (hdepth : B.length < 2 ^ (depth + 1)) : Sorts job val
        (quickSort job fuel depth (addr job (X.length + A.length + 1)) B.length)
        (X ++ S ++ [x]) B Z := by
      rw [← hbehind S hS]
      exact ih (hroom' S hS) hmany (by omega) hdepth
    have hresult {run : Option (List Byte)} (hrun : ∃ S, run =
        some (bytes val (X ++ (S ++ Z))) ∧ S.Perm (A ++ x :: B) ∧ Sorted job val S)
        (heq : quickSort job (fuel + 1) depth (addr job X.length) L.length
          (bytes val (X ++ (L ++ Z))) = run) :
        Sorts job val (quickSort job (fuel + 1) depth (addr job X.length) L.length) X L Z := by
      obtain ⟨S, hS, hpermS, hsortedS⟩ := hrun
      exact ⟨S, heq.trans hS, hpermS.trans hall, hsortedS⟩
    have hstep := quickSort.eq_def job (fuel + 1) depth (addr job X.length) L.length
      (bytes val (X ++ (L ++ Z)))
    dsimp only at hstep
    rw [hmid, htop, hmedian, Option.bind_some, hshape, hpartition, Option.bind_some] at hstep
    dsimp only at hstep
    rw [hlower, hupper, hnext] at hstep
    cases didswap with
    | false =>
      rw [if_neg Bool.false_ne_true] at hstep
      have hwhole : X ++ (A ++ x :: (B ++ Z)) = X ++ ((A ++ x :: B) ++ Z) := by
        rw [List.append_assoc, List.cons_append]
      have hpart : (X ++ ((A ++ x :: B) ++ Z)).length ≤ job.nmemb := by
        rw [← hwhole]
        exact hroom B rfl
      have hinsertion := insertionSort_spec h hpre hbot hpart (by simp)
      rw [hall.length_eq, ← hwhole] at hinsertion
      exact hresult hinsertion hstep
    | true =>
      rw [if_pos rfl] at hstep
      by_cases hside : A.length > B.length
      · rw [if_pos hside] at hstep
        by_cases hnested : B.length ≥ THRESH
        · rw [if_pos hnested] at hstep
          rw [THRESH] at hnested
          obtain ⟨depth, rfl⟩ : ∃ d, depth = d + 1 := Nat.exists_eq_succ_of_ne_zero fun hzero ↦ by
            rw [hzero] at hdepth
            omega
          rw [if_neg (Nat.succ_ne_zero depth), Nat.add_sub_cancel] at hstep
          rw [Nat.pow_succ] at hdepth
          exact hresult (Sorts.upper_first hpre hbelow habove
            (hquickUpper A rfl hnested (by omega))
            fun S hS ↦ hquickLower S hS (by rw [THRESH]; omega)
              (by rw [Nat.pow_succ]; omega)) hstep
        · rw [if_neg hnested] at hstep
          by_cases hsmall : A.length < THRESH
          · simp only [if_pos hsmall] at hstep
            exact hresult (Sorts.upper_first hpre hbelow habove (hfewUpper A rfl) hfewLower) hstep
          · simp only [if_neg hsmall] at hstep
            exact hresult (Sorts.upper_first hpre hbelow habove (hfewUpper A rfl)
              fun S hS ↦ hquickLower S hS (Nat.le_of_not_lt hsmall) (by omega)) hstep
      · rw [if_neg hside] at hstep
        by_cases hnested : A.length ≥ THRESH
        · rw [if_pos hnested] at hstep
          rw [THRESH] at hnested
          obtain ⟨depth, rfl⟩ : ∃ d, depth = d + 1 := Nat.exists_eq_succ_of_ne_zero fun hzero ↦ by
            rw [hzero] at hdepth
            omega
          rw [if_neg (Nat.succ_ne_zero depth), Nat.add_sub_cancel] at hstep
          rw [Nat.pow_succ] at hdepth
          exact hresult (Sorts.lower_first hpre hbelow habove
            (hquickLower B rfl hnested (by omega))
            fun S hS ↦ hquickUpper S hS (by rw [THRESH]; omega)
              (by rw [Nat.pow_succ]; omega)) hstep
        · rw [if_neg hnested] at hstep
          by_cases hsmall : B.length < THRESH
          · simp only [if_pos hsmall] at hstep
            exact hresult (Sorts.lower_first hpre hbelow habove (hfewLower B rfl) hfewUpper) hstep
          · simp only [if_neg hsmall] at hstep
            exact hresult (Sorts.lower_first hpre hbelow habove (hfewLower B rfl)
              fun S hS ↦ hquickUpper S hS (Nat.le_of_not_lt hsmall) (by omega)) hstep

end Bsd386.Libc.Sort
