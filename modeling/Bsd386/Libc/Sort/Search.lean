import Bsd386.Libc.Sort.Insertion

/-!
# Binary search

`lib/libc/stdlib/bsearch.c` over the bytes of the array. What compares larger than the key comes
behind what does not, and what compares smaller in front of what does not; each comparison halves
what is left.
-/

namespace Bsd386.Libc.Sort

/-- The loop of `bsearch` with at most so many comparisons: the address of an element, or `NULL`. -/
def search (job : Job) (key : List Byte) : ℕ → ℕ → ℕ → List Byte → Option (Option ℕ)
  | fuel, base, lim, m =>
    if lim = 0 then some none
    else
      match fuel with
      | 0 => none
      | fuel + 1 =>
        let p := forward base (lim / 2 * job.size)
        (element job p m).bind fun x ↦
          if job.compar key x = 0 then some (some p)
          else if job.compar key x > 0 then
            search job key fuel (forward p job.size) ((lim - 1) / 2) m
          else search job key fuel base (lim / 2) m

/-- `bsearch`. -/
def bsearch (job : Job) (key : List Byte) (comparisons : ℕ) (m : List Byte) : Option (Option ℕ) :=
  search job key comparisons job.bot job.nmemb m

variable {α : Type*} {job : Job} {val : α → List Byte} {X L Z : List α} {key : List Byte}

/-- The array is in order as far as the key is concerned. -/
def InOrder (job : Job) (val : α → List Byte) (key : List Byte) (L : List α) : Prop :=
  L.Pairwise fun x y ↦ (job.compar key (val x) < 0 → job.compar key (val y) < 0) ∧
    (0 < job.compar key (val y) → 0 < job.compar key (val x))

/-- What a search in a part of the array has to find. -/
structure Found (job : Job) (val : α → List Byte) (key : List Byte) (start : ℕ) (L : List α)
    (result : Option ℕ) : Prop where
  sound : ∀ p, result = some p →
    ∃ i x, L[i]? = some x ∧ p = addr job (start + i) ∧ job.compar key (val x) = 0
  complete : result = none → ∀ x ∈ L, job.compar key (val x) ≠ 0

theorem found_nil (start : ℕ) : Found job val key start [] none where
  sound _ hp := nomatch hp
  complete _ _ hx := absurd hx List.not_mem_nil

/-- What is found in a part is found in the whole if nothing else compares equal. -/
theorem Found.extend {start : ℕ} {A B C : List α} {result : Option ℕ}
    (h : Found job val key (start + A.length) B result)
    (hA : ∀ x ∈ A, job.compar key (val x) ≠ 0) (hC : ∀ x ∈ C, job.compar key (val x) ≠ 0) :
    Found job val key start (A ++ (B ++ C)) result := by
  constructor
  · intro p hp
    obtain ⟨i, x, hx, haddr, hequal⟩ := h.sound p hp
    obtain ⟨hi, hget⟩ := List.getElem?_eq_some_iff.mp hx
    refine ⟨A.length + i, x, ?_, by rw [haddr, Nat.add_assoc], hequal⟩
    rw [List.getElem?_append_right (Nat.le_add_right _ _), Nat.add_sub_cancel_left,
      List.getElem?_append_left hi, hx]
  · intro hnone x hx
    rcases List.mem_append.mp hx with hx | hx
    · exact hA x hx
    · rcases List.mem_append.mp hx with hx | hx
      · exact h.complete hnone x hx
      · exact hC x hx

/-- Each comparison leaves less than half of a part. -/
theorem search_spec (fuel : ℕ) (h : Layout job val) (hl : (X ++ (L ++ Z)).length ≤ job.nmemb)
    (horder : InOrder job val key L) (hfuel : L.length < 2 ^ fuel) :
    ∃ result, search job key fuel (addr job X.length) L.length (bytes val (X ++ (L ++ Z))) =
      some result ∧ Found job val key X.length L result := by
  induction fuel generalizing X L Z with
  | zero =>
    obtain rfl : L = [] := List.eq_nil_of_length_eq_zero (by omega)
    exact ⟨none, rfl, found_nil _⟩
  | succ fuel ih =>
    rcases Nat.eq_zero_or_pos L.length with hzero | hpos
    · obtain rfl := List.eq_nil_of_length_eq_zero hzero
      exact ⟨none, rfl, found_nil _⟩
    obtain ⟨A, x, B, hL, hA⟩ : ∃ A x B, L = A ++ x :: B ∧ A.length = L.length / 2 := by
      have hlt : L.length / 2 < L.length := by omega
      refine ⟨L.take (L.length / 2), L[L.length / 2], L.drop (L.length / 2 + 1), ?_, ?_⟩
      · rw [← List.drop_eq_getElem_cons hlt, List.take_append_drop]
      · rw [List.length_take]
        omega
    have hlength : L.length = A.length + (B.length + 1) := by
      rw [hL, List.length_append, List.length_cons]
    have hroom : X.length + L.length + Z.length ≤ job.nmemb := by
      rw [List.length_append, List.length_append] at hl
      omega
    have hmid : forward (addr job X.length) (L.length / 2 * job.size) =
        addr job (X.length + A.length) := by
      rw [hA]
      exact h.forward_addr (by omega)
    have hnext : forward (addr job (X.length + A.length)) job.size =
        addr job (X.length + A.length + 1) := h.forward_size (by omega)
    have hread : element job (addr job (X.length + A.length)) (bytes val (X ++ (L ++ Z))) =
        some (val x) := by
      have hshape : X ++ (L ++ Z) = (X ++ A) ++ x :: (B ++ Z) := by
        rw [hL]
        simp only [List.append_assoc, List.cons_append]
      rw [hshape, ← List.length_append]
      exact h.element_eq (by rw [List.length_append]; omega)
    obtain ⟨horderA, horderB, hcross⟩ := List.pairwise_append.mp (hL ▸ horder)
    obtain ⟨hbehind, horderB⟩ := List.pairwise_cons.mp horderB
    rw [search, if_neg (Nat.ne_of_gt hpos)]
    dsimp only
    rw [hmid, hread, Option.bind_some]
    by_cases hequal : job.compar key (val x) = 0
    · rw [if_pos hequal]
      refine ⟨_, rfl, fun p hp ↦ ?_, fun hnone ↦ nomatch hnone⟩
      refine ⟨A.length, x, ?_, (Option.some.inj hp).symm, hequal⟩
      rw [hL, List.getElem?_append_right (Nat.le_refl _), Nat.sub_self]
      rfl
    rw [if_neg hequal]
    by_cases hlarger : job.compar key (val x) > 0
    · -- the key is larger than everything up to the middle
      have hhalf : (L.length - 1) / 2 = B.length := by omega
      have hshape : X ++ (L ++ Z) = (X ++ (A ++ [x])) ++ (B ++ Z) := by
        rw [hL]
        simp only [List.append_assoc, List.cons_append, List.nil_append]
      have hstart : (X ++ (A ++ [x])).length = X.length + (A ++ [x]).length := List.length_append
      have hplace : X.length + A.length + 1 = (X ++ (A ++ [x])).length := by
        rw [hstart, List.length_append, List.length_singleton, Nat.add_assoc]
      obtain ⟨result, hrun, hfound⟩ := ih (X := X ++ (A ++ [x])) (L := B) (Z := Z)
        (hshape ▸ hl) horderB (by rw [Nat.pow_succ] at hfuel; omega)
      rw [if_pos hlarger, hnext, hhalf, hplace, hshape]
      refine ⟨result, hrun, ?_⟩
      rw [hstart] at hfound
      have hbefore : ∀ y ∈ A ++ [x], job.compar key (val y) ≠ 0 := by
        intro y hy
        rcases List.mem_append.mp hy with hy | hy
        · have := (hcross y hy x List.mem_cons_self).2 hlarger
          omega
        · rw [List.mem_singleton.mp hy]
          exact hequal
      have hall := hfound.extend hbefore (C := []) fun y hy ↦ absurd hy List.not_mem_nil
      rw [List.append_nil, List.append_assoc, List.singleton_append, ← hL] at hall
      exact hall
    · -- the key is smaller than everything from the middle on
      have hsmaller : job.compar key (val x) < 0 := by omega
      have hshape : X ++ (L ++ Z) = X ++ (A ++ (x :: B ++ Z)) := by
        rw [hL, List.append_assoc]
      obtain ⟨result, hrun, hfound⟩ := ih (X := X) (L := A) (Z := x :: B ++ Z)
        (hshape ▸ hl) horderA (by rw [Nat.pow_succ] at hfuel; omega)
      rw [if_neg hlarger, ← hA, hshape]
      refine ⟨result, hrun, ?_⟩
      have hafter : ∀ y ∈ x :: B, job.compar key (val y) ≠ 0 := by
        intro y hy
        rcases List.mem_cons.mp hy with rfl | hy
        · exact hequal
        · have := (hbehind y hy).1 hsmaller
          omega
      have hall := Found.extend (A := []) (B := A) hfound
        (fun y hy ↦ absurd hy List.not_mem_nil) hafter
      rw [List.nil_append, ← hL] at hall
      exact hall

/-- `bsearch` reads elements of the array only, needs no more comparisons than the array's length
has binary digits, and finds an element that compares equal to the key if there is one. -/
theorem bsearch_exact {n : ℕ} (h : Layout job val) (hlen : L.length = job.nmemb)
    (horder : InOrder job val key L) (hn : job.nmemb < 2 ^ n) :
    ∃ result, bsearch job key n (bytes val L) = some result ∧
      (∀ p, result = some p →
        ∃ i x, L[i]? = some x ∧ p = addr job i ∧ job.compar key (val x) = 0) ∧
      (result = none → ∀ x ∈ L, job.compar key (val x) ≠ 0) := by
  obtain ⟨result, hrun, hfound⟩ := search_spec (X := []) (Z := []) n h
    (by rw [List.nil_append, List.append_nil]; exact Nat.le_of_eq hlen) horder (hlen ▸ hn)
  rw [List.nil_append, List.append_nil, List.length_nil, hlen] at hrun
  have hbot : addr job 0 = job.bot := by rw [addr, Nat.zero_mul, Nat.add_zero]
  refine ⟨result, ?_, fun p hp ↦ ?_, hfound.complete⟩
  · rw [bsearch, ← hbot, hrun]
  · obtain ⟨i, x, hx, haddr, hequal⟩ := hfound.sound p hp
    rw [List.length_nil, Nat.zero_add] at haddr
    exact ⟨i, x, hx, haddr, hequal⟩

/-- The comparison of the first bytes. -/
def byteJob : Job := ⟨16, 3, 1, fun x y ↦ (x.headD 0).toNat - (y.headD 0).toNat⟩

theorem bsearch_exact_bytes : ∃ result,
    bsearch byteJob [5] 2 (bytes (fun b : Byte ↦ [b]) [3, 5, 9]) = some result ∧
      (∀ p, result = some p → ∃ i x, [(3 : Byte), 5, 9][i]? = some x ∧ p = addr byteJob i ∧
        byteJob.compar [5] [x] = 0) ∧
      (result = none → ∀ x ∈ [(3 : Byte), 5, 9], byteJob.compar [5] [x] ≠ 0) := by
  have h : Layout byteJob fun b : Byte ↦ [b] := ⟨Nat.one_pos, fun _ ↦ rfl, by decide, by decide⟩
  exact bsearch_exact h rfl (by unfold InOrder; decide) (by decide)

end Bsd386.Libc.Sort
