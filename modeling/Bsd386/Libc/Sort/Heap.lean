import Bsd386.Lib.Heap
import Bsd386.Libc.Sort.Quick

/-!
# Heapsort

The elements are numbered from 1 on, with a pointer to an element before the array, which may lie
below the first address and then comes back. The elements in front of those that are saved already
are a heap, and none of them is larger than those.
-/

namespace Bsd386.Libc.Sort

variable {α : Type*} {job : Job} {val : α → List Byte} {P D : List α} {x y d : α}
  {i j k c n lo fuel : ℕ}

/-- The element with a number. -/
def numbered (d : α) (P : List α) (k : ℕ) : α := P.getD (k - 1) d

/-- The order of the elements. -/
def Job.le (job : Job) (val : α → List Byte) (x y : α) : Prop := job.cmp val x y ≤ 0

theorem numbered_eq (hpos : 1 ≤ k) (hk : k ≤ P.length) :
    P[k - 1]? = some (numbered d P k) := by
  rw [numbered, List.getD_eq_getElem _ _ (by omega), List.getElem?_eq_getElem]

/-- The pointer below the array leads to the elements. -/
theorem Layout.forward_numbered (h : Layout job val) (hpos : 1 ≤ k) (hk : k ≤ job.nmemb) :
    forward (back job.bot job.size) (k * job.size) = addr job (k - 1) := by
  obtain ⟨k, rfl⟩ := Nat.exists_eq_add_of_le' hpos
  have hlt := h.addr_lt_max (i := k) (Nat.le_of_succ_le hk)
  have hsize := h.size_lt (Nat.lt_of_lt_of_le hpos hk)
  rw [addr] at hlt
  rw [forward, back, Nat.succ_mul, Nat.add_sub_cancel, addr]
  omega

/-! ## A sift -/

/-- The larger one of the children. -/
theorem larger_child (h : Layout job val) (hpre : Preordered job val)
    (hlen : (P ++ D).length ≤ job.nmemb) (hpos : 1 ≤ i) (hi : i * 2 ≤ P.length) :
    ∃ c, (if i * 2 < P.length then
        (call job (forward (back job.bot job.size) (i * 2 * job.size))
            (forward (forward (back job.bot job.size) (i * 2 * job.size)) job.size)
            (bytes val (P ++ D))).map fun r ↦
          if r < 0 then (forward (forward (back job.bot job.size) (i * 2 * job.size)) job.size,
            i * 2 + 1)
          else (forward (back job.bot job.size) (i * 2 * job.size), i * 2)
      else some (forward (back job.bot job.size) (i * 2 * job.size), i * 2)) =
        some (addr job (c - 1), c) ∧ c ≤ P.length ∧ c / 2 = i ∧
      ∀ j ≤ P.length, j / 2 = i → job.le val (numbered d P j) (numbered d P c) := by
  have hlength : P.length ≤ job.nmemb := by
    rw [List.length_append] at hlen
    omega
  have hread {k : ℕ} (hpos : 1 ≤ k) (hk : k ≤ P.length) :
      (P ++ D)[k - 1]? = some (numbered d P k) := by
    rw [List.getElem?_append_left (by omega), numbered_eq hpos hk]
  have hfirst : forward (back job.bot job.size) (i * 2 * job.size) = addr job (i * 2 - 1) :=
    h.forward_numbered (by omega) (by omega)
  have hsecond : forward (addr job (i * 2 - 1)) job.size = addr job (i * 2 + 1 - 1) := by
    rw [h.forward_size (by omega)]
    congr 1
    omega
  rw [hfirst, hsecond]
  by_cases hboth : i * 2 < P.length
  · rw [if_pos hboth, h.call_eq hlen (hread (by omega) hi) (hread (by omega) hboth),
      Option.map_some]
    by_cases hless : job.compar (val (numbered d P (i * 2))) (val (numbered d P (i * 2 + 1))) < 0
    · refine ⟨i * 2 + 1, by rw [if_pos hless], hboth, by omega, fun j hj hchild ↦ ?_⟩
      by_cases hj' : j = i * 2
      · rw [hj']
        exact Int.le_of_lt hless
      · have hj'' : j = i * 2 + 1 := by omega
        rw [hj'']
        exact hpre.refl _
    · refine ⟨i * 2, by rw [if_neg hless], hi, by omega, fun j hj hchild ↦ ?_⟩
      by_cases hj' : j = i * 2
      · rw [hj']
        exact hpre.refl _
      · have hj'' : j = i * 2 + 1 := by omega
        rw [hj'']
        exact hpre.le_of_nonneg (Int.not_lt.mp hless)
  · refine ⟨i * 2, by rw [if_neg hboth], hi, by omega, fun j hj hchild ↦ ?_⟩
    have hj' : j = i * 2 := by omega
    rw [hj']
    exact hpre.refl _

/-- `HEAP` makes a heap of a heap whose one value is out of place. -/
theorem heap_spec (fuel : ℕ) (d : α) (h : Layout job val) (hpre : Preordered job val)
    (hlen : (P ++ D).length ≤ job.nmemb) (hlow : 1 ≤ lo) (hlo : lo ≤ i) (hi : i ≤ P.length)
    (hbut : HeapBut (job.le val) P.length lo i (numbered d P)) (hfuel : P.length < fuel + i) :
    ∃ P', heap job (back job.bot job.size) P.length fuel i (bytes val (P ++ D)) =
        some (bytes val (P' ++ D)) ∧ P'.Perm P ∧
      HeapFrom (job.le val) P.length lo (numbered d P') := by
  induction fuel generalizing P i with
  | zero => omega
  | succ fuel ih =>
    have hpos : 1 ≤ i := Nat.le_trans hlow hlo
    have hlength : P.length ≤ job.nmemb := by
      rw [List.length_append] at hlen
      omega
    have hsmall : job.nmemb < 2 ^ 31 := Nat.lt_of_le_of_lt
      (Nat.le_mul_of_pos_right _ h.size_pos) h.small
    have hdouble : i * 2 % 2 ^ 32 = i * 2 := Nat.mod_eq_of_lt (by omega)
    rw [heap, hdouble]
    dsimp only
    by_cases hchildren : i * 2 ≤ P.length
    · obtain ⟨c, hselect, hc, hchild, hlargest⟩ := larger_child (d := d) h hpre hlen hpos hchildren
      rw [if_pos hchildren, hselect, Option.bind_some,
        h.forward_numbered hpos (Nat.le_trans hi hlength)]
      dsimp only
      have hcpos : 1 ≤ c := by omega
      have hreadc : (P ++ D)[c - 1]? = some (numbered d P c) := by
        rw [List.getElem?_append_left (by omega), numbered_eq hcpos hc]
      have hreadi : (P ++ D)[i - 1]? = some (numbered d P i) := by
        rw [List.getElem?_append_left (by omega), numbered_eq hpos hi]
      rw [h.call_eq hlen hreadc hreadi, Option.bind_some]
      by_cases hle : job.compar (val (numbered d P c)) (val (numbered d P i)) ≤ 0
      · rw [if_pos hle]
        exact ⟨P, rfl, List.Perm.refl P, hbut.done fun j hj hj' ↦
          hpre.trans _ _ _ (hlargest j hj hj') hle⟩
      · have hi' : i - 1 < P.length := by omega
        have hc' : c - 1 < P.length := by omega
        have hswap := swap_set (X := []) (L := P) (Z := D) h hlen hi' hc' (by omega)
        rw [List.length_nil, Nat.zero_add, Nat.zero_add, List.nil_append, List.nil_append] at hswap
        rw [if_neg hle, hswap, Option.bind_some]
        have hperm : ((P.set (i - 1) P[c - 1]).set (c - 1) P[i - 1]).Perm P :=
          List.set_set_perm hi' hc'
        have hsame := hperm.length_eq
        have hat (j : ℕ) : numbered d ((P.set (i - 1) P[c - 1]).set (c - 1) P[i - 1]) j =
            if c - 1 = j - 1 then P[i - 1] else if i - 1 = j - 1 then P[c - 1]
              else numbered d P j := by
          rw [numbered, numbered, List.getD_eq_getElem?_getD, List.getElem?_set, List.length_set,
            List.getElem?_set]
          split_ifs with hj hj
          · rfl
          · rfl
          · rw [List.getD_eq_getElem?_getD]
        have hvalue {k : ℕ} (hpos : 1 ≤ k) (hk : k - 1 < P.length) : numbered d P k = P[k - 1] := by
          rw [numbered, List.getD_eq_getElem _ _ hk]
        have hge : job.le val (numbered d P i) (numbered d P c) :=
          Int.le_of_lt ((hpre.lt_iff _ _).mpr (Int.not_le.mp hle))
        have hsink : HeapBut (job.le val) P.length lo c
            (numbered d ((P.set (i - 1) P[c - 1]).set (c - 1) P[i - 1])) := by
          apply hbut.sink hlow hlo hc hchild hlargest hge
          · rw [hat, if_neg (by omega), if_pos rfl, hvalue hcpos hc']
          · rw [hat, if_pos rfl, hvalue hpos hi']
          · intro j hj hji hjc
            rw [hat, if_neg (by omega), if_neg (by omega)]
        rw [← hsame] at hsink ⊢
        obtain ⟨P', hrun, hperm', hheap⟩ :=
          ih (by rw [List.length_append, hsame, ← List.length_append]; exact hlen)
            (by omega) (by rw [hsame]; exact hc) hsink (by rw [hsame]; omega)
        exact ⟨P', hrun, hperm'.trans hperm, hheap⟩
    · rw [if_neg hchildren]
      exact ⟨P, rfl, List.Perm.refl P, hbut.done fun j hj hj' ↦ by omega⟩

/-! ## The sort -/

/-- The loop over `l` builds the heap. -/
theorem build_spec (d : α) (h : Layout job val) (hpre : Preordered job val) {l : ℕ}
    (hlen : P.length ≤ job.nmemb) (hl : l ≤ P.length)
    (hheap : HeapFrom (job.le val) P.length (l + 1) (numbered d P)) :
    ∃ P', build job (back job.bot job.size) P.length l (bytes val P) = some (bytes val P') ∧
      P'.Perm P ∧ HeapFrom (job.le val) P.length 1 (numbered d P') := by
  induction l generalizing P with
  | zero => exact ⟨P, rfl, List.Perm.refl P, hheap⟩
  | succ l ih =>
    have hlen' : (P ++ []).length ≤ job.nmemb := by
      rw [List.append_nil]
      exact hlen
    obtain ⟨P', hrun, hperm, hheap'⟩ := heap_spec (D := []) (P.length + 1) d h hpre hlen'
      (Nat.succ_pos l) (Nat.le_refl _) hl (hheap.extend (Nat.succ_pos l)) (by omega)
    rw [List.append_nil, List.append_nil] at hrun
    rw [← hperm.length_eq] at hheap' hlen hl
    obtain ⟨P'', hrun', hperm', hheap''⟩ := ih hlen (Nat.le_of_succ_le hl) hheap'
    rw [hperm.length_eq] at hrun' hheap''
    refine ⟨P'', ?_, hperm'.trans hperm, hheap''⟩
    rw [build, hrun, Option.bind_some, hrun']

/-- The loop that saves the largest elements sorts the heap in front of them. -/
theorem extract_spec (d : α) (h : Layout job val) (hpre : Preordered job val)
    (hlen : (P ++ D).length ≤ job.nmemb)
    (hheap : HeapFrom (job.le val) P.length 1 (numbered d P)) (hD : Sorted job val D)
    (hbelow : ∀ x ∈ P, ∀ y ∈ D, job.cmp val x y ≤ 0) (hn : n = P.length) :
    ∃ S, extract job (back job.bot job.size) n (bytes val (P ++ D)) = some (bytes val S) ∧
      S.Perm (P ++ D) ∧ Sorted job val S := by
  induction n generalizing P D with
  | zero =>
    rw [List.eq_nil_of_length_eq_zero hn.symm]
    exact ⟨D, rfl, List.Perm.refl D, hD⟩
  | succ n ih =>
    obtain ⟨x, Q, rfl⟩ := List.exists_cons_of_length_eq_add_one hn.symm
    rw [List.length_cons] at hn
    have hQ : Q.length = n := (Nat.succ_inj.mp hn).symm
    rw [extract]
    by_cases hmore : n + 1 > 1
    · obtain ⟨Q, y, rfl⟩ := (List.eq_nil_or_concat' Q).resolve_left fun hnil ↦ by
        rw [hnil, List.length_nil] at hQ
        omega
      rw [List.length_append, List.length_singleton] at hQ
      have hshape (x y : α) : x :: (Q ++ [y]) ++ D = [] ++ x :: (Q ++ y :: D) := by
        simp only [List.append_assoc, List.cons_append, List.nil_append]
      have hlength : Q.length + 2 + D.length ≤ job.nmemb := by
        simp only [List.length_append, List.length_cons, List.length_nil] at hlen
        omega
      have hswap := h.swap_eq (X := []) (x := x) (y := y) (Y := Q) (Z := D)
        (by rw [← hshape]; exact hlen)
      have hfirst : forward (back job.bot job.size) job.size = addr job ([] : List α).length := by
        have hone := h.forward_numbered (Nat.le_refl 1) (by omega)
        rw [Nat.one_mul] at hone
        exact hone
      have hlast : forward (back job.bot job.size) ((n + 1) * job.size) =
          addr job (([] : List α).length + 1 + Q.length) := by
        rw [h.forward_numbered (Nat.succ_pos n) (by omega), List.length_nil, ← hQ]
        congr 1
        omega
      have hnext : [] ++ y :: (Q ++ x :: D) = (y :: Q) ++ (x :: D) := rfl
      have hlen' : (y :: Q ++ x :: D).length ≤ job.nmemb := by
        simp only [List.length_append, List.length_cons]
        omega
      have hkept {k : ℕ} (hk : 2 ≤ k) (hle : k ≤ (y :: Q).length) :
          numbered d (y :: Q) k = numbered d (x :: (Q ++ [y])) k := by
        obtain ⟨k, rfl⟩ := Nat.exists_eq_add_of_le' hk
        rw [List.length_cons] at hle
        have hlt : k < Q.length := by omega
        rw [numbered, numbered]
        change (y :: Q).getD (k + 1) d = (x :: (Q ++ [y])).getD (k + 1) d
        rw [List.getD_cons_succ, List.getD_cons_succ, List.getD_append _ _ _ _ hlt]
      have hbut : HeapBut (job.le val) (y :: Q).length 1 1 (numbered d (y :: Q)) := by
        refine ⟨fun j hj hlow hne ↦ ?_, fun j hj hchild hlow ↦ absurd hlow (by decide)⟩
        rw [hkept (by omega) hj, hkept (by omega) (by omega)]
        refine hheap j ?_ hlow
        simp only [List.length_cons, List.length_append, List.length_nil] at hj ⊢
        omega
      obtain ⟨P', hrun, hperm, hheap'⟩ := heap_spec (P := y :: Q) (D := x :: D)
        ((y :: Q).length + 1) d h hpre hlen' (Nat.le_refl 1) (Nat.le_refl 1)
        (Nat.succ_pos _) hbut (by omega)
      have hmax : ∀ z ∈ x :: (Q ++ [y]), job.cmp val z x ≤ 0 := by
        intro z hz
        obtain ⟨k, hk⟩ := List.mem_iff_getElem?.mp hz
        obtain ⟨hklt, -⟩ := List.getElem?_eq_some_iff.mp hk
        have hroot := hheap.root_max hpre.refl hpre.trans (Nat.succ_pos k) hklt
        have hvalue : numbered d (x :: (Q ++ [y])) (k + 1) = z := by
          rw [numbered, Nat.add_sub_cancel, List.getD_eq_getElem?_getD, hk, Option.getD_some]
        rw [hvalue] at hroot
        exact hroot
      have hmem : ∀ z ∈ P', z ∈ x :: (Q ++ [y]) := by
        intro z hz
        rcases List.mem_cons.mp (hperm.mem_iff.mp hz) with rfl | hz
        · exact List.mem_cons_of_mem x (List.mem_append_right Q List.mem_cons_self)
        · exact List.mem_cons_of_mem x (List.mem_append_left [y] hz)
      have hD' : Sorted job val (x :: D) :=
        List.pairwise_cons.mpr ⟨hbelow x List.mem_cons_self, hD⟩
      have hbelow' : ∀ z ∈ P', ∀ w ∈ x :: D, job.cmp val z w ≤ 0 := by
        intro z hz w hw
        rcases List.mem_cons.mp hw with rfl | hw
        · exact hmax z (hmem z hz)
        · exact hbelow z (hmem z hz) w hw
      have hsize := hperm.length_eq
      rw [← hsize] at hheap'
      obtain ⟨S, hrun', hperm', hsorted⟩ := ih
        (by rw [List.length_append, hsize, ← List.length_append]; exact hlen') hheap' hD' hbelow'
        (by rw [hsize, List.length_cons, hQ])
      have hsame : (y :: Q).length = n := by rw [List.length_cons, hQ]
      rw [hsame] at hrun
      refine ⟨S, ?_, hperm'.trans ((hperm.append_right _).trans ?_), hsorted⟩
      · rw [if_pos hmore, hfirst, hlast, hshape, hswap, Option.bind_some, hnext, hrun,
          Option.bind_some, hrun']
      · rw [hshape, ← hnext]
        exact (List.perm_middle.cons y).trans
          ((List.Perm.swap x y _).trans (List.perm_middle.symm.cons x))
    · have hnil : Q = [] := List.eq_nil_of_length_eq_zero (by omega)
      subst hnil
      refine ⟨[x] ++ D, by rw [if_neg hmore], List.Perm.refl _, ?_⟩
      exact List.pairwise_cons.mpr ⟨hbelow x List.mem_cons_self, hD⟩

/-- `heapsort` sorts the array, wherever it is. -/
theorem heapsort_spec (h : Layout job val) (hpre : Preordered job val)
    (hlen : P.length = job.nmemb) :
    ∃ S, heapsort job (bytes val P) = some (bytes val S) ∧ S.Perm P ∧ Sorted job val S := by
  rw [heapsort]
  split_ifs with hfew
  · refine ⟨P, rfl, List.Perm.refl P, List.pairwise_iff_getElem.mpr fun i j hi hj hij ↦ ?_⟩
    omega
  · obtain ⟨d, hd⟩ := List.exists_mem_of_length_pos (l := P) (by omega)
    have hstart : HeapFrom (job.le val) P.length (P.length / 2 + 1) (numbered d P) :=
      fun j hj hlow ↦ by omega
    obtain ⟨P', hbuild, hperm, hheap⟩ := build_spec d h hpre (Nat.le_of_eq hlen)
      (Nat.div_le_self _ 2) hstart
    rw [← hperm.length_eq] at hheap
    obtain ⟨S, hextract, hperm', hsorted⟩ := extract_spec (D := []) d h hpre
      (by rw [List.append_nil, hperm.length_eq, hlen]) hheap List.Pairwise.nil
      (fun x _ y hy ↦ absurd hy List.not_mem_nil) rfl
    rw [List.append_nil] at hextract hperm'
    rw [hperm.length_eq] at hextract
    refine ⟨S, ?_, hperm'.trans hperm, hsorted⟩
    rw [← hlen, hbuild, Option.bind_some, hextract]

end Bsd386.Libc.Sort
