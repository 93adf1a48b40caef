import Bsd386.Libc.Radixsort.Shell
import Mathlib.Algebra.BigOperators.Group.List.Basic

/-!
# A pass

The strings are counted by their weights, the counts summed, and the strings moved, from the last
one on, in front of the ends of their buckets. Each bucket then has its strings in the order in
which they were, and begins where its count was decremented to.
-/

namespace Bsd386.Libc.Radixsort

variable {α : Type*} {strings : Strings α} {kf : α → ℕ} {indx b k n m : ℕ} {seg ps done : List α}
  {c c' : ℕ → ℕ} {l2 : ℕ → Option α}

/-- The strings of a bucket. -/
def inBucket (kf : α → ℕ) (seg : List α) (b : ℕ) : List α := seg.filter fun p ↦ kf p = b

/-- The sum of the first counts. -/
def start (c : ℕ → ℕ) (b : ℕ) : ℕ := ((List.range b).map c).sum

theorem start_succ (c : ℕ → ℕ) (b : ℕ) : start c (b + 1) = start c b + c b := by
  rw [start, start, List.range_succ, List.map_append, List.sum_append, List.map_singleton,
    List.sum_singleton]

theorem start_mono (c : ℕ → ℕ) (h : b ≤ k) : start c b ≤ start c k := by
  induction k with
  | zero => exact Nat.le_of_eq (by rw [Nat.le_zero.mp h])
  | succ k ih =>
    rcases Nat.eq_or_lt_of_le h with rfl | hlt
    · exact Nat.le_refl _
    · rw [start_succ]
      exact Nat.le_add_right_of_le (ih (Nat.le_of_lt_succ hlt))

theorem inBucket_cons_self (p : α) (ps : List α) :
    inBucket kf (p :: ps) (kf p) = p :: inBucket kf ps (kf p) :=
  List.filter_cons_of_pos (decide_eq_true rfl)

theorem inBucket_cons_of_ne {p : α} (hp : kf p ≠ b) (ps : List α) :
    inBucket kf (p :: ps) b = inBucket kf ps b :=
  List.filter_cons_of_neg fun h ↦ hp (of_decide_eq_true h)

/-! ## Counts -/

/-- The first loop counts the strings of each bucket. -/
theorem count_eq (hkey : ∀ p ∈ ps, strings.key indx p = some (kf p)) :
    count strings indx ps c = some fun b ↦ c b + (inBucket kf ps b).length := by
  induction ps generalizing c with
  | nil => rfl
  | cons p ps ih =>
    rw [count, hkey p List.mem_cons_self, Option.bind_some,
      ih fun q hq ↦ hkey q (List.mem_cons_of_mem p hq), Option.some_inj]
    funext b
    by_cases hb : b = kf p
    · rw [hb, Function.update_self, inBucket_cons_self, List.length_cons]
      omega
    · rw [Function.update_of_ne hb, inBucket_cons_of_ne (Ne.symm hb)]

/-- The bucket is a largest one of those above the cut off, or the first one. -/
structure IsMax (c : ℕ → ℕ) (n m : ℕ) : Prop where
  le : ∀ b < n, c b ≤ rspartition ∨ c b ≤ c m
  first : m = 0 ∨ rspartition < c m ∧ m < n

/-- The second loop sums the counts and finds a largest bucket. -/
theorem cumulate_range' {i t2 max : ℕ} (hc : ∀ j < i, c' j = start c (j + 1))
    (hrest : ∀ j, i ≤ j → c' j = c j) (hle : ∀ j < i, c j ≤ t2)
    (hmax : max = 0 ∧ t2 = rspartition ∨ t2 = c max ∧ rspartition < t2 ∧ max < i) :
    (∀ j < i + n, (cumulate (List.range' i n) c' (start c i) t2 max).1 j = start c (j + 1)) ∧
      IsMax c (i + n) (cumulate (List.range' i n) c' (start c i) t2 max).2 := by
  induction n generalizing i c' t2 max with
  | zero =>
    refine ⟨hc, fun b hb ↦ ?_, ?_⟩
    · rcases hmax with ⟨-, rfl⟩ | ⟨rfl, -⟩
      · exact Or.inl (hle b hb)
      · exact Or.inr (hle b hb)
    · rcases hmax with ⟨hzero, -⟩ | ⟨rfl, hcut, hlt⟩
      · exact Or.inl hzero
      · exact Or.inr ⟨hcut, hlt⟩
  | succ n ih =>
    have hci : c' i = c i := hrest i (Nat.le_refl i)
    have hsum : c' i + start c i = start c (i + 1) := by
      rw [start_succ, hci, Nat.add_comm]
    have hc' : ∀ j < i + 1, Function.update c' i (start c (i + 1)) j = start c (j + 1) := by
      intro j hj
      by_cases hji : j = i
      · rw [hji, Function.update_self]
      · rw [Function.update_of_ne hji]
        exact hc j (by omega)
    have hrest' : ∀ j, i + 1 ≤ j → Function.update c' i (start c (i + 1)) j = c j := by
      intro j hj
      rw [Function.update_of_ne (by omega)]
      exact hrest j (by omega)
    have hlength : i + (n + 1) = i + 1 + n := by omega
    rw [List.range'_succ, cumulate, hsum, hlength]
    have hcut : rspartition ≤ t2 := hmax.elim (fun h ↦ Nat.le_of_eq h.2.symm)
      fun h ↦ Nat.le_of_lt h.2.1
    split_ifs with hlarger
    · rw [hci] at hlarger ⊢
      refine ih hc' hrest' (fun j hj ↦ ?_) (Or.inr ⟨rfl, by omega, Nat.lt_succ_self i⟩)
      rcases Nat.eq_or_lt_of_le (Nat.le_of_lt_succ hj) with rfl | hlt
      · exact Nat.le_refl _
      · exact Nat.le_of_lt (Nat.lt_of_le_of_lt (hle j hlt) hlarger)
    · rw [hci] at hlarger
      refine ih hc' hrest' (fun j hj ↦ ?_) (hmax.imp_right fun h ↦ ⟨h.1, h.2.1, by omega⟩)
      rcases Nat.eq_or_lt_of_le (Nat.le_of_lt_succ hj) with rfl | hlt
      · exact Nat.le_of_not_lt hlarger
      · exact hle j hlt

/-- The sums and a largest bucket. -/
theorem cumulate_eq (c : ℕ → ℕ) (n : ℕ) :
    (∀ j < n, (cumulate (List.range n) c 0 rspartition 0).1 j = start c (j + 1)) ∧
      IsMax c n (cumulate (List.range n) c 0 rspartition 0).2 := by
  have hspec :=
    cumulate_range' (n := n) (c := c) (i := 0) (fun j hj ↦ absurd hj (Nat.not_lt_zero j))
    (fun _ _ ↦ rfl) (fun j hj ↦ absurd hj (Nat.not_lt_zero j)) (Or.inl ⟨rfl, rfl⟩)
  rw [Nat.zero_add, ← List.range_eq_range'] at hspec
  exact hspec

/-! ## Moves -/

/-- The third loop puts the strings of each bucket behind its start, in their order. -/
theorem distribute_spec (hkey : ∀ p ∈ ps, strings.key indx p = some (kf p))
    (hlt : ∀ p ∈ ps, kf p < n)
    (hc : ∀ b < n, c' b = start c b + (inBucket kf ps b).length)
    (hfits : ∀ b < n, (inBucket kf ps b).length + (inBucket kf done b).length = c b)
    (hstored : ∀ b < n, ∀ r x, (inBucket kf done b)[r]? = some x →
      l2 (start c b + (inBucket kf ps b).length + r) = some x) :
    ∃ r, distribute strings indx ps c' l2 = some r ∧ (∀ b < n, r.1 b = start c b) ∧
      (∀ b, n ≤ b → r.1 b = c' b) ∧
      ∀ b < n, ∀ i x, (inBucket kf (ps.reverse ++ done) b)[i]? = some x →
        r.2 (start c b + i) = some x := by
  induction ps generalizing c' l2 done with
  | nil => exact ⟨(c', l2), rfl, hc, fun _ _ ↦ rfl, hstored⟩
  | cons p ps ih =>
    have hkp := hlt p List.mem_cons_self
    have hck := hc (kf p) hkp
    rw [inBucket_cons_self, List.length_cons] at hck
    rw [distribute, hkey p List.mem_cons_self, Option.bind_some]
    have hpos : c' (kf p) - 1 = start c (kf p) + (inBucket kf ps (kf p)).length := by omega
    rw [hpos]
    have hc' : ∀ b < n, Function.update c' (kf p)
        (start c (kf p) + (inBucket kf ps (kf p)).length) b =
          start c b + (inBucket kf ps b).length := by
      intro b hb
      by_cases heq : b = kf p
      · rw [heq, Function.update_self]
      · rw [Function.update_of_ne heq, hc b hb, inBucket_cons_of_ne (Ne.symm heq)]
    have hfits' : ∀ b < n, (inBucket kf ps b).length + (inBucket kf (p :: done) b).length =
      c b := by
      intro b hb
      have hfit := hfits b hb
      by_cases heq : b = kf p
      · rw [heq, inBucket_cons_self, List.length_cons] at hfit ⊢
        omega
      · rw [inBucket_cons_of_ne (Ne.symm heq)] at hfit ⊢
        exact hfit
    have hstored' : ∀ b < n, ∀ r x, (inBucket kf (p :: done) b)[r]? = some x →
        Function.update l2 (start c (kf p) + (inBucket kf ps (kf p)).length) (some p)
          (start c b + (inBucket kf ps b).length + r) = some x := by
      intro b hb r x hx
      have hstore := hstored b hb
      by_cases heq : b = kf p
      · rw [heq, inBucket_cons_self] at hx
        rw [heq, inBucket_cons_self] at hstore
        rw [heq]
        cases r with
        | zero =>
          rw [Nat.add_zero, Function.update_self]
          exact hx
        | succ r =>
          rw [Function.update_of_ne (by omega)]
          have hold := hstore r x hx
          rw [List.length_cons] at hold
          rw [← hold]
          congr 1
          omega
      · rw [inBucket_cons_of_ne (Ne.symm heq)] at hx
        rw [inBucket_cons_of_ne (Ne.symm heq)] at hstore
        have hne : start c b + (inBucket kf ps b).length + r ≠
            start c (kf p) + (inBucket kf ps (kf p)).length := by
          have hr : r < (inBucket kf done b).length := (List.getElem?_eq_some_iff.mp hx).1
          have hfit := hfits' b hb
          have hfit' := hfits' (kf p) hkp
          rw [inBucket_cons_of_ne (Ne.symm heq)] at hfit
          rw [inBucket_cons_self, List.length_cons] at hfit'
          rcases Nat.lt_or_gt_of_ne heq with hbelow | habove
          · have hmono := start_mono c (Nat.succ_le_of_lt hbelow)
            rw [Nat.succ_eq_add_one, start_succ] at hmono
            omega
          · have hmono := start_mono c (Nat.succ_le_of_lt habove)
            rw [Nat.succ_eq_add_one, start_succ] at hmono
            omega
        rw [Function.update_of_ne hne]
        exact hstore r x hx
    obtain ⟨r, hr, hstarts, hothers, hmoved⟩ := ih
      (fun q hq ↦ hkey q (List.mem_cons_of_mem p hq))
      (fun q hq ↦ hlt q (List.mem_cons_of_mem p hq)) hc' hfits' hstored'
    refine ⟨r, hr, hstarts, fun b hb ↦ ?_, fun b hb i x hx ↦ hmoved b hb i x ?_⟩
    · rw [hothers b hb, Function.update_of_ne (by omega)]
    · rw [List.reverse_cons, List.append_assoc, List.singleton_append] at hx
      exact hx

/-! ## The buckets behind each other -/

/-- The buckets behind each other. -/
def buckets (kf : α → ℕ) (seg : List α) (n : ℕ) : List α := (List.range n).flatMap (inBucket kf seg)

theorem buckets_succ (kf : α → ℕ) (seg : List α) (n : ℕ) :
    buckets kf seg (n + 1) = buckets kf seg n ++ inBucket kf seg n := by
  rw [buckets, buckets, List.range_succ, List.flatMap_append, List.flatMap_singleton]

theorem length_buckets (hc : ∀ b < n, c b = (inBucket kf seg b).length) :
    (buckets kf seg n).length = start c n := by
  induction n with
  | zero => rfl
  | succ n ih =>
    rw [buckets_succ, List.length_append, ih fun b hb ↦ hc b (Nat.lt_succ_of_lt hb), start_succ,
      hc n (Nat.lt_succ_self n)]

/-- Where the strings of a bucket are. -/
theorem getElem?_buckets (hc : ∀ b < n, c b = (inBucket kf seg b).length) (hb : b < n) {i : ℕ}
    (hi : i < c b) : (buckets kf seg n)[start c b + i]? = (inBucket kf seg b)[i]? := by
  induction n with
  | zero => exact absurd hb (Nat.not_lt_zero b)
  | succ n ih =>
    have hc' : ∀ b < n, c b = (inBucket kf seg b).length := fun b hb ↦ hc b (Nat.lt_succ_of_lt hb)
    have hlength := length_buckets hc'
    rw [buckets_succ]
    rcases Nat.eq_or_lt_of_le (Nat.le_of_lt_succ hb) with rfl | hlt
    · rw [← hlength, List.getElem?_append_right (Nat.le_add_right _ i), Nat.add_sub_cancel_left]
    · have hmono := start_mono c (Nat.succ_le_of_lt hlt)
      rw [Nat.succ_eq_add_one, start_succ] at hmono
      rw [List.getElem?_append_left (by omega)]
      exact ih hc' hlt

/-- Every place is in a bucket. -/
theorem exists_bucket {j : ℕ} (hj : j < start c n) : ∃ b < n, ∃ i < c b, j = start c b + i := by
  induction n with
  | zero => exact absurd hj (Nat.not_lt_zero j)
  | succ n ih =>
    rw [start_succ] at hj
    by_cases hlt : j < start c n
    · obtain ⟨b, hb, i, hi, rfl⟩ := ih hlt
      exact ⟨b, Nat.lt_succ_of_lt hb, i, hi, rfl⟩
    · exact ⟨n, Nat.lt_succ_self n, j - start c n, by omega, by omega⟩

/-- The strings of a bucket more, in any order. -/
theorem filter_lt_succ (kf : α → ℕ) (seg : List α) (n : ℕ) :
    (seg.filter fun p ↦ kf p < n + 1).Perm
      ((seg.filter fun p ↦ kf p < n) ++ inBucket kf seg n) := by
  induction seg with
  | nil => exact List.Perm.refl _
  | cons p ps ih =>
    rcases Nat.lt_trichotomy (kf p) n with hlt | heq | hgt
    · rw [inBucket_cons_of_ne (Nat.ne_of_lt hlt), List.filter_cons_of_pos (by simpa using by omega),
        List.filter_cons_of_pos (by simpa using hlt)]
      exact ih.cons p
    · rw [← heq, inBucket_cons_self, List.filter_cons_of_pos (by simp),
        List.filter_cons_of_neg (by simp), heq]
      exact (ih.cons p).trans List.perm_middle.symm
    · rw [inBucket_cons_of_ne (Nat.ne_of_gt hgt), List.filter_cons_of_neg (by simpa using by omega),
        List.filter_cons_of_neg (by simpa using by omega)]
      exact ih

/-- The buckets have all strings. -/
theorem buckets_perm (hlt : ∀ p ∈ seg, kf p < n) : (buckets kf seg n).Perm seg := by
  have hall : seg.filter (fun p ↦ kf p < n) = seg :=
    List.filter_eq_self.mpr fun p hp ↦ decide_eq_true (hlt p hp)
  have hsome (k : ℕ) : (buckets kf seg k).Perm (seg.filter fun p ↦ kf p < k) := by
    induction k with
    | zero =>
      have hnone : seg.filter (fun p ↦ kf p < 0) = [] :=
        List.filter_eq_nil_iff.mpr fun p _ h ↦ Nat.not_lt_zero _ (of_decide_eq_true h)
      rw [hnone]
      exact List.Perm.refl _
    | succ k ih =>
      rw [buckets_succ]
      exact (ih.append_right _).trans (filter_lt_succ kf seg k).symm
  have hperm := hsome n
  rw [hall] at hperm
  exact hperm

/-! ## The pass -/

/-- The pass moves the strings of a part to their buckets. -/
theorem pass_spec {ctx : Context} {l1 : List α} (hend : ctx.bot + ctx.nmemb ≤ l1.length)
    (hkey : ∀ p ∈ part l1 ctx.bot ctx.nmemb, strings.key ctx.indx p = some (kf p))
    (hlt : ∀ p ∈ part l1 ctx.bot ctx.nmemb, kf p < 256) (c : ℕ → ℕ)
    (hc : ∀ b, c b = (inBucket kf (part l1 ctx.bot ctx.nmemb) b).length) :
    ∃ starts max, pass strings ctx l1 =
        some (splice l1 ctx.bot (buckets kf (part l1 ctx.bot ctx.nmemb) 256), starts, max) ∧
      (∀ b ≤ 256, starts b = start c b) ∧ IsMax c 257 max := by
  have hlength : (part l1 ctx.bot ctx.nmemb).length = ctx.nmemb := by
    rw [part, List.length_take, List.length_drop]
    omega
  have hzero : c 256 = 0 := by
    rw [hc, List.length_eq_zero_iff, inBucket, List.filter_eq_nil_iff]
    exact fun p hp h ↦ absurd (of_decide_eq_true h) (Nat.ne_of_lt (hlt p hp))
  rw [pass, if_neg (Nat.not_lt.mpr hend)]
  generalize part l1 ctx.bot ctx.nmemb = seg at *
  have hcount : count strings ctx.indx seg (fun _ ↦ 0) = some c := by
    rw [count_eq hkey, Option.some_inj]
    funext b
    rw [hc, Nat.zero_add]
  have hreverse (b : ℕ) : (inBucket kf seg.reverse b).length = c b := by
    rw [inBucket, List.filter_reverse, List.length_reverse, hc]
    rfl
  obtain ⟨hsums, hmax⟩ := cumulate_eq c 257
  have hdistribute : ∃ r, distribute strings ctx.indx seg.reverse
      (cumulate (List.range 257) c 0 rspartition 0).1 (fun _ ↦ none) = some r ∧
      (∀ b < 256, r.1 b = start c b) ∧
      (∀ b, 256 ≤ b → r.1 b = (cumulate (List.range 257) c 0 rspartition 0).1 b) ∧
      ∀ b < 256, ∀ i x, (inBucket kf (seg.reverse.reverse ++ []) b)[i]? = some x →
        r.2 (start c b + i) = some x := by
    apply distribute_spec (fun p hp ↦ hkey p (List.mem_reverse.mp hp))
      (fun p hp ↦ hlt p (List.mem_reverse.mp hp))
    · intro b hb
      rw [hsums b (Nat.lt_succ_of_lt hb), start_succ, hreverse]
    · intro b _
      rw [hreverse]
      rfl
    · intro b _ r x hx
      cases hx
  obtain ⟨r, hr, hstarts, hothers, hmoved⟩ := hdistribute
  rw [List.reverse_reverse, List.append_nil] at hmoved
  have hsize := length_buckets (n := 256) fun b _ ↦ hc b
  have hall : (buckets kf seg 256).length = ctx.nmemb := (buckets_perm hlt).length_eq.trans hlength
  have hcopy : (List.range ctx.nmemb).mapM r.2 = some (buckets kf seg 256) := by
    rw [← hall, List.range_eq_range']
    refine mapM_range'_eq 0 fun j x hx ↦ ?_
    have hj : j < start c 256 := hsize ▸ (List.getElem?_eq_some_iff.mp hx).1
    obtain ⟨b, hb, i, hi, rfl⟩ := exists_bucket hj
    rw [getElem?_buckets (fun b _ ↦ hc b) hb hi] at hx
    rw [Nat.zero_add]
    exact hmoved b hb i x hx
  refine ⟨r.1, (cumulate (List.range 257) c 0 rspartition 0).2, ?_, fun b hb ↦ ?_, hmax⟩
  · dsimp only
    rw [hcount, Option.bind_some]
    change (distribute strings ctx.indx seg.reverse
      (cumulate (List.range 257) c 0 rspartition 0).1 fun _ ↦ none).bind _ = _
    rw [hr, Option.bind_some, hcopy]
    rfl
  · rcases Nat.eq_or_lt_of_le hb with rfl | hlt'
    · rw [hothers 256 (Nat.le_refl _), hsums 256 (Nat.lt_succ_self _), start_succ, hzero,
        Nat.add_zero]
    · exact hstarts b hlt'

end Bsd386.Libc.Radixsort
