import Bsd386.Libc.Radixsort.Contexts
import Mathlib.Algebra.Order.Group.Nat

/-!
# Dividing a part

A pass looks at one more weight of the strings of a part. Behind it the strings of smaller weights
stand before those of larger ones, and those of one bucket begin with one more common weight, so
that the buckets are what is left to be sorted. The strings in the bucket of the end byte are equal.
-/

namespace Bsd386.Libc.Radixsort

variable {α : Type*} {strings : Strings α} {l l₀ seg : List α} {b b' i j max : ℕ}
  {ctx : Context} {ctxs : List Context} {c : ℕ → ℕ} {w : List ℕ} {p x y : α}

/-- The weight at which a pass looks. -/
def Strings.digit (strings : Strings α) (indx : ℕ) (p : α) : ℕ :=
  (strings.weights p ++ [0])[indx]?.getD 0

/-! ## Weights -/

theorem key_digit (hp : w <+: strings.weights p) :
    strings.key w.length p = some (strings.digit w.length p) := by
  have hlt : w.length < (strings.weights p ++ [0]).length := by
    have hle := hp.length_le
    rw [List.length_append, List.length_singleton]
    omega
  rw [key_eq, Strings.digit, List.getElem?_eq_getElem hlt, Option.getD_some]

/-- A string ends at the weight or begins with it. -/
theorem digit_cases (hp : w <+: strings.weights p) :
    strings.digit w.length p = 0 ∧ strings.weights p = w ∨
      strings.digit w.length p ≠ 0 ∧ strings.digit w.length p < 256 ∧
        w ++ [strings.digit w.length p] <+: strings.weights p := by
  obtain ⟨rest, hrest⟩ := hp
  rw [Strings.digit, ← hrest]
  cases rest with
  | nil =>
    rw [List.append_nil, List.getElem?_concat_length]
    exact Or.inl ⟨rfl, rfl⟩
  | cons a rest =>
    have ha : a ∈ strings.weights p := by
      rw [← hrest]
      exact List.mem_append_right w List.mem_cons_self
    have hdigit : (w ++ a :: rest ++ [0])[w.length]?.getD 0 = a := by simp
    rw [hdigit]
    refine Or.inr ⟨Strings.ne_zero ha, Strings.lt_256 ha, ⟨rest, ?_⟩⟩
    rw [List.append_assoc, List.singleton_append]

theorem digit_lt (hp : w <+: strings.weights p) : strings.digit w.length p < 256 := by
  rcases digit_cases hp with ⟨hzero, -⟩ | ⟨-, hlt, -⟩
  · rw [hzero]
    decide
  · exact hlt

/-- Strings with different weights are in the order of these. -/
theorem le_of_digit_lt (hx : w <+: strings.weights x) (hy : w <+: strings.weights y)
    (hlt : strings.digit w.length x < strings.digit w.length y) : strings.Le x y := by
  have hyne : strings.digit w.length y ≠ 0 := Nat.ne_of_gt (Nat.zero_lt_of_lt hlt)
  obtain ⟨-, -, restY, hrestY⟩ := (digit_cases hy).resolve_left fun h ↦ hyne h.1
  rw [Strings.Le, ← hrestY]
  rcases digit_cases hx with ⟨-, hend⟩ | ⟨-, -, restX, hrestX⟩
  · rw [hend, List.append_assoc]
    exact Before.not_append
  · rw [← hrestX, List.append_assoc, List.append_assoc]
    exact Before.asymm ((Before.append_iff w _ _).mpr (List.Lex.rel hlt))

/-- Strings that end at the weight are equal. -/
theorem le_of_digit_zero (hx : w <+: strings.weights x) (hy : w <+: strings.weights y)
    (hzero : strings.digit w.length x = 0) : strings.Le x y := by
  have hend := ((digit_cases hx).resolve_right fun h ↦ h.1 hzero).2
  obtain ⟨rest, hrest⟩ := hy
  rw [Strings.Le, hend, ← hrest]
  exact Before.not_append

/-! ## The order of the buckets -/

/-- All buckets but that of the end byte are in the order. -/
theorem order_perm (hmax : max < 256) : (order max).Perm (List.range' 1 255) := by
  have hsplit : List.range' 1 255 = List.range' 1 max ++ List.range' (max + 1) (255 - max) := by
    have happend := List.range'_append_1 (s := 1) (m := max) (n := 255 - max)
    rw [Nat.add_sub_cancel' (Nat.le_of_lt_succ hmax), Nat.add_comm 1 max] at happend
    exact happend.symm
  have hsize : NBUCKETS - (max + 1) = 255 - max := by
    rw [NBUCKETS]
    omega
  rw [order, hsplit, hsize]
  exact (List.reverse_perm _).append_right _

theorem mem_order (hmax : max < 256) : b ∈ order max ↔ 1 ≤ b ∧ b < 256 := by
  rw [(order_perm hmax).mem_iff, List.mem_range'_1]

theorem nodup_order (hmax : max < 256) : (order max).Nodup :=
  (order_perm hmax).nodup_iff.mpr (List.nodup_range' 1)

/-! ## The places of the buckets -/

/-- Different buckets do not overlap. -/
theorem bucketOf_apart (bot indx : ℕ) (hne : b ≠ b') :
    (bucketOf bot indx c b).place.Apart (bucketOf bot indx c b').place := by
  intro i hi hi'
  rw [Context.has_place, bucketOf] at hi hi'
  dsimp only at hi hi'
  rcases Nat.lt_or_gt_of_ne hne with hlt | hlt
  · have hmono := start_mono c (Nat.succ_le_of_lt hlt)
    rw [Nat.succ_eq_add_one, start_succ] at hmono
    omega
  · have hmono := start_mono c (Nat.succ_le_of_lt hlt)
    rw [Nat.succ_eq_add_one, start_succ] at hmono
    omega

/-- The buckets are in the part. -/
theorem start_add_le (hb : b < 256) (hall : start c 256 = ctx.nmemb) :
    start c b + c b ≤ ctx.nmemb := by
  rw [← start_succ, ← hall]
  exact start_mono c hb

/-- The strings of a bucket. -/
theorem part_buckets {kf : α → ℕ} (hc : ∀ b, c b = (inBucket kf seg b).length) (hb : b < 256) :
    part (buckets kf seg 256) (start c b) (c b) = inBucket kf seg b := by
  apply List.ext_getElem?
  intro k
  rw [getElem?_part]
  split_ifs with hk
  · exact getElem?_buckets (fun b _ ↦ hc b) hb hk
  · rw [List.getElem?_eq_none]
    rw [← hc b]
    exact Nat.le_of_not_lt hk

/-! ## The pass -/

/-- Two strings that the pass moved are in order, or in one of the buckets. -/
theorem buckets_ordered (hbegin : ∀ p ∈ seg, w <+: strings.weights p)
    (hc : ∀ b, c b = (inBucket (strings.digit w.length) seg b).length) (hij : i < j)
    (hx : (buckets (strings.digit w.length) seg 256)[i]? = some x)
    (hy : (buckets (strings.digit w.length) seg 256)[j]? = some y)
    (hout : ∀ b, 1 ≤ b → b < 256 →
      ¬((start c b ≤ i ∧ i < start c b + c b) ∧ start c b ≤ j ∧ j < start c b + c b)) :
    strings.Le x y := by
  have hlength := length_buckets (n := 256) fun b _ ↦ hc b
  have hi : i < start c 256 := hlength ▸ (List.getElem?_eq_some_iff.mp hx).1
  have hj : j < start c 256 := hlength ▸ (List.getElem?_eq_some_iff.mp hy).1
  obtain ⟨b, hb, i', hi', rfl⟩ := exists_bucket hi
  obtain ⟨b', hb', j', hj', rfl⟩ := exists_bucket hj
  rw [getElem?_buckets (fun b _ ↦ hc b) hb hi'] at hx
  rw [getElem?_buckets (fun b _ ↦ hc b) hb' hj'] at hy
  obtain ⟨hxseg, hxdigit⟩ := List.mem_filter.mp (List.mem_of_getElem? hx)
  obtain ⟨hyseg, hydigit⟩ := List.mem_filter.mp (List.mem_of_getElem? hy)
  have hxd := of_decide_eq_true hxdigit
  have hyd := of_decide_eq_true hydigit
  rcases Nat.lt_trichotomy b b' with hlt | heq | hgt
  · exact le_of_digit_lt (hbegin x hxseg) (hbegin y hyseg) (by omega)
  · subst heq
    by_cases hzero : b = 0
    · exact le_of_digit_zero (hbegin x hxseg) (hbegin y hyseg) (by omega)
    · exact absurd ⟨⟨by omega, by omega⟩, by omega, by omega⟩
        (hout b (Nat.pos_of_ne_zero hzero) hb)
  · have hmono := start_mono c (Nat.succ_le_of_lt hgt)
    rw [Nat.succ_eq_add_one, start_succ] at hmono
    omega

/-- The buckets of a part are left to be sorted. -/
theorem Good.divide (h : Good strings l₀ l (ctx :: ctxs))
    (hw : w.length = ctx.indx) (hbegin : ∀ p ∈ part l ctx.bot ctx.nmemb, w <+: strings.weights p)
    (hc : ∀ b, c b =
      (inBucket (strings.digit ctx.indx) (part l ctx.bot ctx.nmemb) b).length)
    (hmax : max < 256) :
    Good strings l₀
        (splice l ctx.bot (buckets (strings.digit ctx.indx) (part l ctx.bot ctx.nmemb) 256))
        ((order max).map (bucketOf ctx.bot (ctx.indx + 1) c) ++ ctxs) ∧
      ∀ t ∈ ctxs,
        part (splice l ctx.bot (buckets (strings.digit ctx.indx) (part l ctx.bot ctx.nmemb) 256))
          t.bot t.nmemb = part l t.bot t.nmemb := by
  have hend := (h.ready ctx List.mem_cons_self).1
  rw [← hw] at hc ⊢
  have hlt : ∀ p ∈ part l ctx.bot ctx.nmemb, strings.digit w.length p < 256 :=
    fun p hp ↦ digit_lt (hbegin p hp)
  have hperm := buckets_perm hlt
  have hlength := hperm.length_eq.trans (length_part hend)
  have hall : start c 256 = ctx.nmemb := (length_buckets fun b _ ↦ hc b).symm.trans hlength
  have hend' : ctx.bot +
      (buckets (strings.digit w.length) (part l ctx.bot ctx.nmemb) 256).length ≤ l.length := by
    rw [hlength]
    exact hend
  apply h.rearrange hperm
  · intro s hs
    obtain ⟨b, hb, rfl⟩ := List.mem_map.mp hs
    obtain ⟨hpos, hb⟩ := (mem_order hmax).mp hb
    have hfit := start_add_le hb hall
    refine ⟨?_, w ++ [b], ?_, fun p hp ↦ ?_⟩
    · rw [length_splice hend', bucketOf]
      dsimp only
      omega
    · rw [List.length_append, List.length_singleton, bucketOf]
    · rw [bucketOf, part_splice_inside hend' (by rw [hlength]; exact hfit),
        part_buckets hc hb] at hp
      obtain ⟨hseg, hdigit⟩ := List.mem_filter.mp hp
      have hd := of_decide_eq_true hdigit
      have hnext := ((digit_cases (hbegin p hseg)).resolve_left fun hz ↦ by omega).2.2
      rw [hd] at hnext
      exact hnext
  · intro s hs i hi
    obtain ⟨b, hb, rfl⟩ := List.mem_map.mp hs
    obtain ⟨-, hb⟩ := (mem_order hmax).mp hb
    have hfit := start_add_le hb hall
    rw [Context.has_place, bucketOf] at hi
    dsimp only at hi
    rw [Context.has_place]
    omega
  · refine List.pairwise_map.mpr ((nodup_order hmax).imp fun hne ↦ ?_)
    exact bucketOf_apart _ _ hne
  · intro i j x y hij hx hy hout
    refine buckets_ordered hbegin hc hij hx hy fun b hpos hb hboth ↦ ?_
    have hmem := List.mem_map_of_mem (f := bucketOf ctx.bot (w.length + 1) c)
      ((mem_order hmax).mpr ⟨hpos, hb⟩)
    refine hout _ hmem ?_
    rw [Context.has_place, Context.has_place, bucketOf]
    dsimp only
    omega

/-! ## What is left -/

theorem sum_buckets (kf f : α → ℕ) (seg : List α) (n : ℕ) :
    ((buckets kf seg n).map f).sum =
      ((List.range n).map fun b ↦ ((inBucket kf seg b).map f).sum).sum := by
  induction n with
  | zero => rfl
  | succ n ih =>
    rw [buckets_succ, List.map_append, List.sum_append, ih, List.range_succ, List.map_append,
      List.sum_append, List.map_singleton, List.sum_singleton]

/-- A byte less is left for each string. -/
theorem sum_pred {indx : ℕ} (hseg : ∀ p ∈ seg, indx ≤ (strings.weights p).length) :
    (seg.map fun p ↦ (strings.weights p).length + 1 - (indx + 1)).sum + seg.length =
      (seg.map fun p ↦ (strings.weights p).length + 1 - indx).sum := by
  induction seg with
  | nil => rfl
  | cons p seg ih =>
    have hp := hseg p List.mem_cons_self
    have hrest := ih fun q hq ↦ hseg q (List.mem_cons_of_mem p hq)
    rw [List.map_cons, List.map_cons, List.sum_cons, List.sum_cons, List.length_cons]
    omega

/-- The buckets have less to be looked at than the part had. -/
theorem total_divide (hend : ctx.bot + ctx.nmemb ≤ l.length) (hw : w.length = ctx.indx)
    (hbegin : ∀ p ∈ part l ctx.bot ctx.nmemb, w <+: strings.weights p)
    (hc : ∀ b, c b =
      (inBucket (strings.digit ctx.indx) (part l ctx.bot ctx.nmemb) b).length)
    (hmax : max < 256)
    (hkept : ∀ t ∈ ctxs,
      part (splice l ctx.bot (buckets (strings.digit ctx.indx) (part l ctx.bot ctx.nmemb) 256))
        t.bot t.nmemb = part l t.bot t.nmemb) :
    total strings
        (splice l ctx.bot (buckets (strings.digit ctx.indx) (part l ctx.bot ctx.nmemb) 256))
        ((order max).map (bucketOf ctx.bot (ctx.indx + 1) c) ++ ctxs) + ctx.nmemb ≤
      total strings l (ctx :: ctxs) := by
  rw [← hw] at hc hkept ⊢
  have hlt : ∀ p ∈ part l ctx.bot ctx.nmemb, strings.digit w.length p < 256 :=
    fun p hp ↦ digit_lt (hbegin p hp)
  have hperm := buckets_perm hlt
  have hlength := hperm.length_eq.trans (length_part hend)
  have hall : start c 256 = ctx.nmemb := (length_buckets fun b _ ↦ hc b).symm.trans hlength
  have hend' : ctx.bot +
      (buckets (strings.digit w.length) (part l ctx.bot ctx.nmemb) 256).length ≤ l.length := by
    rw [hlength]
    exact hend
  have hothers : total strings
      (splice l ctx.bot (buckets (strings.digit w.length) (part l ctx.bot ctx.nmemb) 256)) ctxs =
        total strings l ctxs := by
    rw [total, total]
    refine congrArg List.sum (List.map_congr_left fun t ht ↦ ?_)
    rw [cost, cost, hkept t ht]
  have hbucket (b : ℕ) (hb : b ∈ order max) : cost strings
      (splice l ctx.bot (buckets (strings.digit w.length) (part l ctx.bot ctx.nmemb) 256))
        (bucketOf ctx.bot (w.length + 1) c b) =
      ((inBucket (strings.digit w.length) (part l ctx.bot ctx.nmemb) b).map fun p ↦
        (strings.weights p).length + 1 - (w.length + 1)).sum := by
    have hb := ((mem_order hmax).mp hb).2
    have hfit := start_add_le hb hall
    rw [cost, bucketOf, part_splice_inside hend' (by rw [hlength]; exact hfit), part_buckets hc hb]
  have hrange : List.range 256 = 0 :: List.range' 1 255 := by
    rw [List.range_eq_range', List.range'_succ]
  have hsubs : total strings
      (splice l ctx.bot (buckets (strings.digit w.length) (part l ctx.bot ctx.nmemb) 256))
        ((order max).map (bucketOf ctx.bot (w.length + 1) c)) ≤
      ((part l ctx.bot ctx.nmemb).map fun p ↦
        (strings.weights p).length + 1 - (w.length + 1)).sum := by
    rw [total, List.map_map, ← (hperm.map _).sum_eq, sum_buckets, hrange, List.map_cons,
      List.sum_cons, ← ((order_perm hmax).map _).sum_eq]
    refine Nat.le_trans (Nat.le_of_eq ?_) (Nat.le_add_left _ _)
    exact congrArg List.sum (List.map_congr_left hbucket)
  have hread : ∀ p ∈ part l ctx.bot ctx.nmemb, w.length ≤ (strings.weights p).length :=
    fun p hp ↦ (hbegin p hp).length_le
  have hpred := sum_pred hread
  rw [length_part hend] at hpred
  have happend : total strings
      (splice l ctx.bot (buckets (strings.digit w.length) (part l ctx.bot ctx.nmemb) 256))
        ((order max).map (bucketOf ctx.bot (w.length + 1) c) ++ ctxs) =
      total strings
        (splice l ctx.bot (buckets (strings.digit w.length) (part l ctx.bot ctx.nmemb) 256))
          ((order max).map (bucketOf ctx.bot (w.length + 1) c)) + total strings l ctxs := by
    rw [← hothers, total, total, total, List.map_append, List.sum_append]
  have hcons : total strings l (ctx :: ctxs) =
      ((part l ctx.bot ctx.nmemb).map fun p ↦ (strings.weights p).length + 1 - w.length).sum +
        total strings l ctxs := by
    rw [total, List.map_cons, List.sum_cons, cost, hw]
    rfl
  rw [happend, hcons]
  omega

end Bsd386.Libc.Radixsort

/-!
# Radix sort sorts

Whatever is on the stack, the contexts that its partition can still need fit above it. With that the
loop always finds room for the buckets, and as each pass takes a byte of its strings it ends, with
no part left to be sorted.
-/

namespace Bsd386.Libc.Radixsort

variable {α : Type*} {strings : Strings α} {l l₀ : List α} {max limit n t k e b : ℕ}
  {ctx : Context} {stack : List Context} {c : ℕ → ℕ}

/-! ## The buckets that are pushed -/

/-- The buckets that are pushed. -/
def pushes (c : ℕ → ℕ) (max : ℕ) : List ℕ := (order max).filter (c · > rspartition)

theorem mem_pushes (hmax : max < 256) :
    b ∈ pushes c max ↔ (1 ≤ b ∧ b < 256) ∧ rspartition < c b := by
  rw [pushes, List.mem_filter, mem_order hmax, decide_eq_true_iff]

/-- All strings that are pushed, and those in the bucket of the end byte, are in the part. -/
theorem sum_pushes (hmax : max < 256) (hall : start c 256 = n) :
    c 0 + ((pushes c max).map c).sum ≤ n := by
  have hsub : ((pushes c max).map c).sum ≤ ((order max).map c).sum :=
    (List.filter_sublist.map c).sum_le_sum fun _ _ ↦ Nat.zero_le _
  have hrange : List.range 256 = 0 :: List.range' 1 255 := by
    rw [List.range_eq_range', List.range'_succ]
  rw [start, hrange, List.map_cons, List.sum_cons, ← ((order_perm hmax).map c).sum_eq] at hall
  omega

/-- Each bucket that is pushed has more strings than are sorted by `shellsort`. -/
theorem le_sum_of_large {bs : List ℕ} (hbs : ∀ b ∈ bs, rspartition < c b) :
    41 * bs.length ≤ (bs.map c).sum := by
  induction bs with
  | nil => exact Nat.le_refl 0
  | cons b bs ih =>
    have hb := hbs b List.mem_cons_self
    have hrest := ih fun b' hb' ↦ hbs b' (List.mem_cons_of_mem b hb')
    rw [rspartition] at hb
    rw [List.length_cons, List.map_cons, List.sum_cons]
    omega

/-- The largest bucket is pushed first. -/
theorem pushes_eq_cons (hpos : max ≠ 0) (hlarge : rspartition < c max) :
    ∃ bs, pushes c max = max :: bs := by
  obtain ⟨m, rfl⟩ := Nat.exists_eq_succ_of_ne_zero hpos
  rw [pushes, order, Nat.succ_eq_add_one, List.range'_1_concat, List.reverse_append,
    List.reverse_singleton, List.singleton_append, List.cons_append, Nat.add_comm 1 m,
    List.filter_cons_of_pos (by simpa using hlarge)]
  exact ⟨_, rfl⟩

/-- A bucket that is pushed over others has no more than half of the strings, less what those
between have at least. -/
theorem pushed_over (hmax : max < 256) (hall : start c 256 = n) (hlargest : IsMax c 257 max)
    (hb : (pushes c max)[e]? = some b) (he : 1 ≤ e) : 2 * c b + 41 * (e - 1) ≤ n := by
  have hsum := sum_pushes hmax hall
  obtain ⟨hlt, hget⟩ := List.getElem?_eq_some_iff.mp hb
  have hmem : b ∈ pushes c max := List.mem_of_getElem? hb
  obtain ⟨hrange, hcut⟩ := (mem_pushes hmax).mp hmem
  have hle : c b ≤ c max := (hlargest.le b (by omega)).resolve_left (Nat.not_le.mpr hcut)
  have hsplit : pushes c max = (pushes c max).take e ++ b :: (pushes c max).drop (e + 1) := by
    rw [← hget, ← List.drop_eq_getElem_cons hlt, List.take_append_drop]
  have hbefore : ∀ b' ∈ (pushes c max).take e, rspartition < c b' := fun b' hb' ↦
    ((mem_pushes hmax).mp (List.mem_of_mem_take hb')).2
  have hparts : ((pushes c max).map c).sum =
      (((pushes c max).take e).map c).sum + (c b + (((pushes c max).drop (e + 1)).map c).sum) := by
    rw [← List.sum_cons, ← List.map_cons, ← List.sum_append, ← List.map_append, ← hsplit]
  have hlength : ((pushes c max).take e).length = e := by
    rw [List.length_take]
    omega
  rcases hlargest.first with hzero | ⟨hlarge, -⟩
  · rw [hzero] at hle
    have hlow := le_sum_of_large hbefore
    omega
  · by_cases hpos : max = 0
    · rw [hpos] at hle
      have hlow := le_sum_of_large hbefore
      omega
    · obtain ⟨bs, hbs⟩ := pushes_eq_cons hpos hlarge
      obtain ⟨e', rfl⟩ := Nat.exists_eq_add_of_le' he
      rw [hbs, List.take_succ_cons] at hbefore hparts hlength
      have hlow := le_sum_of_large fun b' hb' ↦ hbefore b' (List.mem_cons_of_mem max hb')
      rw [List.length_cons] at hlength
      rw [← hbs, List.map_cons, List.sum_cons] at hparts
      omega

/-! ## Heights -/

/-- Above each context there is room for those that its partition needs. -/
def Heights (limit : ℕ) (stack : List Context) : Prop :=
  ∀ k ctx, stack.reverse[k]? = some ctx →
    0 < ctx.nmemb ∧ ∃ t, AtLevel t ctx.nmemb ∧ k + need t ctx.nmemb ≤ limit

/-- The buckets of a partition fit on the stack, with those that they need. -/
theorem Heights.push (bot indx : ℕ) (h : Heights limit (ctx :: stack)) (hmax : max < 256)
    (hall : start c 256 = ctx.nmemb) (hlargest : IsMax c 257 max)
    (hlt : ctx.nmemb < 2 ^ 31 - 1) :
    stack.length + (pushes c max).length ≤ limit ∧
      Heights limit (((pushes c max).map (bucketOf bot indx c)).reverse ++ stack) := by
  have htop : (ctx :: stack).reverse[stack.length]? = some ctx := by
    rw [List.reverse_cons, List.getElem?_append_right (by rw [List.length_reverse]),
      List.length_reverse, Nat.sub_self]
    rfl
  obtain ⟨-, t, ht, hneed⟩ := h _ _ htop
  have hsum := sum_pushes hmax hall
  have hmany := le_sum_of_large fun b hb ↦ ((mem_pushes (c := c) hmax).mp hb).2
  have hfew : (pushes c max).length ≤ 255 := by
    have hle := List.length_filter_le (fun b ↦ decide (c b > rspartition)) (order max)
    rw [(order_perm hmax).length_eq, List.length_range'] at hle
    exact hle
  have hroom := pushed_le_need ht hfew (by omega)
  refine ⟨by omega, fun k s hs ↦ ?_⟩
  rw [List.reverse_append, List.reverse_reverse] at hs
  by_cases hbelow : k < stack.length
  · have hold : (ctx :: stack).reverse[k]? = some s := by
      rw [List.getElem?_append_left (by rw [List.length_reverse]; exact hbelow)] at hs
      rw [List.reverse_cons, List.getElem?_append_left (by rw [List.length_reverse]; exact hbelow)]
      exact hs
    exact h k s hold
  · rw [List.getElem?_append_right (by rw [List.length_reverse]; exact Nat.le_of_not_lt hbelow),
      List.length_reverse, List.getElem?_map] at hs
    obtain ⟨b, hb, rfl⟩ := Option.map_eq_some_iff.mp hs
    obtain ⟨hrange, hcut⟩ := (mem_pushes hmax).mp (List.mem_of_getElem? hb)
    have hfit := start_add_le hrange.2 hall
    have hindex := (List.getElem?_eq_some_iff.mp hb).1
    rw [rspartition] at hcut
    obtain ⟨s, hs, -⟩ := exists_level (n := c b) (by omega)
    refine ⟨by rw [bucketOf]; dsimp only; omega, s, hs, ?_⟩
    rw [bucketOf]
    dsimp only
    by_cases hfirst : k = stack.length
    · have hmono := need_mono hs ht (by omega)
      omega
    · have hover := pushed_over hmax hall hlargest hb (by omega)
      have hfits := add_need_le hs ht (e := k - stack.length) (by omega) (by omega) (by omega) hover
      omega

/-! ## The loop -/

/-- The loop sorts the array. -/
theorem loop_sorts {fuel : ℕ} (hgood : Good strings l₀ l (ctx :: stack))
    (hheights : Heights limit (ctx :: stack)) (hlt : l₀.length < 2 ^ 31 - 1)
    (hfuel : total strings l (ctx :: stack) < fuel) :
    ∃ l', loop strings limit fuel ctx stack l = some l' ∧ Good strings l₀ l' [] := by
  induction fuel generalizing ctx stack l with
  | zero => exact absurd hfuel (Nat.not_lt_zero _)
  | succ fuel ih =>
    obtain ⟨hend, w, hw, hbegin⟩ := hgood.ready ctx List.mem_cons_self
    have hkey : ∀ p ∈ part l ctx.bot ctx.nmemb,
        strings.key ctx.indx p = some (strings.digit ctx.indx p) := by
      rw [← hw]
      exact fun p hp ↦ key_digit (hbegin p hp)
    have hdigit : ∀ p ∈ part l ctx.bot ctx.nmemb, strings.digit ctx.indx p < 256 := by
      rw [← hw]
      exact fun p hp ↦ digit_lt (hbegin p hp)
    obtain ⟨c, hc⟩ : ∃ c : ℕ → ℕ, ∀ b, c b =
        (inBucket (strings.digit ctx.indx) (part l ctx.bot ctx.nmemb) b).length :=
      ⟨_, fun _ ↦ rfl⟩
    obtain ⟨starts, max, hpass, hstarts, hlargest⟩ := pass_spec hend hkey hdigit c hc
    have hall : start c 256 = ctx.nmemb := by
      rw [← length_buckets (n := 256) (fun b _ ↦ hc b), (buckets_perm hdigit).length_eq,
        length_part hend]
    have hmax : max < 256 := by
      rcases hlargest.first with rfl | ⟨hlarge, hlt⟩
      · decide
      · have hzero : c 256 = 0 := by
          rw [hc, List.length_eq_zero_iff, inBucket, List.filter_eq_nil_iff]
          exact fun p hp h ↦ absurd (of_decide_eq_true h) (Nat.ne_of_lt (hdigit p hp))
        have hne : max ≠ 256 := fun heq ↦ by
          rw [heq, hzero] at hlarge
          exact absurd hlarge (Nat.not_lt_zero _)
        omega
    obtain ⟨hdivide, hkept⟩ := hgood.divide hw hbegin hc hmax
    have hcost := total_divide hend hw hbegin hc hmax hkept
    have hlength := hgood.perm.length_eq
    obtain ⟨hroom, hheights'⟩ := hheights.push ctx.bot (ctx.indx + 1) hmax hall hlargest
      (by omega)
    obtain ⟨l', hrun, hgood', hcost'⟩ := foldlM_bucket hstarts
      (fun b hb ↦ ((mem_order hmax).mp hb).2) hdivide hroom
    rw [loop, hpass, Option.bind_some, hrun, Option.bind_some]
    obtain ⟨hpos, -⟩ := hheights stack.length ctx (by simp)
    rw [pushes] at hheights'
    generalize (((order max).filter (c · > rspartition)).map
      (bucketOf ctx.bot (ctx.indx + 1) c)).reverse ++ stack = pushed at *
    cases pushed with
    | nil => exact ⟨l', rfl, hgood'⟩
    | cons ctx' stack' =>
      have hless : total strings l' (ctx' :: stack') < fuel := by omega
      exact ih hgood' hheights' hless

/-- Without a part that is left the array is sorted. -/
theorem Good.sorted (h : Good strings l₀ l []) : l.Pairwise strings.Le := by
  rw [List.pairwise_iff_getElem]
  intro i j hi hj hij
  exact h.ordered.sorted hij hj _ (List.getElem?_eq_getElem hi) _ (List.getElem?_eq_getElem hj)

/-- `radixsort` leaves a sorted permutation, reads no byte behind an end byte and pushes no more
contexts than there is room for. -/
theorem radixsort_sorts (strings : Strings α) (l : List α) (hlt : l.length < 2 ^ 31 - 1) :
    ∃ l', radixsort strings l = some l' ∧ l'.Perm l ∧ l'.Pairwise strings.Le := by
  rw [radixsort]
  split_ifs with hfew
  · refine ⟨l, rfl, List.Perm.refl l, List.pairwise_iff_getElem.mpr fun i j hi hj hij ↦ ?_⟩
    omega
  · obtain ⟨t, ht, hsize⟩ := exists_level hlt
    have hwhole : part l 0 l.length = l := by
      rw [part, List.drop_zero, List.take_length]
    have hgood : Good strings l l [⟨0, 0, l.length⟩] := by
      refine ⟨List.Perm.refl l, fun ctx hctx ↦ ?_, List.pairwise_singleton _ _, orderedBut_whole⟩
      rw [List.mem_singleton.mp hctx]
      exact ⟨Nat.le_of_eq (Nat.zero_add _), [], rfl, fun p _ ↦ List.nil_prefix⟩
    have hheights : Heights (stackSize 32 l.length 0) [⟨0, 0, l.length⟩] := by
      intro k ctx hctx
      rw [List.reverse_singleton, List.getElem?_singleton] at hctx
      split_ifs at hctx with hk
      rw [← Option.some_inj.mp hctx, hk]
      dsimp only
      exact ⟨by omega, t, ht, by rw [hsize, Nat.zero_add]; exact need_le t l.length⟩
    have htotal : total strings l [⟨0, 0, l.length⟩] =
        (l.map fun p ↦ (strings.text p).length + 1).sum := by
      rw [total, List.map_singleton, List.sum_singleton, cost, hwhole]
      refine congrArg List.sum (List.map_congr_left fun p _ ↦ ?_)
      rw [Strings.weights, List.length_map, Nat.sub_zero]
    obtain ⟨l', hrun, hsorted⟩ := loop_sorts hgood hheights hlt (Nat.lt_succ_of_le
      (Nat.le_of_eq htotal))
    exact ⟨l', hrun, hsorted.perm, hsorted.sorted⟩

/-- A string stands before one that goes on. -/
theorem radixsort_sorts_pair : ∃ strings : Strings Bool,
    strings.text true = [1] ∧ strings.text false = [1, 2] ∧
      ∃ l', radixsort strings [false, true] = some l' ∧ l'.Perm [false, true] ∧
        l'.Pairwise strings.Le :=
  have htab (t : BitVec 8 → BitVec 8) (h : (none : Option (BitVec 8 → BitVec 8)) = some t) :
      ∀ c, t c = 0 ↔ c = 0 := absurd h (Option.some_ne_none t).symm
  ⟨⟨fun b ↦ if b then [1] else [1, 2], 0, none, by decide, htab⟩, rfl, rfl,
    radixsort_sorts _ [false, true] (by decide)⟩

end Bsd386.Libc.Radixsort
