import Bsd386.Lib.Segments
import Bsd386.Libc.Radixsort.Partition
import Bsd386.Libc.Radixsort.Basic
import Mathlib.Algebra.Order.BigOperators.Group.List

/-!
# Contexts

The strings are in order except for those that are both in the part of a context that is still to be
sorted. A pass divides such a part, and the loops over the buckets sort the small ones and push the
others.
-/

namespace Bsd386.Libc.Radixsort

variable {α : Type*} {strings : Strings α} {l l₀ l' seg : List α} {lo len a b i j n : ℕ}
  {ctx : Context} {ctxs stack : List Context} {c : ℕ → ℕ} {w : List ℕ} {x y : α}

/-! ## Parts of an array -/

theorem getElem?_part (l : List α) (lo len k : ℕ) :
    (part l lo len)[k]? = if k < len then l[lo + k]? else none := by
  rw [part, List.getElem?_take, List.getElem?_drop]

theorem length_part (h : lo + len ≤ l.length) : (part l lo len).length = len := by
  rw [part, List.length_take, List.length_drop]
  omega

theorem mem_part : x ∈ part l lo len ↔ ∃ i, lo ≤ i ∧ i < lo + len ∧ l[i]? = some x := by
  rw [List.mem_iff_getElem?]
  constructor
  · rintro ⟨k, hk⟩
    rw [getElem?_part] at hk
    split_ifs at hk with hlt
    exact ⟨lo + k, Nat.le_add_right lo k, by omega, hk⟩
  · rintro ⟨i, hlow, hhigh, hi⟩
    refine ⟨i - lo, ?_⟩
    rw [getElem?_part, if_pos (by omega), Nat.add_sub_cancel' hlow]
    exact hi

theorem getElem?_splice (h : lo + seg.length ≤ l.length) (i : ℕ) :
    (splice l lo seg)[i]? = if lo ≤ i ∧ i < lo + seg.length then seg[i - lo]? else l[i]? := by
  have hlo : (l.take lo).length = lo := by
    rw [List.length_take]
    omega
  rw [splice]
  by_cases hbelow : i < lo
  · rw [if_neg (by omega), List.getElem?_append_left (by omega), List.getElem?_take, if_pos hbelow]
  · rw [List.getElem?_append_right (by omega), hlo]
    by_cases hin : i < lo + seg.length
    · rw [if_pos (by omega), List.getElem?_append_left (by omega)]
    · rw [if_neg (by omega), List.getElem?_append_right (by omega), List.getElem?_drop]
      congr 1
      omega

theorem length_splice (h : lo + seg.length ≤ l.length) : (splice l lo seg).length = l.length := by
  rw [splice, List.length_append, List.length_append, List.length_take, List.length_drop]
  omega

/-- Writing back a permutation of a part permutes the array. -/
theorem splice_perm (hseg : seg.Perm (part l lo len)) (h : lo + len ≤ l.length) :
    (splice l lo seg).Perm l := by
  have hlength : seg.length = len := hseg.length_eq.trans (length_part h)
  have hsplit : l = l.take lo ++ (part l lo len ++ l.drop (lo + len)) := by
    rw [part, ← List.drop_drop, List.take_append_drop, List.take_append_drop]
  rw [splice, hlength]
  calc (l.take lo ++ (seg ++ l.drop (lo + len))).Perm
        (l.take lo ++ (part l lo len ++ l.drop (lo + len))) := (hseg.append_right _).append_left _
    _ = l := hsplit.symm

/-- A part that is written back as it is. -/
theorem splice_part (h : lo + len ≤ l.length) : splice l lo (part l lo len) = l := by
  rw [splice, length_part h, part, ← List.drop_drop, List.take_append_drop, List.take_append_drop]

/-- A part inside of what was written back. -/
theorem part_splice_inside (h : lo + seg.length ≤ l.length) (hin : a + len ≤ seg.length) :
    part (splice l lo seg) (lo + a) len = part seg a len := by
  apply List.ext_getElem?
  intro k
  rw [getElem?_part, getElem?_part]
  split_ifs with hk
  · rw [getElem?_splice h, if_pos (by omega)]
    congr 1
    omega
  · rfl

/-- A part outside of what was written back. -/
theorem part_splice_outside (h : lo + seg.length ≤ l.length)
    (hout : ∀ i, a ≤ i → i < a + len → i < lo ∨ lo + seg.length ≤ i) :
    part (splice l lo seg) a len = part l a len := by
  apply List.ext_getElem?
  intro k
  rw [getElem?_part, getElem?_part]
  split_ifs with hk
  · rw [getElem?_splice h, if_neg]
    have hk' := hout (a + k) (by omega) (by omega)
    omega
  · rfl

/-! ## What is kept -/

/-- The part of a context. -/
def Context.place (ctx : Context) : Segment := ⟨ctx.bot, ctx.nmemb⟩

theorem Context.has_place : ctx.place.Has i ↔ ctx.bot ≤ i ∧ i < ctx.bot + ctx.nmemb := Iff.rfl

/-- The strings of a context begin with the same weights, of which as many were looked at. -/
def Ready (strings : Strings α) (l : List α) (ctx : Context) : Prop :=
  ctx.bot + ctx.nmemb ≤ l.length ∧ ∃ w, w.length = ctx.indx ∧
    ∀ p ∈ part l ctx.bot ctx.nmemb, w <+: strings.weights p

/-- Two places of the array are in order. -/
def InOrder (strings : Strings α) (o o' : Option α) : Prop :=
  ∀ x ∈ o, ∀ y ∈ o', strings.Le x y

/-- The array is sorted except for the parts of contexts, which do not overlap. -/
structure Good (strings : Strings α) (l₀ l : List α) (ctxs : List Context) : Prop where
  perm : l.Perm l₀
  ready : ∀ ctx ∈ ctxs, Ready strings l ctx
  apart : ctxs.Pairwise fun s t ↦ s.place.Apart t.place
  ordered : OrderedBut (InOrder strings) l.length (ctxs.map Context.place) fun i ↦ l[i]?

/-- The bytes that are left for the strings of a context, with one more for each. -/
def cost (strings : Strings α) (l : List α) (ctx : Context) : ℕ :=
  ((part l ctx.bot ctx.nmemb).map fun p ↦ (strings.weights p).length + 1 - ctx.indx).sum

/-- The bytes that are left for contexts. -/
def total (strings : Strings α) (l : List α) (ctxs : List Context) : ℕ :=
  (ctxs.map (cost strings l)).sum

theorem total_middle :
    total strings l (ctxs ++ ctx :: stack) =
      cost strings l ctx + total strings l (ctxs ++ stack) := by
  simp only [total, List.map_append, List.map_cons, List.sum_append, List.sum_cons]
  omega

/-- The order of the contexts does not matter. -/
theorem Good.reorder (h : Good strings l₀ l ctxs) {ctxs' : List Context}
    (hperm : ctxs.Perm ctxs') : Good strings l₀ l ctxs' where
  perm := h.perm
  ready ctx hctx := h.ready ctx (hperm.mem_iff.mpr hctx)
  apart := h.apart.perm hperm fun hst ↦ hst.symm
  ordered := h.ordered.mono fun _ hs ↦ (hperm.map Context.place).mem_iff.mp hs

/-- What is outside of a context is left when its part is rearranged. -/
theorem part_of_apart {t : Context} (hlength : seg.length = ctx.nmemb)
    (hend : ctx.bot + ctx.nmemb ≤ l.length) (hapart : ctx.place.Apart t.place) :
    part (splice l ctx.bot seg) t.bot t.nmemb = part l t.bot t.nmemb := by
  apply part_splice_outside (by rw [hlength]; exact hend)
  intro i hlow hhigh
  have hnot : ¬ctx.place.Has i := fun hi ↦ hapart i hi ⟨hlow, hhigh⟩
  rw [Segment.Has, Context.place] at hnot
  dsimp only at hnot
  omega

/-- The part of a context is rearranged, and divided into those of other contexts. -/
theorem Good.rearrange (h : Good strings l₀ l (ctx :: ctxs))
    (hseg : seg.Perm (part l ctx.bot ctx.nmemb)) {subs : List Context}
    (hready : ∀ s ∈ subs, Ready strings (splice l ctx.bot seg) s)
    (hinside : ∀ s ∈ subs, ∀ i, s.place.Has i → ctx.place.Has i)
    (hapart : subs.Pairwise fun s t ↦ s.place.Apart t.place)
    (horder : ∀ i j x y, i < j → seg[i]? = some x → seg[j]? = some y →
      (∀ s ∈ subs, ¬(s.place.Has (ctx.bot + i) ∧ s.place.Has (ctx.bot + j))) → strings.Le x y) :
    Good strings l₀ (splice l ctx.bot seg) (subs ++ ctxs) ∧
      ∀ t ∈ ctxs, part (splice l ctx.bot seg) t.bot t.nmemb = part l t.bot t.nmemb := by
  have hend := (h.ready ctx List.mem_cons_self).1
  have hlength : seg.length = ctx.nmemb := hseg.length_eq.trans (length_part hend)
  have hend' : ctx.bot + seg.length ≤ l.length := hlength ▸ hend
  obtain ⟨hfirst, hrest⟩ := List.pairwise_cons.mp h.apart
  have hkept (t : Context) (ht : t ∈ ctxs) :
      part (splice l ctx.bot seg) t.bot t.nmemb = part l t.bot t.nmemb :=
    part_of_apart hlength hend (hfirst t ht)
  refine ⟨⟨(splice_perm hseg hend).trans h.perm, ?_, ?_, ?_⟩, hkept⟩
  · intro t ht
    rcases List.mem_append.mp ht with ht | ht
    · exact hready t ht
    · rw [Ready, hkept t ht, length_splice hend']
      exact h.ready t (List.mem_cons_of_mem ctx ht)
  · refine List.pairwise_append.mpr ⟨hapart, hrest, fun s hs t ht i hi hit ↦ ?_⟩
    exact hfirst t ht i (hinside s hs i hi) hit
  · rw [List.map_append, length_splice hend']
    have hordered := h.ordered
    rw [List.map_cons] at hordered
    refine hordered.refine (fun t ht ↦ ?_) hend (fun i hi ↦ ?_) (fun i hi ↦ ?_) ?_
    · obtain ⟨ctx', hctx', rfl⟩ := List.mem_map.mp ht
      exact hfirst ctx' hctx'
    · rw [getElem?_splice hend', hlength, if_neg (mt Context.has_place.mpr hi)]
    · have hi' : ctx.bot ≤ i ∧ i < ctx.bot + seg.length := by
        rw [hlength]
        exact hi
      have hlt : i - ctx.bot < seg.length := by omega
      obtain ⟨j, hlow, hhigh, hj⟩ := mem_part.mp (hseg.mem_iff.mp (List.getElem_mem hlt))
      refine ⟨j, ⟨hlow, hhigh⟩, ?_⟩
      rw [getElem?_splice hend', if_pos hi', List.getElem?_eq_getElem hlt, hj]
    · intro i j hij hi hj hnot x hx y hy
      rw [getElem?_splice hend', hlength, if_pos (Context.has_place.mp hi)] at hx
      rw [getElem?_splice hend', hlength, if_pos (Context.has_place.mp hj)] at hy
      refine horder (i - ctx.bot) (j - ctx.bot) x y ?_ hx hy fun s hs hboth ↦ ?_
      · have hlow := hi.1
        dsimp only [Context.place] at hlow
        omega
      · rw [Nat.add_sub_cancel' (Context.has_place.mp hi).1,
          Nat.add_sub_cancel' (Context.has_place.mp hj).1] at hboth
        exact hnot s.place (List.mem_map_of_mem hs) hboth

/-- A part of at most one string is in order. -/
theorem Good.skip (h : Good strings l₀ l (ctx :: ctxs)) (hfew : ctx.nmemb < 2) :
    Good strings l₀ l ctxs := by
  have hend := (h.ready ctx List.mem_cons_self).1
  have horder (i j : ℕ) (x y : α) (hij : i < j) (hy : (part l ctx.bot ctx.nmemb)[j]? = some y) :
      strings.Le x y := by
    have hj := (List.getElem?_eq_some_iff.mp hy).1
    rw [length_part hend] at hj
    omega
  have hnone := (h.rearrange (List.Perm.refl _) (fun s hs ↦ absurd hs List.not_mem_nil)
    (fun s hs ↦ absurd hs List.not_mem_nil) List.Pairwise.nil
    fun i j x y hij _ hy _ ↦ horder i j x y hij hy).1
  rw [splice_part hend] at hnone
  exact hnone

/-- A part is sorted. -/
theorem Good.sort (h : Good strings l₀ l (ctx :: ctxs)) :
    ∃ seg, shellsort strings ctx.indx (part l ctx.bot ctx.nmemb) = some seg ∧
      Good strings l₀ (splice l ctx.bot seg) ctxs ∧
      total strings (splice l ctx.bot seg) ctxs = total strings l ctxs := by
  obtain ⟨-, w, hw, hbegin⟩ := h.ready ctx List.mem_cons_self
  obtain ⟨seg, hshell, hperm, hsorted⟩ := shellsort_spec hbegin
  rw [hw] at hshell
  have horder (i j : ℕ) (x y : α) (hij : i < j) (hx : seg[i]? = some x) (hy : seg[j]? = some y) :
      strings.Le x y := by
    obtain ⟨hi, rfl⟩ := List.getElem?_eq_some_iff.mp hx
    obtain ⟨hj, rfl⟩ := List.getElem?_eq_some_iff.mp hy
    exact List.pairwise_iff_getElem.mp hsorted i j hi hj hij
  obtain ⟨hgood, hkept⟩ := h.rearrange hperm (fun s hs ↦ absurd hs List.not_mem_nil)
    (fun s hs ↦ absurd hs List.not_mem_nil) List.Pairwise.nil
    fun i j x y hij hx hy _ ↦ horder i j x y hij hx hy
  refine ⟨seg, hshell, hgood, ?_⟩
  rw [total, total]
  refine congrArg List.sum (List.map_congr_left fun t ht ↦ ?_)
  rw [cost, cost, hkept t ht]

/-! ## The buckets of a pass -/

/-- The context of a bucket. -/
def bucketOf (bot indx : ℕ) (c : ℕ → ℕ) (b : ℕ) : Context := ⟨bot + start c b, indx, c b⟩

variable {bot indx limit : ℕ} {starts : ℕ → ℕ} {todo : List ℕ}

/-- The loops over the buckets sort the small ones and push the others. -/
theorem foldlM_bucket (hstarts : ∀ b ≤ 256, starts b = start c b) (htodo : ∀ b ∈ todo, b < 256)
    (hgood : Good strings l₀ l (todo.map (bucketOf bot indx c) ++ stack))
    (hlimit : stack.length + (todo.filter (c · > rspartition)).length ≤ limit) :
    ∃ l', todo.foldlM (bucket strings limit bot indx starts) (stack, l) =
        some (((todo.filter (c · > rspartition)).map (bucketOf bot indx c)).reverse ++ stack, l') ∧
      Good strings l₀ l'
        (((todo.filter (c · > rspartition)).map (bucketOf bot indx c)).reverse ++ stack) ∧
      total strings l' (((todo.filter (c · > rspartition)).map (bucketOf bot indx c)).reverse ++
        stack) ≤ total strings l (todo.map (bucketOf bot indx c) ++ stack) := by
  induction todo generalizing stack l with
  | nil => exact ⟨l, rfl, hgood, Nat.le_refl _⟩
  | cons b todo ih =>
    have hb := htodo b List.mem_cons_self
    have htodo' : ∀ b' ∈ todo, b' < 256 := fun b' hb' ↦ htodo b' (List.mem_cons_of_mem b hb')
    have hsize : starts (b + 1) - starts b = c b := by
      rw [hstarts (b + 1) hb, hstarts b (Nat.le_of_lt hb), start_succ, Nat.add_sub_cancel_left]
    rw [List.map_cons, List.cons_append] at hgood
    have htotal : total strings l ((b :: todo).map (bucketOf bot indx c) ++ stack) =
        cost strings l (bucketOf bot indx c b) +
          total strings l (todo.map (bucketOf bot indx c) ++ stack) := by
      rw [List.map_cons, List.cons_append, total, List.map_cons, List.sum_cons]
      rfl
    rw [List.foldlM_cons, bucket, hsize, hstarts b (Nat.le_of_lt hb), htotal]
    dsimp only
    by_cases hfew : c b < 2
    · have hsmall : ¬c b > rspartition := by
        rw [rspartition]
        omega
      have hskip := hgood.skip hfew
      have hrest : (b :: todo).filter (c · > rspartition) = todo.filter (c · > rspartition) :=
        List.filter_cons_of_neg (by simpa using hsmall)
      rw [hrest] at hlimit ⊢
      rw [if_pos hfew]
      obtain ⟨l', hrun, hgood', hcost⟩ := ih htodo' hskip hlimit
      exact ⟨l', hrun, hgood', Nat.le_trans hcost (Nat.le_add_left _ _)⟩
    · rw [if_neg hfew]
      by_cases hmany : c b > rspartition
      · have hrest : (b :: todo).filter (c · > rspartition) =
            b :: todo.filter (c · > rspartition) :=
          List.filter_cons_of_pos (by simpa using hmany)
        rw [hrest] at hlimit ⊢
        rw [List.length_cons] at hlimit
        have hroom : stack.length < limit := by omega
        rw [if_pos hmany, if_pos hroom, List.map_cons, List.reverse_cons, List.append_assoc]
        have hmiddle : (todo.map (bucketOf bot indx c) ++ bucketOf bot indx c b :: stack).Perm
            (bucketOf bot indx c b :: (todo.map (bucketOf bot indx c) ++ stack)) :=
          List.perm_middle
        have hpush := hgood.reorder hmiddle.symm
        obtain ⟨l', hrun, hgood', hcost⟩ := ih htodo' hpush (by rw [List.length_cons]; omega)
        refine ⟨l', hrun, hgood', Nat.le_trans hcost (Nat.le_of_eq ?_)⟩
        exact total_middle
      · rw [if_neg hmany]
        have hrest : (b :: todo).filter (c · > rspartition) = todo.filter (c · > rspartition) :=
          List.filter_cons_of_neg (by simpa using hmany)
        rw [hrest] at hlimit ⊢
        obtain ⟨seg, hshell, hsorted, hsame⟩ := hgood.sort
        change shellsort strings indx (part l (bot + start c b) (c b)) = some seg at hshell
        rw [hshell, ← hsame]
        obtain ⟨l', hrun, hgood', hcost⟩ := ih htodo' hsorted hlimit
        exact ⟨l', hrun, hgood', Nat.le_trans hcost (Nat.le_add_left _ _)⟩

end Bsd386.Libc.Radixsort
