import Mathlib.Algebra.Ring.Int.Defs
import Mathlib.Algebra.Ring.Nat
import Mathlib.Data.Int.Notation
import Mathlib.Data.List.Basic
import Mathlib.Logic.Function.Basic
import Mathlib.Tactic.SplitIfs

/-!
# `radixsort`

`lib/libc/stdlib/radixsort.c`, when both calls of `malloc` succeed. What reads behind an end byte,
pushes more contexts than the stack was allocated for or uses a pointer that was not stored has no
result.
-/

namespace Bsd386.Libc.Radixsort

/-- `NBUCKETS`. -/
def NBUCKETS : ℕ := 256

/-- `__rspartition`. -/
def rspartition : ℕ := 40

/-- `__rsshell_increments`, up to the 0. -/
def rsshellIncrements : List ℕ := [4, 1]

/-- `ltab`, the weights for an end byte. -/
def ltab (endbyte t1 : BitVec 8) : BitVec 8 :=
  if t1 < endbyte then t1 + 1 else if t1 = endbyte then 0 else t1

/-- Pointers to strings that are ended by the end byte, with a table of weights in which just the
end byte has weight 0, or with none. -/
structure Strings (α : Type*) where
  text : α → List (BitVec 8)
  endbyte : BitVec 8
  tab : Option (BitVec 8 → BitVec 8)
  text_ne : ∀ p, endbyte ∉ text p
  tab_eq : ∀ t, tab = some t → ∀ c, t c = 0 ↔ c = endbyte

variable {α : Type*} (strings : Strings α)

/-- The table of weights. -/
def Strings.tr : BitVec 8 → BitVec 8 := strings.tab.getD (ltab strings.endbyte)

/-- `tr[p[indx]]`. -/
def Strings.key (indx : ℕ) (p : α) : Option ℕ :=
  (strings.text p ++ [strings.endbyte])[indx]?.map fun c ↦ (strings.tr c).toNat

/-! ## `shellsort` -/

/-- The comparison of `shellsort`, in which no more weights are read than there are bytes. -/
def above (p q : α) : ℕ → ℕ → Option Bool
  | 0, _ => none
  | fuel + 1, indx =>
    (strings.key indx p).bind fun ch ↦ (strings.key indx q).bind fun ch' ↦
      if ch = ch' ∧ ch ≠ 0 then above p q fuel (indx + 1) else some (decide (ch > ch'))

/-- The inner loop of `shellsort` over `t2`. -/
def sink (indx incr : ℕ) : ℕ → ℕ → List α → Option (List α)
  | 0, _, _ => none
  | fuel + 1, t2, p =>
    p[t2]?.bind fun s1 ↦ p[t2 + incr]?.bind fun s2 ↦
      (above strings s1 s2 ((strings.text s1).length + 1) indx).bind fun greater ↦
        if greater then
          if t2 < incr then some ((p.set t2 s2).set (t2 + incr) s1)
          else sink indx incr fuel (t2 - incr) ((p.set t2 s2).set (t2 + incr) s1)
        else some p

/-- The loop of `shellsort` over `t1`. -/
def shellPass (indx incr : ℕ) (p : List α) : Option (List α) :=
  (List.range' incr (p.length - incr)).foldlM
    (fun p t1 ↦ sink strings indx incr (t1 - incr + 1) (t1 - incr) p) p

/-- `shellsort`. -/
def shellsort (indx : ℕ) (p : List α) : Option (List α) :=
  rsshellIncrements.foldlM (fun p incr ↦ shellPass strings indx incr p) p

/-! ## One pass -/

/-- `struct _stack`. -/
structure Context where
  bot : ℕ
  indx : ℕ
  nmemb : ℕ

/-- The loop that counts the strings of each bucket. -/
def count (indx : ℕ) : List α → (ℕ → ℕ) → Option (ℕ → ℕ)
  | [], c => some c
  | p :: ps, c => (strings.key indx p).bind fun k ↦
    count indx ps (Function.update c k (c k + 1))

/-- The loop that sums the counts and finds the largest bucket. -/
def cumulate : List ℕ → (ℕ → ℕ) → ℕ → ℕ → ℕ → (ℕ → ℕ) × ℕ
  | [], c, _, _, max => (c, max)
  | i :: is, c, t1, t2, max =>
    if c i > t2 then cumulate is (Function.update c i (c i + t1)) (c i + t1) (c i) i
    else cumulate is (Function.update c i (c i + t1)) (c i + t1) t2 max

/-- The loop that moves the strings, from the last one on, into `l2`. -/
def distribute (indx : ℕ) : List α → (ℕ → ℕ) → (ℕ → Option α) → Option ((ℕ → ℕ) × (ℕ → Option α))
  | [], c, l2 => some (c, l2)
  | p :: ps, c, l2 => (strings.key indx p).bind fun k ↦
    distribute indx ps (Function.update c k (c k - 1)) (Function.update l2 (c k - 1) (some p))

/-- A part of an array. -/
def part (l : List α) (lo len : ℕ) : List α := (l.drop lo).take len

/-- Write back a part of an array. -/
def splice (l : List α) (lo : ℕ) (seg : List α) : List α :=
  l.take lo ++ (seg ++ l.drop (lo + seg.length))

/-- The strings moved to their buckets, with the starts of the buckets and the largest one. -/
def pass (ctx : Context) (l1 : List α) : Option (List α × (ℕ → ℕ) × ℕ) :=
  if l1.length < ctx.bot + ctx.nmemb then none
  else
    let seg := part l1 ctx.bot ctx.nmemb
    (count strings ctx.indx seg fun _ ↦ 0).bind fun c ↦
      let s := cumulate (List.range (NBUCKETS + 1)) c 0 rspartition 0
      (distribute strings ctx.indx seg.reverse s.1 fun _ ↦ none).bind fun r ↦
        ((List.range ctx.nmemb).mapM r.2).map fun l2 ↦ (splice l1 ctx.bot l2, r.1, s.2)

/-! ## The stack -/

/-- A turn of the loops over the buckets. -/
def bucket (limit bot indx : ℕ) (c : ℕ → ℕ) (st : List Context × List α) (i : ℕ) :
    Option (List Context × List α) :=
  let nmemb := c (i + 1) - c i
  let p := bot + c i
  if nmemb < 2 then some st
  else if nmemb > rspartition then
    if st.1.length < limit then some (⟨p, indx, nmemb⟩ :: st.1, st.2) else none
  else
    (shellsort strings indx (part st.2 p nmemb)).map fun seg ↦ (st.1, splice st.2 p seg)

/-- The buckets in the order of the loops. -/
def order (max : ℕ) : List ℕ :=
  (List.range' 1 max).reverse ++ List.range' (max + 1) (NBUCKETS - (max + 1))

/-- The loop of `radixsort`. -/
def loop (limit : ℕ) : ℕ → Context → List Context → List α → Option (List α)
  | 0, _, _, _ => none
  | fuel + 1, ctx, stack, l1 =>
    (pass strings ctx l1).bind fun r ↦
      ((order r.2.2).foldlM (bucket strings limit ctx.bot (ctx.indx + 1) r.2.1) (stack, r.1)).bind
        fun st ↦
          match st.1 with
          | [] => some st.2
          | ctx :: stack => loop limit fuel ctx stack st.2

/-- `t1` for the size of the stack. -/
def halfRest : ℤ := ((rspartition + 1) * (NBUCKETS - 2)) >>> (1 : ℕ)

/-- The loop for the size of the stack, in which `t2` is halved each time. -/
def stackSize : ℕ → ℤ → ℕ → ℕ
  | 0, _, i => i
  | fuel + 1, t2, i =>
    if t2 > rspartition then
      stackSize fuel ((Int.bmod (t2 + 1) (2 ^ 32)) >>> (1 : ℕ) - halfRest) (i + (NBUCKETS - 1))
    else i

/-- `radixsort`. A pass takes a byte of each of its strings. -/
def radixsort (l1 : List α) : Option (List α) :=
  if l1.length ≤ 1 then some l1
  else loop strings (stackSize 32 l1.length 0)
    ((l1.map fun p ↦ (strings.text p).length + 1).sum + 1)
    ⟨0, 0, l1.length⟩ [] l1

end Bsd386.Libc.Radixsort

/-!
# The bound of the stack

How many contexts a partition of so many strings can put on the stack. The largest bucket is pushed
first, so of those above it none has more than half of the strings, less what the buckets between
them have at least.
-/

namespace Bsd386.Libc.Radixsort

variable {t s n m e : ℕ}

/-- The most strings for which the loop for the size of the stack takes `t` turns. -/
def levelMax : ℕ → ℕ
  | 0 => 40
  | t + 1 => 2 * levelMax t + 10414

/-- The contexts that a partition of `n` strings needs, if it takes `t` turns. -/
def need (t n : ℕ) : ℕ :=
  match t with
  | 0 => 0
  | 1 => min 255 (n / 41)
  | t + 2 => 255 * (t + 1) + min 255 (2 * (n - levelMax (t + 1)) / 41)

/-- The number of strings takes `t` turns. -/
def AtLevel (t n : ℕ) : Prop := n ≤ levelMax t ∧ ∀ s < t, levelMax s < n

/-- The loop for the size of the stack counts the turns. -/
theorem stackSize_eq {fuel i : ℕ} {z : ℤ} (hz : z ≤ levelMax fuel) (hlt : z < 2 ^ 31 - 1) :
    ∃ t, (z ≤ levelMax t ∧ ∀ s < t, (levelMax s : ℤ) < z) ∧ stackSize fuel z i = i + 255 * t := by
  induction fuel generalizing z i with
  | zero => exact ⟨0, ⟨hz, fun s hs ↦ absurd hs (Nat.not_lt_zero s)⟩, rfl⟩
  | succ fuel ih =>
    rw [stackSize]
    split_ifs with hcut
    · have hsucc : (levelMax (fuel + 1) : ℤ) = 2 * levelMax fuel + 10414 := rfl
      have hcut' : (40 : ℤ) < z := hcut
      have hmod : Int.bmod (z + 1) (2 ^ 32) = z + 1 :=
        Int.bmod_eq_of_le (by omega) (by omega)
      have hhalf : Int.bmod (z + 1) (2 ^ 32) >>> (1 : ℕ) - halfRest = (z + 1) / 2 - 5207 := by
        rw [hmod, Int.shiftRight_eq_div_pow]
        rfl
      rw [hhalf]
      obtain ⟨t, ⟨hhigh, hlow⟩, hsize⟩ := ih (i := i + (NBUCKETS - 1)) (z := (z + 1) / 2 - 5207)
        (by omega) (by omega)
      refine ⟨t + 1, ⟨?_, fun s hs ↦ ?_⟩, ?_⟩
      · have hnext : (levelMax (t + 1) : ℤ) = 2 * levelMax t + 10414 := rfl
        omega
      · cases s with
        | zero => exact hcut
        | succ s =>
          have hnext : (levelMax (s + 1) : ℤ) = 2 * levelMax s + 10414 := rfl
          have hs' := hlow s (Nat.lt_of_succ_lt_succ hs)
          omega
      · rw [hsize, NBUCKETS]
        omega
    · exact ⟨0, ⟨Int.not_lt.mp hcut, fun s hs ↦ absurd hs (Nat.not_lt_zero s)⟩, rfl⟩

/-- Every number of strings takes some number of turns, for each of which room is made. -/
theorem exists_level (hlt : n < 2 ^ 31 - 1) : ∃ t, AtLevel t n ∧ stackSize 32 n 0 = 255 * t := by
  have hmax : (2 ^ 31 - 1 : ℤ) ≤ levelMax 32 := by decide
  obtain ⟨t, ⟨hhigh, hlow⟩, hsize⟩ := @stackSize_eq 32 0 n (by omega)
    (by omega)
  refine ⟨t, ⟨Int.ofNat_le.mp hhigh, fun s hs ↦ Int.ofNat_lt.mp (hlow s hs)⟩, ?_⟩
  rw [hsize, Nat.zero_add]

theorem levelMax_mono (h : s ≤ t) : levelMax s ≤ levelMax t := by
  induction t with
  | zero => rw [Nat.le_zero.mp h]
  | succ t ih =>
    rcases Nat.eq_or_lt_of_le h with rfl | hlt
    · exact Nat.le_refl _
    · have hle := ih (Nat.le_of_lt_succ hlt)
      rw [levelMax]
      omega

theorem le_levelMax (t : ℕ) : 40 ≤ levelMax t := levelMax_mono (s := 0) (Nat.zero_le t)

theorem need_le (t n : ℕ) : need t n ≤ 255 * t := by
  cases t with
  | zero => exact Nat.le_refl 0
  | succ t =>
    cases t with
    | zero => exact Nat.min_le_left _ _
    | succ t =>
      rw [need]
      omega

theorem le_need (t n : ℕ) : 255 * (t - 1) ≤ need t n := by
  cases t with
  | zero => exact Nat.le_refl 0
  | succ t =>
    cases t with
    | zero => exact Nat.zero_le _
    | succ t =>
      rw [need]
      omega

/-- At most as many strings take at most as many turns. -/
theorem AtLevel.le (hm : AtLevel s m) (hn : AtLevel t n) (hmn : m ≤ n) : s ≤ t := by
  by_contra hlt
  have hlow := hm.2 t (Nat.lt_of_not_le hlt)
  have hhigh := hn.1
  omega

/-- More strings need no fewer contexts. -/
theorem need_mono (hm : AtLevel s m) (hn : AtLevel t n) (hmn : m ≤ n) : need s m ≤ need t n := by
  rcases Nat.eq_or_lt_of_le (hm.le hn hmn) with rfl | hlt
  · cases s with
    | zero => exact Nat.le_refl 0
    | succ s =>
      cases s with
      | zero =>
        have hdiv : m / 41 ≤ n / 41 := Nat.div_le_div_right hmn
        change min 255 (m / 41) ≤ min 255 (n / 41)
        omega
      | succ s =>
        rw [need, need]
        omega
  · have hle := need_le s m
    have hle' := le_need t n
    omega

/-- As many contexts as there are buckets above the cut off are needed. -/
theorem pushed_le_need (hn : AtLevel t n) (he : e ≤ 255) (hsum : 41 * e ≤ n) : e ≤ need t n := by
  cases t with
  | zero =>
    have hmax : n ≤ 40 := hn.1
    omega
  | succ t =>
    cases t with
    | zero =>
      change e ≤ min 255 (n / 41)
      omega
    | succ t =>
      have hle := le_need (t + 1 + 1) n
      omega

/-- What is needed for a bucket, together with those below it. -/
theorem add_need_le (hm : AtLevel s m) (hn : AtLevel t n) (he : 1 ≤ e) (he' : e ≤ 254)
    (hcut : 41 ≤ m) (hsum : 2 * m + 41 * (e - 1) ≤ n) : e + need s m ≤ need t n := by
  have hle : s ≤ t := hm.le hn (by omega)
  cases t with
  | zero =>
    have hmax : n ≤ 40 := hn.1
    omega
  | succ t =>
    cases t with
    | zero =>
      have hmax : n ≤ 10494 := hn.1
      have hlevel : s = 1 := by
        by_contra hne
        have hzero : s = 0 := by omega
        rw [hzero] at hm
        have hmax' : m ≤ 40 := hm.1
        omega
      rw [hlevel]
      change e + min 255 (m / 41) ≤ min 255 (n / 41)
      omega
    | succ t =>
      have hlow : levelMax (t + 1) < n := hn.2 (t + 1) (Nat.lt_succ_self _)
      have hhigh : n ≤ 2 * levelMax (t + 1) + 10414 := hn.1
      have hbelow : levelMax (t + 1) = 2 * levelMax t + 10414 := rfl
      have hpos := le_levelMax t
      rcases Nat.lt_or_ge s (t + 1) with hfew | hmany
      · have hneed := need_le s m
        have hneed' := le_need (t + 1 + 1) n
        have hmul : 255 * s ≤ 255 * t := Nat.mul_le_mul_left 255 (Nat.le_of_lt_succ hfew)
        omega
      · rcases Nat.eq_or_lt_of_le hmany with heq | hsame
        · rw [← heq] at hm ⊢
          cases t with
          | zero =>
            have hone : levelMax (0 + 1) = 10494 := rfl
            have hmax : m ≤ levelMax (0 + 1) := hm.1
            change e + min 255 (m / 41) ≤ 255 * 1 + min 255 (2 * (n - levelMax (0 + 1)) / 41)
            omega
          | succ t =>
            have hlow' : levelMax (t + 1) < m := hm.2 (t + 1) (Nat.lt_succ_self _)
            rw [need, need]
            omega
        · have hlevel : s = t + 2 := by omega
          rw [hlevel] at hm ⊢
          have hlow' : levelMax (t + 1) < m := hm.2 (t + 1) (Nat.lt_succ_self _)
          rw [need, need]
          omega

end Bsd386.Libc.Radixsort
