import Bsd386.Libc.Sort.Records
import Mathlib.Data.List.GetD
import Mathlib.Data.List.Induction

/-!
# Insertion sort

The bytes of the element are inserted a column at a time: each byte of the column moves to the next
element. The loops compare pointers that lie an element below the array, so that the array must not
begin within the size of an element of the end of the addresses.
-/

namespace Bsd386.Libc.Sort

variable {α : Type*} {job : Job} {val : α → List Byte} {X A B Z : List α} {x y z : α}
  {i n r p s1 t2 cnt fuel : ℕ} {P R row cur : List Byte} {Y : List (List Byte)} {ch : Byte}

/-! ## Columns -/

theorem load_row (hr : r < row.length) (hp : p = job.bot + P.length + r) :
    load job p (P ++ (row ++ R)) = some (row.getD r 0) := by
  have hshape : P ++ (row ++ R) = (P ++ row.take r) ++ row[r] :: (row.drop (r + 1) ++ R) := by
    rw [List.append_assoc, ← List.cons_append, ← List.drop_eq_getElem_cons hr,
      ← List.append_assoc (row.take r), List.take_append_drop]
  rw [hshape, load_append, List.getD_eq_getElem _ _ hr]
  rw [List.length_append, List.length_take, Nat.min_eq_left (Nat.le_of_lt hr), hp, Nat.add_assoc]

theorem store_row (hr : r < row.length) (hp : p = job.bot + P.length + r) :
    store job p ch (P ++ (row ++ R)) = some (P ++ (row.set r ch ++ R)) := by
  have hshape (ch : Byte) : (P ++ row.take r) ++ ch :: (row.drop (r + 1) ++ R) =
      P ++ (row.set r ch ++ R) := by
    rw [List.append_assoc, ← List.cons_append, ← List.append_assoc (row.take r),
      List.set_eq_take_append_cons_drop, if_pos hr]
  have hsame : row.set r row[r] = row := List.set_getElem_self hr
  have hbefore := hshape row[r]
  rw [hsame] at hbefore
  rw [← hbefore, store_append, hshape]
  rw [List.length_append, List.length_take, Nat.min_eq_left (Nat.le_of_lt hr), hp, Nat.add_assoc]

/-- Each element gets a byte of the one before it. -/
def shiftColumn (r : ℕ) : Byte → List (List Byte) → List (List Byte)
  | _, [] => []
  | ch, row :: rest => row.set r ch :: shiftColumn r (row.getD r 0) rest

theorem shiftColumn_nil (ch : Byte) : shiftColumn r ch [] = [] := rfl

theorem shiftColumn_cons {Y : List (List Byte)} :
    shiftColumn r ch (row :: Y) = row.set r ch :: shiftColumn r (row.getD r 0) Y :=
  rfl

theorem shiftColumn_concat :
    shiftColumn r ch (Y ++ [row, cur]) =
      shiftColumn r ch (Y ++ [row]) ++ [cur.set r (row.getD r 0)] := by
  induction Y generalizing ch with
  | nil => rfl
  | cons y Y ih => exact congrArg (y.set r ch :: ·) ih

theorem length_flatten (hY : ∀ y ∈ Y, y.length = n) : Y.flatten.length = Y.length * n := by
  induction Y with
  | nil => rw [List.length_nil, Nat.zero_mul]; rfl
  | cons y Y ih =>
    rw [List.flatten_cons, List.length_append, hY y List.mem_cons_self,
      ih fun y' hy' ↦ hY y' (List.mem_cons_of_mem y hy'), List.length_cons, Nat.succ_mul,
      Nat.add_comm]

/-- The inner loop moves a column. -/
theorem bubble_eq (ch : Byte) (hbot : job.size ≤ job.bot) (hr : r < job.size)
    (hY : ∀ y ∈ Y, y.length = job.size) (hcur : cur.length = job.size)
    (ht2 : t2 = job.bot + P.length) (hs1 : s1 = t2 + Y.length * job.size + r)
    (hlt : s1 < 2 ^ 32) (hfuel : Y.length < fuel) :
    bubble job t2 ch fuel s1 (P ++ (Y.flatten ++ (cur ++ R))) =
      some (P ++ ((shiftColumn r ch (Y ++ [cur])).flatten ++ R)) := by
  induction Y using List.reverseRecOn generalizing cur R s1 fuel with
  | nil =>
    obtain ⟨fuel, rfl⟩ := Nat.exists_eq_succ_of_ne_zero (Nat.ne_of_gt hfuel)
    rw [List.length_nil, Nat.zero_mul, Nat.add_zero] at hs1
    have hbelow : back s1 job.size < t2 := by
      rw [back]
      omega
    rw [bubble, if_pos hbelow, List.flatten_nil, List.nil_append,
      store_row (r := r) (by omega) (by omega),
      List.nil_append, shiftColumn_cons, shiftColumn_nil, List.flatten_singleton]
  | append_singleton Y y ih =>
    obtain ⟨fuel, rfl⟩ := Nat.exists_eq_succ_of_ne_zero (Nat.ne_of_gt (Nat.zero_lt_of_lt hfuel))
    rw [List.length_append, List.length_singleton] at hs1 hfuel
    rw [Nat.succ_mul] at hs1
    have hy : y.length = job.size := hY y (List.mem_append_right Y List.mem_cons_self)
    have hY' : ∀ y ∈ Y, y.length = job.size := fun y' hy' ↦ hY y' (List.mem_append_left _ hy')
    have hflat := length_flatten hY'
    have hback : back s1 job.size = t2 + Y.length * job.size + r := by
      rw [back]
      omega
    have habove : ¬back s1 job.size < t2 := by omega
    have hread : P ++ ((Y ++ [y]).flatten ++ (cur ++ R)) =
        (P ++ Y.flatten) ++ (y ++ (cur ++ R)) := by
      simp only [List.flatten_append, List.flatten_singleton, List.append_assoc]
    have hwrite (cur : List Byte) : (P ++ Y.flatten) ++ (y ++ (cur ++ R)) =
        (P ++ Y.flatten ++ y) ++ (cur ++ R) := by
      simp only [List.append_assoc]
    have hagain (cur : List Byte) : (P ++ Y.flatten) ++ (y ++ (cur ++ R)) =
        P ++ (Y.flatten ++ (y ++ (cur ++ R))) := by
      simp only [List.append_assoc]
    rw [bubble, if_neg habove, hread,
      load_row (r := r) (by omega) (by rw [List.length_append]; omega),
      Option.bind_some, hwrite,
      store_row (r := r) (by omega) (by simp only [List.length_append]; omega),
      Option.bind_some, ← hwrite, hagain, ih hY' hy hback (by omega) (by omega),
      List.append_assoc Y, List.singleton_append, shiftColumn_concat, List.flatten_append,
      List.flatten_singleton, List.append_assoc]

/-! ## Elements -/

/-- The first bytes of an element with the others of the next one. -/
def mix (r : ℕ) (x y : List Byte) : List Byte := x.take r ++ y.drop r

theorem length_mix (hx : cur.length = n) (hy : row.length = n) (hr : r ≤ n) :
    (mix r cur row).length = n := by
  rw [mix, List.length_append, List.length_take, List.length_drop]
  omega

theorem getD_mix (hx : r ≤ cur.length) (hy : r < row.length) :
    (mix r cur row).getD r 0 = row.getD r 0 := by
  have hlength : (cur.take r).length = r := by
    rw [List.length_take]
    omega
  rw [mix, List.getD_append_right _ _ _ _ (by omega), hlength, Nat.sub_self,
    List.drop_eq_getElem_cons hy, List.getD_cons_zero, List.getD_eq_getElem _ _ hy]

theorem set_mix (hx : r < cur.length) (hy : r < row.length) :
    (mix r cur row).set r (cur.getD r 0) = mix (r + 1) cur row := by
  have hlength : (cur.take r).length = r := by
    rw [List.length_take]
    omega
  rw [mix, List.set_append_right _ _ (by omega), hlength, Nat.sub_self,
    List.drop_eq_getElem_cons hy, List.set_cons_zero, mix, List.take_succ_eq_append_getElem hx,
    List.getD_eq_getElem _ _ hx, List.append_assoc, List.singleton_append]

theorem zipWith_mix_zero {Y' : List (List Byte)} (hlength : Y'.length = Y.length) :
    List.zipWith (mix 0) Y' Y = Y := by
  induction Y generalizing Y' with
  | nil => exact List.zipWith_nil_right
  | cons y Y ih =>
    obtain ⟨y', Y', rfl⟩ := List.exists_cons_of_length_eq_add_one hlength
    rw [List.zipWith_cons_cons, ih (Nat.succ_inj.mp hlength)]
    rfl

theorem zipWith_mix_all {Y' : List (List Byte)} (hlength : Y'.length = Y.length)
    (hY' : ∀ y ∈ Y', y.length = n) (hY : ∀ y ∈ Y, y.length = n) :
    List.zipWith (mix n) Y' Y = Y' := by
  induction Y generalizing Y' with
  | nil => rw [List.eq_nil_of_length_eq_zero hlength]; rfl
  | cons y Y ih =>
    obtain ⟨y', Y', rfl⟩ := List.exists_cons_of_length_eq_add_one hlength
    obtain ⟨hy', hrest'⟩ := List.forall_mem_cons.mp hY'
    obtain ⟨hy, hrest⟩ := List.forall_mem_cons.mp hY
    rw [List.zipWith_cons_cons, ih (Nat.succ_inj.mp hlength) hrest' hrest, mix,
      List.take_of_length_le (Nat.le_of_eq hy'), List.drop_of_length_le (Nat.le_of_eq hy),
      List.append_nil]

/-- A column more has moved. -/
theorem shiftColumn_mix (hr : r < n) (hcur : cur.length = n) (hrow : row.length = n)
    (hY : ∀ y ∈ Y, y.length = n) :
    shiftColumn r (cur.getD r 0) (List.zipWith (mix r) (cur :: Y) (Y ++ [row])) =
      List.zipWith (mix (r + 1)) (cur :: Y) (Y ++ [row]) := by
  induction Y generalizing cur with
  | nil =>
    rw [List.nil_append, List.zipWith_cons_cons, List.zipWith_nil_left, shiftColumn_cons,
      shiftColumn_nil, set_mix (by omega) (by omega)]
    rfl
  | cons y Y ih =>
    obtain ⟨hy, hrest⟩ := List.forall_mem_cons.mp hY
    rw [List.cons_append, List.zipWith_cons_cons, shiftColumn_cons, set_mix (by omega) (by omega),
      getD_mix (by omega) (by omega), ih hy hrest, List.zipWith_cons_cons (f := mix (r + 1))]

/-- The loop over the columns moves whole elements. -/
theorem insert_columns (hbot : job.size ≤ job.bot) (hcnt : r + cnt = job.size)
    (hY : ∀ y ∈ Y, y.length = job.size) (hcur : cur.length = job.size)
    (ht2 : t2 = job.bot + P.length) (hs1 : s1 = t2 + Y.length * job.size + r)
    (hlt : s1 + cnt < 2 ^ 32) (hfuel : Y.length < fuel) :
    insert job t2 fuel cnt s1
        (P ++ ((List.zipWith (mix r) (cur :: Y) (Y ++ [cur])).flatten ++ R)) =
      some (P ++ ((cur :: Y).flatten ++ R)) := by
  have hall : ∀ y ∈ Y ++ [cur], y.length = job.size := by
    intro y hy
    rcases List.mem_append.mp hy with hy | hy
    · exact hY y hy
    · rw [List.mem_singleton.mp hy]
      exact hcur
  have hcons : ∀ y ∈ cur :: Y, y.length = job.size := List.forall_mem_cons.mpr ⟨hcur, hY⟩
  induction cnt generalizing r s1 with
  | zero =>
    rw [Nat.add_zero] at hcnt
    rw [insert, hcnt, zipWith_mix_all (by rw [List.length_append]; rfl)
      hcons hall]
  | succ cnt ih =>
    have hlength : (List.zipWith (mix r) (cur :: Y) (Y ++ [cur])).length = Y.length + 1 := by
      rw [List.length_zipWith, List.length_cons, List.length_append, List.length_singleton,
        Nat.min_self]
    obtain ⟨front, last, hrows⟩ :=
      List.eq_nil_or_concat' (List.zipWith (mix r) (cur :: Y) (Y ++ [cur])) |>.resolve_left
        fun hnil ↦ by rw [hnil] at hlength; cases hlength
    have hfront : front.length = Y.length := by
      rw [hrows, List.length_append, List.length_singleton] at hlength
      exact Nat.succ_inj.mp hlength
    have hrow : ∀ row ∈ front ++ [last], row.length = job.size := by
      rw [← hrows]
      intro row hrow
      obtain ⟨i, hi, rfl⟩ := List.mem_iff_getElem.mp hrow
      rw [List.getElem_zipWith]
      exact length_mix (hcons _ (List.getElem_mem _)) (hall _ (List.getElem_mem _)) (by omega)
    have hlast : last.getD r 0 = cur.getD r 0 := by
      have hget : (front ++ [last])[Y.length]? = some last := by
        rw [← hfront, List.getElem?_concat_length]
      rw [← hrows, List.getElem?_zipWith, List.getElem?_concat_length] at hget
      cases hprev : (cur :: Y)[Y.length]? with
      | none =>
        rw [hprev] at hget
        cases hget
      | some prev =>
        rw [hprev] at hget
        rw [← Option.some_inj.mp hget]
        have hlen := hcons prev (List.mem_of_getElem? hprev)
        exact getD_mix (by omega) (by omega)
    have hflat := length_flatten fun row hmem ↦ hrow row (List.mem_append_left [last] hmem)
    have hlastlen := hrow last (List.mem_append_right front List.mem_cons_self)
    rw [hfront] at hflat
    have hshape : P ++ ((front ++ [last]).flatten ++ R) = (P ++ front.flatten) ++ (last ++ R) := by
      simp only [List.flatten_append, List.flatten_singleton, List.append_assoc]
    have hs1' : s1 = t2 + front.length * job.size + r := by
      rw [hfront]
      exact hs1
    have hmove := bubble_eq (R := R) (P := P) (cur.getD r 0) hbot
      (show r < job.size by omega)
      (fun row hmem ↦ hrow row (List.mem_append_left [last] hmem)) hlastlen ht2
      hs1' (by omega) (by rw [hfront]; exact hfuel)
    have hnext : forward s1 1 = t2 + Y.length * job.size + (r + 1) := by
      rw [forward]
      omega
    rw [insert, hrows, hshape, load_row (r := r) (by omega) (by rw [List.length_append]; omega),
      Option.bind_some, hlast, List.append_assoc, hmove, Option.bind_some, ← hrows,
      shiftColumn_mix (by omega) hcur hcur hY]
    exact ih (by omega) hnext (by omega)

namespace Layout

variable (h : Layout job val)

include h

/-- An element is inserted in front of others. -/
theorem insert_eq (fuel : ℕ) (hbot : job.size ≤ job.bot)
    (hl : (X ++ (B ++ z :: Z)).length ≤ job.nmemb) (hfuel : B.length < fuel) :
    insert job (addr job X.length) fuel job.size (addr job (X.length + B.length))
      (bytes val (X ++ (B ++ z :: Z))) = some (bytes val (X ++ (z :: (B ++ Z)))) := by
  have hB : ∀ y ∈ B.map val, y.length = job.size := by
    intro y hy
    obtain ⟨b, -, rfl⟩ := List.mem_map.mp hy
    exact h.length_val b
  have hshape : bytes val (X ++ (B ++ z :: Z)) = bytes val X ++
      ((List.zipWith (mix 0) (val z :: B.map val) (B.map val ++ [val z])).flatten ++
        bytes val Z) := by
    rw [zipWith_mix_zero (by rw [List.length_append]; rfl), List.flatten_append,
      List.flatten_singleton, bytes_append, bytes_append, bytes_cons, List.append_assoc]
    rfl
  have hresult : bytes val (X ++ (z :: (B ++ Z))) =
      bytes val X ++ ((val z :: B.map val).flatten ++ bytes val Z) := by
    rw [bytes_append, bytes_cons, bytes_append, List.flatten_cons, List.append_assoc]
    rfl
  have hlt := h.addr_lt_max (i := X.length + B.length + 1) (by
    simp only [List.length_append, List.length_cons] at hl
    omega)
  rw [addr_succ] at hlt
  have hs1 : addr job (X.length + B.length) =
      addr job X.length + (B.map val).length * job.size + 0 := by
    rw [List.length_map, addr, addr, Nat.add_mul, Nat.add_zero, Nat.add_assoc]
  rw [hshape, hresult]
  exact insert_columns hbot (Nat.zero_add _) hB (h.length_val z) (h.addr_eq X) hs1 hlt
    (by rw [List.length_map]; exact hfuel)

end Layout

/-! ## Places -/

/-- The comparison of two elements. -/
def Job.cmp (job : Job) (val : α → List Byte) (x y : α) : ℤ := job.compar (val x) (val y)

/-- The comparison function is a total preorder on the elements. -/
structure Preordered (job : Job) (val : α → List Byte) : Prop where
  lt_iff : ∀ x y, job.cmp val x y < 0 ↔ 0 < job.cmp val y x
  trans : ∀ x y z, job.cmp val x y ≤ 0 → job.cmp val y z ≤ 0 → job.cmp val x z ≤ 0

/-- Elements in non-decreasing order. -/
def Sorted (job : Job) (val : α → List Byte) (l : List α) : Prop :=
  l.Pairwise fun x y ↦ job.cmp val x y ≤ 0

theorem Preordered.le_of_nonneg (hpre : Preordered job val) (hxy : 0 ≤ job.cmp val x y) :
    job.cmp val y x ≤ 0 :=
  Int.not_lt.mp fun hlt ↦ Int.not_lt.mpr hxy ((hpre.lt_iff x y).mpr hlt)

theorem Preordered.refl (hpre : Preordered job val) (x : α) : job.cmp val x x ≤ 0 := by
  by_contra hlt
  have hless := (hpre.lt_iff x x).mpr (Int.not_le.mp hlt)
  omega

theorem getElem?_middle : (X ++ x :: Z)[X.length]? = some x := by
  rw [List.getElem?_append_right (Nat.le_refl _), Nat.sub_self]
  rfl

/-- The loop over `t2` finds the elements that are larger. -/
theorem place_spec (fuel : ℕ) (h : Layout job val) (hbot : job.size ≤ job.bot)
    (hl : (X ++ (A ++ (B ++ z :: Z))).length ≤ job.nmemb) (hB : ∀ b ∈ B, job.cmp val z b < 0)
    (hfuel : A.length < fuel) :
    ∃ A₁ A₂ t2, A = A₁ ++ A₂ ∧ (∀ a ∈ A₂, job.cmp val z a < 0) ∧
      (∀ a ∈ A₁.getLast?, 0 ≤ job.cmp val z a) ∧
      place job (addr job X.length) (addr job (X.length + A.length + B.length)) fuel
        (addr job (X.length + A.length)) (bytes val (X ++ (A ++ (B ++ z :: Z)))) = some t2 ∧
      forward t2 job.size = addr job (X.length + A₁.length) := by
  induction A using List.reverseRecOn generalizing B fuel with
  | nil =>
    obtain ⟨fuel, rfl⟩ := Nat.exists_eq_succ_of_ne_zero (Nat.ne_of_gt hfuel)
    have hX : addr job X.length < 2 ^ 32 := h.addr_lt_max (by
      rw [List.length_append] at hl
      omega)
    have hlow : job.bot ≤ addr job X.length := Nat.le_add_right _ _
    have hpos := h.size_pos
    have hback : back (addr job X.length) job.size = addr job X.length - job.size := by
      rw [back]
      omega
    refine ⟨[], [], addr job X.length - job.size, rfl, fun a ha ↦ absurd ha List.not_mem_nil,
      fun a ha ↦ absurd ha (by simp), ?_, ?_⟩
    · rw [place, List.length_nil, Nat.add_zero, hback, if_pos (by omega)]
    · rw [forward, List.length_nil, Nat.add_zero]
      omega
  | append_singleton A a ih =>
    obtain ⟨fuel, rfl⟩ := Nat.exists_eq_succ_of_ne_zero (Nat.ne_of_gt (Nat.zero_lt_of_lt hfuel))
    have hshape : X ++ (A ++ [a] ++ (B ++ z :: Z)) = X ++ (A ++ (a :: B ++ z :: Z)) := by
      simp only [List.append_assoc, List.cons_append, List.nil_append]
    have hlength : X.length + (A ++ [a]).length = X.length + A.length + 1 := by
      rw [List.length_append, List.length_singleton, Nat.add_assoc]
    have hlength' : X.length + A.length + 1 + B.length =
        X.length + A.length + (a :: B).length := by
      rw [List.length_cons]
      omega
    rw [hshape] at hl
    have hroom : X.length + A.length < job.nmemb := by
      simp only [List.length_append, List.length_cons] at hl
      omega
    have ha : (X ++ (A ++ (a :: B ++ z :: Z)))[X.length + A.length]? = some a := by
      rw [← List.append_assoc, ← List.length_append, List.cons_append, getElem?_middle]
    have hz : (X ++ (A ++ (a :: B ++ z :: Z)))[X.length + A.length + (a :: B).length]? =
        some z := by
      rw [← List.append_assoc, ← List.append_assoc, ← List.length_append, ← List.length_append,
        getElem?_middle]
    have hcall := h.call_eq hl hz ha
    rw [hlength, hshape, hlength', place, h.back_addr hroom, hcall, Option.bind_some,
      if_neg (Nat.not_lt.mpr (addr_le (Nat.le_add_right _ _)))]
    by_cases hless : job.compar (val z) (val a) < 0
    · rw [if_pos hless]
      rw [List.length_append, List.length_singleton] at hfuel
      have hlarger : ∀ b ∈ a :: B, job.cmp val z b < 0 := List.forall_mem_cons.mpr ⟨hless, hB⟩
      obtain ⟨A₁, A₂, t2, hA, hgreater, hlast, hrun, hnext⟩ :=
        ih fuel hl hlarger (Nat.lt_of_succ_lt_succ hfuel)
      refine ⟨A₁, A₂ ++ [a], t2, ?_, fun a' ha' ↦ ?_, hlast, hrun, hnext⟩
      · rw [hA, List.append_assoc]
      · rcases List.mem_append.mp ha' with hmem | hmem
        · exact hgreater a' hmem
        · rw [List.mem_singleton.mp hmem]
          exact hless
    · rw [if_neg hless]
      refine ⟨A ++ [a], [], _, (List.append_nil _).symm, fun a ha ↦ absurd ha List.not_mem_nil,
        fun a' ha' ↦ ?_, rfl, ?_⟩
      · rw [List.getLast?_concat, Option.mem_some_iff] at ha'
        rw [← ha']
        exact Int.not_lt.mp hless
      · rw [hlength]
        exact h.forward_size hroom

/-- An element is inserted behind those that are not larger. -/
theorem Sorted.insert (hpre : Preordered job val) (hsorted : Sorted job val (A ++ B))
    (hlast : ∀ a ∈ A.getLast?, 0 ≤ job.cmp val z a) (hB : ∀ b ∈ B, job.cmp val z b < 0) :
    Sorted job val (A ++ z :: B) := by
  obtain ⟨hA, hBs, hcross⟩ := List.pairwise_append.mp hsorted
  refine List.pairwise_append.mpr ⟨hA, List.pairwise_cons.mpr ⟨fun b hb ↦ ?_, hBs⟩, ?_⟩
  · exact Int.le_of_lt (hB b hb)
  · refine fun a ha b hb ↦ ?_
    rcases List.mem_cons.mp hb with rfl | hb
    · rcases List.eq_nil_or_concat' A with rfl | ⟨A, c, rfl⟩
      · exact absurd ha List.not_mem_nil
      · have hc := hpre.le_of_nonneg (hlast c (by rw [List.getLast?_concat]; rfl))
        rcases List.mem_append.mp ha with ha | ha
        · exact hpre.trans a c b
            ((List.pairwise_append.mp hA).2.2 a ha c List.mem_cons_self) hc
        · rw [List.mem_singleton.mp ha]
          exact hc
    · exact hcross a ha b hb

/-- The loop over `t1` sorts the elements behind the sorted ones into them. -/
theorem insertions_spec (n fuel : ℕ) (h : Layout job val) (hpre : Preordered job val)
    (hbot : job.size ≤ job.bot) (hl : (X ++ (A ++ (B ++ Z))).length ≤ job.nmemb)
    (hsorted : Sorted job val A) (hn : A.length + B.length ≤ n) (hfuel : B.length < fuel) :
    ∃ S, insertions job (addr job X.length) (addr job (X.length + A.length + B.length)) n fuel
        (addr job (X.length + A.length)) (bytes val (X ++ (A ++ (B ++ Z)))) =
          some (bytes val (X ++ (S ++ Z))) ∧ S.Perm (A ++ B) ∧ Sorted job val S := by
  induction B generalizing A fuel with
  | nil =>
    obtain ⟨fuel, rfl⟩ := Nat.exists_eq_succ_of_ne_zero (Nat.ne_of_gt hfuel)
    refine ⟨A, ?_, by rw [List.append_nil], hsorted⟩
    rw [insertions, List.length_nil, Nat.add_zero, if_neg (Nat.lt_irrefl _), List.nil_append]
  | cons z B ih =>
    obtain ⟨fuel, rfl⟩ := Nat.exists_eq_succ_of_ne_zero (Nat.ne_of_gt (Nat.zero_lt_of_lt hfuel))
    rw [List.length_cons] at hn hfuel
    have hlength : (X ++ (A ++ (z :: B ++ Z))).length =
        X.length + A.length + B.length + Z.length + 1 := by
      simp only [List.length_append, List.length_cons]
      omega
    obtain ⟨A₁, A₂, t2, hA, hgreater, hlast, hplace, ht2⟩ := place_spec (B := []) (z := z)
      (Z := B ++ Z) (n + 1) h hbot hl (fun b hb ↦ absurd hb List.not_mem_nil) (by omega)
    have hmore : addr job (X.length + A.length) <
        addr job (X.length + A.length + (z :: B).length) :=
      h.addr_lt (by rw [List.length_cons]; omega)
    rw [insertions, if_pos hmore]
    rw [List.nil_append, List.length_nil, Nat.add_zero] at hplace
    rw [List.cons_append, hplace, Option.bind_some, ht2]
    have hresult : (if addr job (X.length + A.length) = addr job (X.length + A₁.length) then
          some (bytes val (X ++ (A ++ z :: (B ++ Z))))
        else Sort.insert job (addr job (X.length + A₁.length)) (n + 1) job.size
          (addr job (X.length + A.length)) (bytes val (X ++ (A ++ z :: (B ++ Z))))) =
        some (bytes val (X ++ ((A₁ ++ z :: A₂) ++ (B ++ Z)))) := by
      split_ifs with hsame
      · have hnil : A₂ = [] := by
          have hsame' := h.addr_inj.mp hsame
          rw [hA, List.length_append] at hsame'
          exact List.eq_nil_of_length_eq_zero (by omega)
        rw [hA, hnil, List.append_nil, List.append_assoc, List.singleton_append]
      · have hshape : X ++ (A ++ z :: (B ++ Z)) = (X ++ A₁) ++ (A₂ ++ z :: (B ++ Z)) := by
          rw [hA]
          simp only [List.append_assoc]
        have hinsert := h.insert_eq (X := X ++ A₁) (B := A₂) (z := z) (Z := B ++ Z)
          (n + 1) hbot (by rw [← hshape]; exact hl) (by
            rw [hA, List.length_append] at hn
            omega)
        have hstart : (X ++ A₁).length = X.length + A₁.length := List.length_append
        have hfrom : (X ++ A₁).length + A₂.length = X.length + A.length := by
          rw [hA, List.length_append, List.length_append, Nat.add_assoc]
        rw [hfrom, hstart, ← hshape] at hinsert
        rw [hinsert]
        simp only [List.append_assoc, List.cons_append]
    have hroom : X.length + A.length < job.nmemb := by omega
    have hinserted : (A₁ ++ z :: A₂).length = A.length + 1 := by
      rw [hA]
      simp only [List.length_append, List.length_cons]
      omega
    have hlength' : (X ++ ((A₁ ++ z :: A₂) ++ (B ++ Z))).length ≤ job.nmemb := by
      rw [List.length_append, List.length_append, hinserted, List.length_append]
      omega
    have hperm : (A₁ ++ z :: A₂ ++ B).Perm (A ++ z :: B) := by
      rw [hA, List.append_assoc, List.append_assoc, List.cons_append]
      exact (List.perm_middle.symm).append_left A₁
    obtain ⟨S, hrun, hS, hsortedS⟩ := ih fuel hlength'
      (Sorted.insert hpre (hA ▸ hsorted) hlast hgreater) (by rw [hinserted]; omega)
      (Nat.lt_of_succ_lt_succ hfuel)
    refine ⟨S, ?_, hS.trans hperm, hsortedS⟩
    rw [hinserted] at hrun
    rw [hresult, Option.bind_some, h.forward_size hroom, List.length_cons, ← hrun]
    congr 2
    omega

/-- `insertion_sort` sorts elements. -/
theorem insertionSort_spec (h : Layout job val) (hpre : Preordered job val)
    (hbot : job.size ≤ job.bot) (hl : (X ++ (A ++ Z)).length ≤ job.nmemb) (hpos : A ≠ []) :
    ∃ S, insertionSort job (addr job X.length) A.length (bytes val (X ++ (A ++ Z))) =
        some (bytes val (X ++ (S ++ Z))) ∧ S.Perm A ∧ Sorted job val S := by
  obtain ⟨a, A, rfl⟩ := List.exists_cons_of_ne_nil hpos
  have hlength : X.length + (a :: A).length ≤ job.nmemb := by
    simp only [List.length_append] at hl
    omega
  rw [List.length_cons] at hlength
  have hshape : X ++ (a :: A ++ Z) = X ++ ([a] ++ (A ++ Z)) := rfl
  obtain ⟨S, hrun, hperm, hsorted⟩ := insertions_spec (A := [a]) (B := A) (Z := Z)
    (A.length + 1) (A.length + 1 + 1) h hpre hbot hl (List.pairwise_singleton _ a)
    (Nat.le_of_eq (Nat.add_comm 1 _)) (by omega)
  refine ⟨S, ?_, hperm, hsorted⟩
  rw [List.length_singleton, Nat.add_assoc, Nat.add_comm 1] at hrun
  rw [insertionSort, List.length_cons, h.forward_addr hlength, h.forward_size (by omega), hshape]
  exact hrun

end Bsd386.Libc.Sort
