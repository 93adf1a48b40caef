import Bsd386.Libc.Sort.Heap
import Mathlib.Data.Nat.Log

/-!
# Where the sorts work

`heapsort` sorts every array. `qsort` sorts those that do not begin within the size of an element of
the first address; one that does is left by the pointer of `insertion_sort` when an element is to be
inserted in front of all others.
-/

namespace Bsd386.Libc.Sort

variable {α : Type*} {job : Job} {val : α → List Byte} {L Z : List α} {x y : α}
  {bot nmemb size depth : ℕ} {compar : List Byte → List Byte → ℤ} {rows : List (List Byte)}

/-- The comparison function is a total preorder on the elements of the array. -/
structure PreorderOn (compar : List Byte → List Byte → ℤ) (rows : List (List Byte)) : Prop where
  lt_iff : ∀ x ∈ rows, ∀ y ∈ rows, compar x y < 0 ↔ 0 < compar y x
  trans : ∀ x ∈ rows, ∀ y ∈ rows, ∀ z ∈ rows, compar x y ≤ 0 → compar y z ≤ 0 → compar x z ≤ 0

/-- What a sort has to leave. -/
def Leaves (compar : List Byte → List Byte → ℤ) (rows : List (List Byte))
    (result : Option (List Byte)) : Prop :=
  ∃ sorted : List (List Byte), result = some sorted.flatten ∧ sorted.Perm rows ∧
    sorted.Pairwise fun x y ↦ compar x y ≤ 0

/-- Both sorts sort every array of so many elements of that size at that address. -/
def SortsAll (bot nmemb size : ℕ) : Prop :=
  ∀ (compar : List Byte → List Byte → ℤ) (rows : List (List Byte)), rows.length = nmemb →
    (∀ x ∈ rows, x.length = size) → PreorderOn compar rows →
      (∃ depth, Leaves compar rows (qsort ⟨bot, nmemb, size, compar⟩ depth rows.flatten)) ∧
        Leaves compar rows (heapsort ⟨bot, nmemb, size, compar⟩ rows.flatten)

/-! ## Arrays that are sorted -/

/-- `qsort` sorts the array, with stack for the logarithm of its length. -/
theorem qsort_spec (h : Layout job val) (hpre : Preordered job val)
    (hlen : L.length = job.nmemb) (hbot : job.nmemb ≤ 1 ∨ job.size ≤ job.bot)
    (hdepth : job.nmemb < 2 ^ (depth + 1)) :
    ∃ S, qsort job depth (bytes val L) = some (bytes val S) ∧ S.Perm L ∧ Sorted job val S := by
  have hzero : addr job ([] : List α).length = job.bot := by
    rw [addr, List.length_nil, Nat.zero_mul, Nat.add_zero]
  rw [qsort]
  split_ifs with hfew hmany
  · refine ⟨L, rfl, List.Perm.refl L, List.pairwise_iff_getElem.mpr fun i j hi hj hij ↦ ?_⟩
    omega
  · have hle : ([] ++ (L ++ [])).length ≤ job.nmemb := by
      rw [List.nil_append, List.append_nil, hlen]
    rw [← hlen] at hmany
    obtain ⟨S, hrun, hsorted⟩ := quickSort_spec job.nmemb h hpre
      (hbot.resolve_left hfew) hle hmany (Nat.le_of_eq hlen) (hlen ▸ hdepth)
    rw [hzero, List.nil_append, List.nil_append, List.append_nil, List.append_nil, hlen] at hrun
    exact ⟨S, hrun, hsorted⟩
  · have hle : ([] ++ (L ++ [])).length ≤ job.nmemb := by
      rw [List.nil_append, List.append_nil, hlen]
    obtain ⟨S, hrun, hsorted⟩ := insertionSort_spec h hpre (hbot.resolve_left hfew) hle fun hnil ↦
      hfew (by rw [← hlen, hnil]; exact Nat.zero_le 1)
    rw [hzero, List.nil_append, List.nil_append, List.append_nil, List.append_nil, hlen] at hrun
    exact ⟨S, hrun, hsorted⟩

/-- The elements of an array, which know that they are in it. -/
theorem layout_attach (bot : ℕ) (compar : List Byte → List Byte → ℤ)
    (hlength : ∀ x ∈ rows, x.length = size) (hpos : 0 < size)
    (hsmall : nmemb * size < 2 ^ 31) (hfits : bot + nmemb * size < 2 ^ 32) :
    Layout ⟨bot, nmemb, size, compar⟩ (Subtype.val : { x // x ∈ rows } → List Byte) :=
  ⟨hpos, fun x ↦ hlength x.1 x.2, hsmall, hfits⟩

theorem PreorderOn.attach (h : PreorderOn compar rows) :
    Preordered ⟨bot, nmemb, size, compar⟩ (Subtype.val : { x // x ∈ rows } → List Byte) :=
  ⟨fun x y ↦ h.lt_iff x.1 x.2 y.1 y.2, fun x y z ↦ h.trans x.1 x.2 y.1 y.2 z.1 z.2⟩

theorem bytes_attach : bytes (Subtype.val : { x // x ∈ rows } → List Byte) rows.attach =
    rows.flatten := by
  rw [bytes, List.flatMap_def, List.attach_map_subtype_val]

/-- A sort of the elements that know that they are in the array is one of the array. -/
theorem leaves_of_attach {run : List Byte → Option (List Byte)} (hsorts : ∃ S,
      run (bytes Subtype.val rows.attach) = some (bytes Subtype.val S) ∧ S.Perm rows.attach ∧
        Sorted ⟨bot, nmemb, size, compar⟩ (Subtype.val : { x // x ∈ rows } → List Byte) S) :
    Leaves compar rows (run rows.flatten) := by
  obtain ⟨S, hrun, hperm, hsorted⟩ := hsorts
  rw [bytes_attach] at hrun
  refine ⟨S.map Subtype.val, ?_, ?_, List.pairwise_map.mpr hsorted⟩
  · rw [hrun, bytes, List.flatMap_def]
  · have hmap := hperm.map Subtype.val
    rw [List.attach_map_subtype_val] at hmap
    exact hmap

/-! ## Arrays that are left -/

/-- Elements of one byte value each. -/
def plainRow (size : ℕ) (b : Bool) : List Byte := List.replicate size (if b then 1 else 0)

/-- The order of the first bytes. -/
def byFirst (x y : List Byte) : ℤ := (x.headD 0).toNat - (y.headD 0).toNat

/-- An element that is smaller than the first one is to be inserted in front of it. -/
def outOfPlace (n : ℕ) : List Bool := true :: false :: List.replicate n true

theorem byFirst_plainRow (hpos : 0 < size) (b b' : Bool) :
    byFirst (plainRow size b) (plainRow size b') =
      (if b then 1 else 0) - (if b' then 1 else 0) := by
  obtain ⟨size, rfl⟩ := Nat.exists_eq_succ_of_ne_zero (Nat.ne_of_gt hpos)
  cases b <;> cases b' <;> rfl

theorem byFirst_preorder : PreorderOn byFirst rows := by
  refine ⟨fun x _ y _ ↦ ?_, fun x _ y _ z _ hxy hyz ↦ ?_⟩
  · rw [byFirst, byFirst]
    omega
  · rw [byFirst] at *
    omega

theorem layout_plainRow (hpos : 0 < size) (hsmall : nmemb * size < 2 ^ 31)
    (hfits : bot + nmemb * size < 2 ^ 32) :
    Layout ⟨bot, nmemb, size, byFirst⟩ (plainRow size) :=
  ⟨hpos, fun _ ↦ List.length_replicate, hsmall, hfits⟩

/-- The pointer leaves the array. -/
theorem insertionSort_leaves (h : Layout job val) (hlen : (x :: y :: Z).length = job.nmemb)
    (hlow : job.bot < job.size) (hless : job.cmp val y x < 0) :
    insertionSort job job.bot job.nmemb (bytes val (x :: y :: Z)) = none := by
  have hall := Nat.le_of_eq hlen
  rw [List.length_cons, List.length_cons] at hlen
  have hbot : job.bot = addr job 0 := by rw [addr, Nat.zero_mul, Nat.add_zero]
  have hsize := h.size_lt (by omega)
  have hsmall := h.small
  have hx : (x :: y :: Z)[0]? = some x := rfl
  have hy : (x :: y :: Z)[1]? = some y := rfl
  have hcall := h.call_eq hall hy hx
  have htop : forward (addr job 0) (job.nmemb * job.size) = addr job (0 + job.nmemb) :=
    h.forward_addr (Nat.le_of_eq (Nat.zero_add _))
  have hwrap : back (addr job 0) job.size = job.bot + 2 ^ 32 - job.size := by
    rw [← hbot, back]
    omega
  have hbytes := h.length_bytes (x :: y :: Z)
  rw [List.length_cons, List.length_cons, hlen] at hbytes
  -- below the first address the pointer comes out above the array
  have houtside : element job (back (addr job 0) job.size) (bytes val (x :: y :: Z)) = none := by
    obtain ⟨size, hpos⟩ := Nat.exists_eq_succ_of_ne_zero (Nat.ne_of_gt h.size_pos)
    have hload : load job (forward (back (addr job 0) job.size) 0) (bytes val (x :: y :: Z)) =
        none := by
      rw [hwrap, forward, load, if_neg (by omega), List.getElem?_eq_none]
      omega
    rw [element, hpos, List.range_eq_range', List.range'_succ, List.mapM_cons, ← hpos, hload]
    rfl
  have hplace : place job (addr job 0) (addr job 1) (job.nmemb + 1) (addr job 1)
      (bytes val (x :: y :: Z)) = none := by
    obtain ⟨n, hn⟩ : ∃ n, job.nmemb = n + 1 := ⟨Z.length + 1, hlen.symm⟩
    have hless' : job.compar (val y) (val x) < 0 := hless
    rw [place, h.back_addr (i := 0) (by omega), if_neg (Nat.lt_irrefl _), hcall, Option.bind_some,
      if_pos hless', hn, place, if_neg (by rw [hwrap, ← hbot]; omega), call, houtside]
    cases element job (addr job 1) (bytes val (x :: y :: Z)) <;> rfl
  have hfirst : forward (addr job 0) job.size = addr job 1 := h.forward_size (by omega)
  rw [insertionSort, hbot, htop, hfirst, insertions, if_pos (h.addr_lt (by omega)), hplace]
  rfl

/-- When the first, middle and last elements are equal and divide the others, nothing is swapped. -/
theorem quickSort_undivided {U V : List α} {fuel : ℕ} (h : Layout job val)
    (hlen : (U ++ x :: V).length = job.nmemb) (hmid : U.length = job.nmemb / 2)
    (hU : ∀ u ∈ U, job.cmp val u x ≤ 0) (hV : ∀ v ∈ V, job.cmp val x v ≤ 0)
    (hfirst : ∀ u, (U ++ x :: V)[0]? = some u → job.cmp val u x = 0)
    (hbound : 1 < job.nmemb) :
    quickSort job (fuel + 1) depth job.bot job.nmemb (bytes val (U ++ x :: V)) =
      insertionSort job job.bot job.nmemb (bytes val (U ++ x :: V)) := by
  have hall := Nat.le_of_eq hlen
  have hbot : job.bot = addr job 0 := by rw [addr, Nat.zero_mul, Nat.add_zero]
  have hlength : U.length + (V.length + 1) = job.nmemb := by
    rw [← hlen, List.length_append, List.length_cons]
  have hmiddle : forward (addr job 0) (job.size * (job.nmemb / 2)) = addr job U.length := by
    rw [Nat.mul_comm, h.forward_addr (by omega), Nat.zero_add, hmid]
  have htop : forward (addr job 0) ((job.nmemb - 1) * job.size) =
      addr job (U.length + V.length) := by
    rw [h.forward_addr (by omega)]
    congr 1
    omega
  have hmedian : median job (addr job 0) (addr job U.length) (addr job (U.length + V.length))
      job.nmemb (bytes val (U ++ x :: V)) = some (bytes val (U ++ x :: V)) := by
    have hlast : U.length + V.length < (U ++ x :: V).length := by omega
    have hzero : 0 < (U ++ x :: V).length := by omega
    have heq := hfirst _ (List.getElem?_eq_getElem hzero)
    rw [Job.cmp] at heq
    rw [median]
    split_ifs
    · rw [h.call_eq hall (List.getElem?_eq_getElem hzero) getElem?_middle,
        h.call_eq hall getElem?_middle (List.getElem?_eq_getElem hlast), heq, Option.bind_some,
        Option.bind_some, if_neg (fun hless ↦ Int.lt_irrefl 0 hless.1),
        if_neg (fun hless ↦ Int.lt_irrefl 0 hless.1), Option.bind_some, if_pos rfl]
    · rfl
  have hpartition := partition_divided (X := []) (Z := []) false job.nmemb job.nmemb h
    (by rw [List.nil_append, List.append_nil]; exact hall) hU hV (by omega)
  rw [List.length_nil, Nat.zero_add, List.nil_append, List.append_nil] at hpartition
  rw [quickSort]
  dsimp only
  rw [hbot, hmiddle, htop, hmedian, Option.bind_some, hpartition, Option.bind_some,
    if_neg Bool.false_ne_true]

/-- `qsort` leaves an array that begins too low. -/
theorem qsort_leaves (depth : ℕ) (hpos : 0 < size) (hsmall : (nmemb + 2) * size < 2 ^ 31)
    (hfits : bot + (nmemb + 2) * size < 2 ^ 32) (hlow : bot < size) :
    qsort ⟨bot, nmemb + 2, size, byFirst⟩ depth (bytes (plainRow size) (outOfPlace nmemb)) =
      none := by
  have h := layout_plainRow hpos hsmall hfits
  have hlen : (outOfPlace nmemb).length = nmemb + 2 := by
    rw [outOfPlace, List.length_cons, List.length_cons, List.length_replicate]
  have hinsertion : insertionSort ⟨bot, nmemb + 2, size, byFirst⟩ bot (nmemb + 2)
      (bytes (plainRow size) (outOfPlace nmemb)) = none := by
    refine insertionSort_leaves h hlen hlow ?_
    change byFirst (plainRow size false) (plainRow size true) < 0
    rw [byFirst_plainRow hpos]
    decide
  rw [qsort, if_neg (by dsimp only; omega)]
  split_ifs with hmany
  · have hmany : 4 ≤ nmemb + 2 := hmany
    obtain ⟨U, V, hshape, hmid⟩ : ∃ U V, outOfPlace nmemb = U ++ true :: V ∧
        U.length = (nmemb + 2) / 2 := by
      have hlt : (nmemb + 2) / 2 < (outOfPlace nmemb).length := by omega
      have hx : (outOfPlace nmemb)[(nmemb + 2) / 2] = true := by
        obtain ⟨k, hk⟩ : ∃ k, (nmemb + 2) / 2 = k + 2 := ⟨(nmemb + 2) / 2 - 2, by omega⟩
        simp only [hk, outOfPlace, List.getElem_cons_succ, List.getElem_replicate]
      refine ⟨(outOfPlace nmemb).take ((nmemb + 2) / 2),
        (outOfPlace nmemb).drop ((nmemb + 2) / 2 + 1), ?_, ?_⟩
      · rw [← hx, ← List.drop_eq_getElem_cons hlt, List.take_append_drop]
      · rw [List.length_take]
        omega
    have hU (u : Bool) : byFirst (plainRow size u) (plainRow size true) ≤ 0 := by
      rw [byFirst_plainRow hpos]
      cases u <;> decide
    have hV : ∀ v ∈ V, byFirst (plainRow size true) (plainRow size v) ≤ 0 := by
      intro v hv
      have htrue : v = true := by
        have hdrop : V = (outOfPlace nmemb).drop ((nmemb + 2) / 2 + 1) := by
          rw [hshape, ← hmid, List.drop_append, Nat.add_sub_cancel_left, List.drop_succ_cons,
            List.drop_zero, List.drop_eq_nil_of_le (Nat.le_succ _), List.nil_append]
        obtain ⟨k, hk⟩ : ∃ k, (nmemb + 2) / 2 + 1 = k + 2 := ⟨(nmemb + 2) / 2 - 1, by omega⟩
        rw [hdrop, hk, outOfPlace, List.drop_succ_cons, List.drop_succ_cons,
          List.drop_replicate] at hv
        exact List.eq_of_mem_replicate hv
      rw [htrue]
      exact hU true
    have hfirst : ∀ u, (U ++ true :: V)[0]? = some u →
        byFirst (plainRow size u) (plainRow size true) = 0 := by
      rw [← hshape]
      intro u hu
      obtain rfl : true = u := Option.some.inj hu
      rw [byFirst_plainRow hpos]
      decide
    rw [hshape] at hlen hinsertion ⊢
    rw [← hinsertion]
    exact quickSort_undivided h hlen hmid (fun u _ ↦ hU u) hV hfirst (by
      change 1 < nmemb + 2
      omega)
  · exact hinsertion

/-- No stack makes `qsort` sort an array that begins too low. -/
theorem not_sortsAll (hpos : 0 < size) (hsmall : nmemb * size < 2 ^ 31)
    (hfits : bot + nmemb * size < 2 ^ 32) (hmany : 2 ≤ nmemb) (hlow : bot < size) :
    ¬SortsAll bot nmemb size := by
  intro hall
  obtain ⟨n, rfl⟩ : ∃ n, nmemb = n + 2 := ⟨nmemb - 2, by omega⟩
  obtain ⟨⟨depth, sorted, hrun, -⟩, -⟩ := hall byFirst ((outOfPlace n).map (plainRow size))
    (by rw [List.length_map, outOfPlace, List.length_cons, List.length_cons, List.length_replicate])
    (by
      intro row hrow
      obtain ⟨b, -, rfl⟩ := List.mem_map.mp hrow
      exact List.length_replicate)
    byFirst_preorder
  have hleaves := qsort_leaves depth hpos hsmall hfits hlow
  rw [bytes, List.flatMap_def, hrun] at hleaves
  exact Option.some_ne_none _ hleaves

/-- Where elements that compare equal are equal, any two sorts leave the same. -/
theorem Leaves.unique {run run' : Option (List Byte)} (hpre : PreorderOn compar rows)
    (hequal : ∀ x ∈ rows, ∀ y ∈ rows, compar x y = 0 → x = y) (h : Leaves compar rows run)
    (h' : Leaves compar rows run') : run = run' := by
  obtain ⟨S, hrun, hperm, hsorted⟩ := h
  obtain ⟨S', hrun', hperm', hsorted'⟩ := h'
  have hsame : S = S' := by
    refine List.Perm.eq_of_pairwise (fun x y hx hy hxy hyx ↦ ?_) hsorted hsorted'
      (hperm.trans hperm'.symm)
    have hx' := hperm.mem_iff.mp hx
    have hy' := hperm'.mem_iff.mp hy
    have hless := mt (hpre.lt_iff x hx' y hy').mp (Int.not_lt.mpr hyx)
    exact hequal x hx' y hy' (Int.le_antisymm hxy (Int.not_lt.mp hless))
  rw [hrun, hrun', hsame]

end Bsd386.Libc.Sort
