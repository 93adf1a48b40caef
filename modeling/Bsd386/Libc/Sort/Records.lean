import Bsd386.Lib.Partial
import Bsd386.Libc.Sort.Basic
import Mathlib.Tactic.SplitIfs

/-!
# Elements in memory

The bytes of an array are those of its elements, one behind the other. Seen so, a swap exchanges two
whole elements, and the loop that moves the bytes of an element up, one column of bytes after the
other, moves whole elements.
-/

namespace Bsd386.Libc.Sort

variable {α : Type*} {job : Job} {val : α → List Byte} {l X Y Z : List α} {x y z : α}
  {i j k p q cnt fuel t2 : ℕ} {P Q R a b : List Byte} {ch ch' : Byte}

/-- The bytes of elements. -/
def bytes (val : α → List Byte) (l : List α) : List Byte := l.flatMap val

/-- The address of an element. -/
def addr (job : Job) (i : ℕ) : ℕ := job.bot + i * job.size

/-- The elements have the size of the job, and the array is one that a process can have. -/
structure Layout (job : Job) (val : α → List Byte) : Prop where
  size_pos : 0 < job.size
  length_val : ∀ x, (val x).length = job.size
  small : job.nmemb * job.size < 2 ^ 31
  fits : job.bot + job.nmemb * job.size < 2 ^ 32

/-! ## Addresses -/

theorem bytes_append : bytes val (X ++ Y) = bytes val X ++ bytes val Y := List.flatMap_append

theorem bytes_cons : bytes val (x :: Y) = val x ++ bytes val Y := List.flatMap_cons

theorem addr_succ : addr job (i + 1) = addr job i + job.size := by
  rw [addr, addr, Nat.succ_mul, Nat.add_assoc]

theorem addr_le (hij : i ≤ j) : addr job i ≤ addr job j :=
  Nat.add_le_add_left (Nat.mul_le_mul_right _ hij) _

namespace Layout

variable (h : Layout job val)

include h

theorem length_bytes (l : List α) : (bytes val l).length = l.length * job.size := by
  induction l with
  | nil => rw [List.length_nil, Nat.zero_mul]; rfl
  | cons x l ih => rw [bytes_cons, List.length_append, ih, h.length_val, List.length_cons,
      Nat.succ_mul, Nat.add_comm]

theorem addr_lt (hij : i < j) : addr job i < addr job j :=
  Nat.add_lt_add_left (Nat.mul_lt_mul_of_pos_right hij h.size_pos) _

theorem addr_lt_iff : addr job i < addr job j ↔ i < j := by
  refine ⟨fun hlt ↦ Nat.lt_of_not_le fun hle ↦ ?_, h.addr_lt⟩
  exact Nat.not_lt.mpr (addr_le hle) hlt

theorem addr_inj : addr job i = addr job j ↔ i = j := by
  refine ⟨fun heq ↦ ?_, congrArg _⟩
  rcases Nat.lt_trichotomy i j with hlt | rfl | hlt
  · exact absurd heq (Nat.ne_of_lt (h.addr_lt hlt))
  · rfl
  · exact absurd heq.symm (Nat.ne_of_lt (h.addr_lt hlt))

theorem addr_lt_max (hi : i ≤ job.nmemb) : addr job i < 2 ^ 32 :=
  Nat.lt_of_le_of_lt (addr_le hi) h.fits

theorem size_lt (hi : 0 < job.nmemb) : job.size < 2 ^ 31 :=
  Nat.lt_of_le_of_lt (Nat.le_mul_of_pos_left _ hi) h.small

theorem forward_addr (hi : i + j ≤ job.nmemb) :
    forward (addr job i) (j * job.size) = addr job (i + j) := by
  have hsum : addr job i + j * job.size = addr job (i + j) := by
    rw [addr, addr, Nat.add_mul, Nat.add_assoc]
  rw [forward, hsum]
  exact Nat.mod_eq_of_lt (h.addr_lt_max hi)

theorem forward_size (hi : i < job.nmemb) : forward (addr job i) job.size = addr job (i + 1) := by
  have hnext := h.forward_addr (i := i) (j := 1) hi
  rw [Nat.one_mul] at hnext
  exact hnext

theorem back_addr (hi : i < job.nmemb) : back (addr job (i + 1)) job.size = addr job i := by
  have hlt := h.addr_lt_max (Nat.le_of_lt hi)
  rw [back, addr_succ]
  omega

end Layout

/-! ## Bytes -/

theorem load_append (hp : p = job.bot + P.length) : load job p (P ++ ch :: R) = some ch := by
  rw [load, if_neg (by omega), hp, Nat.add_sub_cancel_left, List.getElem?_append_right
    (Nat.le_refl _), Nat.sub_self]
  rfl

theorem store_append (hp : p = job.bot + P.length) :
    store job p ch' (P ++ ch :: R) = some (P ++ ch' :: R) := by
  have hlength : (P ++ ch :: R).length = P.length + (R.length + 1) := List.length_append
  rw [store, if_neg (by omega), hp, Nat.add_sub_cancel_left, List.set_append_right _ _
    (Nat.le_refl _), Nat.sub_self]
  rfl

/-- The bytes of two areas are exchanged. -/
theorem swap_bytes (ha : a.length = cnt) (hb : b.length = cnt) (hp : p = job.bot + P.length)
    (hq : q = p + cnt + Q.length) (hlt : q + cnt < 2 ^ 32) :
    swap job cnt p q (P ++ (a ++ (Q ++ (b ++ R)))) = some (P ++ (b ++ (Q ++ (a ++ R)))) := by
  induction cnt generalizing p q P a Q b with
  | zero =>
    rw [List.eq_nil_of_length_eq_zero ha, List.eq_nil_of_length_eq_zero hb]
    rfl
  | succ cnt ih =>
    obtain ⟨x, a, rfl⟩ := List.exists_cons_of_length_eq_add_one ha
    obtain ⟨y, b, rfl⟩ := List.exists_cons_of_length_eq_add_one hb
    rw [List.length_cons] at ha hb
    have hbehind (x y : Byte) : P ++ (x :: a ++ (Q ++ (y :: b ++ R))) =
        (P ++ (x :: a ++ Q)) ++ y :: (b ++ R) := by
      simp only [List.append_assoc, List.cons_append]
    have hplace (x : Byte) : q = job.bot + (P ++ (x :: a ++ Q)).length := by
      simp only [List.length_append, List.length_cons]
      omega
    have hnext : P ++ (y :: a ++ (Q ++ (x :: b ++ R))) =
        (P ++ [y]) ++ (a ++ ((Q ++ [x]) ++ (b ++ R))) := by
      simp only [List.append_assoc, List.cons_append, List.nil_append]
    have hlast : (P ++ [y]) ++ (b ++ ((Q ++ [x]) ++ (a ++ R))) =
        P ++ (y :: b ++ (Q ++ (x :: a ++ R))) := by
      simp only [List.append_assoc, List.cons_append, List.nil_append]
    have hp' : forward p 1 = job.bot + (P ++ [y]).length := by
      rw [forward, List.length_append, List.length_singleton]
      omega
    have hq' : forward q 1 = forward p 1 + cnt + (Q ++ [x]).length := by
      rw [forward, forward, List.length_append, List.length_singleton]
      omega
    have hlt' : forward q 1 + cnt < 2 ^ 32 := by
      rw [forward]
      omega
    rw [swap, List.cons_append, load_append hp, Option.bind_some, ← List.cons_append,
      hbehind, load_append (hplace x), Option.bind_some, ← hbehind, List.cons_append,
      store_append hp, Option.bind_some, ← List.cons_append, hbehind, store_append (hplace y),
      Option.bind_some, ← hbehind, hnext, ih (by omega) (by omega) hp' hq' hlt', hlast]

/-- The areas can be given in either order. -/
theorem swap_comm (m : List Byte) : swap job cnt p q m = swap job cnt q p m := by
  induction cnt generalizing p q m with
  | zero => rfl
  | succ cnt ih =>
    rw [swap, swap]
    cases hx : load job p m with
    | none =>
      cases hy : load job q m with
      | none => rfl
      | some y => rfl
    | some x =>
      cases hy : load job q m with
      | none => rfl
      | some y =>
        rw [Option.bind_some, Option.bind_some, Option.bind_some, Option.bind_some]
        rw [load] at hx hy
        split_ifs at hx with hbelow
        split_ifs at hy with hbelow'
        obtain ⟨hlt, hget⟩ := List.getElem?_eq_some_iff.mp hx
        obtain ⟨hlt', hget'⟩ := List.getElem?_eq_some_iff.mp hy
        have hset (ch : Byte) : store job p ch m = some (m.set (p - job.bot) ch) := by
          rw [store, if_neg (by omega)]
        have hset' (ch : Byte) : store job q ch m = some (m.set (q - job.bot) ch) := by
          rw [store, if_neg (by omega)]
        have hthen (ch ch' : Byte) : store job q ch (m.set (p - job.bot) ch') =
            some ((m.set (p - job.bot) ch').set (q - job.bot) ch) := by
          rw [store, List.length_set, if_neg (by omega)]
        have hthen' (ch ch' : Byte) : store job p ch (m.set (q - job.bot) ch') =
            some ((m.set (q - job.bot) ch').set (p - job.bot) ch) := by
          rw [store, List.length_set, if_neg (by omega)]
        rw [hset, hset', Option.bind_some, Option.bind_some, hthen, hthen', Option.bind_some,
          Option.bind_some, ih]
        congr 1
        by_cases heq : p - job.bot = q - job.bot
        · have hxy : x = y := by
            rw [← hget, ← hget']
            exact getElem_congr_idx heq
          rw [heq, hxy]
        · exact List.set_comm _ _ heq

/-! ## Elements -/

namespace Layout

variable (h : Layout job val)

include h

/-- Where an element begins. -/
theorem addr_eq (X : List α) : addr job X.length = job.bot + (bytes val X).length := by
  rw [addr, h.length_bytes]

/-- A whole element is read. -/
theorem element_eq (hl : X.length < job.nmemb) :
    element job (addr job X.length) (bytes val (X ++ x :: Y)) = some (val x) := by
  have hlt := h.addr_lt_max (i := X.length + 1) hl
  rw [addr_succ] at hlt
  rw [element, List.range_eq_range', ← h.length_val x]
  refine mapM_range'_eq 0 fun k ch hk ↦ ?_
  obtain ⟨hbound, -⟩ := List.getElem?_eq_some_iff.mp hk
  have hsplit := List.take_append_drop k (val x)
  have hdrop : (val x).drop k = ch :: (val x).drop (k + 1) := by
    obtain ⟨hbound, rfl⟩ := List.getElem?_eq_some_iff.mp hk
    exact List.drop_eq_getElem_cons hbound
  have hshape : bytes val (X ++ x :: Y) =
      (bytes val X ++ (val x).take k) ++ ch :: ((val x).drop (k + 1) ++ bytes val Y) := by
    rw [bytes_append, bytes_cons, List.append_assoc, ← List.cons_append, ← hdrop,
      ← List.append_assoc ((val x).take k), hsplit]
  rw [h.length_val x] at hbound
  rw [hshape]
  apply load_append
  rw [forward, Nat.zero_add, List.length_append, List.length_take, h.length_val x,
    Nat.min_eq_left (Nat.le_of_lt hbound), ← Nat.add_assoc, ← h.addr_eq]
  exact Nat.mod_eq_of_lt (by omega)

/-- Two elements are compared. -/
theorem call_eq (hl : l.length ≤ job.nmemb) (hx : l[i]? = some x) (hy : l[j]? = some y) :
    call job (addr job i) (addr job j) (bytes val l) = some (job.compar (val x) (val y)) := by
  have hread {i : ℕ} {x : α} (hx : l[i]? = some x) :
      element job (addr job i) (bytes val l) = some (val x) := by
    obtain ⟨hi, rfl⟩ := List.getElem?_eq_some_iff.mp hx
    have hlength : (l.take i).length = i := by
      rw [List.length_take]
      omega
    have hshape : l.take i ++ l[i] :: l.drop (i + 1) = l := by
      rw [← List.drop_eq_getElem_cons hi, List.take_append_drop]
    have hread := h.element_eq (X := l.take i) (x := l[i]) (Y := l.drop (i + 1)) (by omega)
    rw [hshape, hlength] at hread
    exact hread
  rw [call, hread hx, hread hy]
  rfl

/-- Two elements are exchanged. -/
theorem swap_eq (hl : (X ++ x :: (Y ++ y :: Z)).length ≤ job.nmemb) :
    swap job job.size (addr job X.length) (addr job (X.length + 1 + Y.length))
      (bytes val (X ++ x :: (Y ++ y :: Z))) = some (bytes val (X ++ y :: (Y ++ x :: Z))) := by
  have hshape (x y : α) : bytes val (X ++ x :: (Y ++ y :: Z)) =
      bytes val X ++ (val x ++ (bytes val Y ++ (val y ++ bytes val Z))) := by
    rw [bytes_append, bytes_cons, bytes_append, bytes_cons]
  have hq : addr job (X.length + 1 + Y.length) =
      addr job X.length + job.size + (bytes val Y).length := by
    rw [h.length_bytes, ← addr_succ, addr, addr, Nat.add_mul (X.length + 1), Nat.add_assoc]
  have hlt := h.addr_lt_max (i := X.length + 1 + Y.length + 1) (by
    simp only [List.length_append, List.length_cons] at hl
    omega)
  rw [addr_succ] at hlt
  rw [hshape, hshape]
  exact swap_bytes (h.length_val x) (h.length_val y) (h.addr_eq X) hq hlt

end Layout

end Bsd386.Libc.Sort
