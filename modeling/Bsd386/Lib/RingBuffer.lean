import Mathlib.Data.List.Range
import Mathlib.Logic.Function.Basic

/-!
# Ring buffers

A ring of `n` cells with two positions, of which one cell stays free. A ring is as good as the list
of what it holds.
-/

namespace Bsd386

open Function

/-- The cells, where the contents begin, and where they end. -/
structure RingBuffer (α : Type*) (n : ℕ) where
  buf : ℕ → α
  hd : ℕ
  tl : ℕ
  hd_lt : hd < n
  tl_lt : tl < n

namespace RingBuffer

variable {α : Type*} {n : ℕ}

/-- The position behind another. -/
def next (n p : ℕ) : ℕ := if n - 1 ≤ p then 0 else p + 1

/-- The position before another. -/
def before (n p : ℕ) : ℕ := if p = 0 then n - 1 else p - 1

theorem next_lt {p : ℕ} (hp : p < n) : next n p < n := by
  rw [next]
  split_ifs <;> omega

theorem before_lt {p : ℕ} (hp : p < n) : before n p < n := by
  rw [before]
  split_ifs <;> omega

/-- The number of cells in use. -/
def len (r : RingBuffer α n) : ℕ := if r.hd ≤ r.tl then r.tl - r.hd else n - (r.hd - r.tl)

/-- The contents from the first to the last. -/
def toList (r : RingBuffer α n) : List α := (List.range r.len).map fun i ↦ r.buf ((r.hd + i) % n)

/-- Add a value at the end, unless the ring is full. -/
def push (a : α) (r : RingBuffer α n) : Option (RingBuffer α n) :=
  if next n r.tl = r.hd then none
  else some ⟨update r.buf r.tl a, r.hd, next n r.tl, r.hd_lt, next_lt r.tl_lt⟩

/-- Take the first value. -/
def pop (r : RingBuffer α n) : Option (α × RingBuffer α n) :=
  if r.hd = r.tl then none
    else some (r.buf r.hd, ⟨r.buf, next n r.hd, r.tl, next_lt r.hd_lt, r.tl_lt⟩)

/-- Take the last value. -/
def unpush (r : RingBuffer α n) : Option (α × RingBuffer α n) :=
  if r.hd = r.tl then none
  else some (r.buf (before n r.tl), ⟨r.buf, r.hd, before n r.tl, r.hd_lt, before_lt r.tl_lt⟩)

variable {r : RingBuffer α n} {a : α} {l : List α}

theorem len_lt (r : RingBuffer α n) : r.len < n := by
  have hhd := r.hd_lt
  have htl := r.tl_lt
  rw [len]
  split_ifs <;> omega

theorem length_toList (r : RingBuffer α n) : r.toList.length = r.len := by
  rw [toList, List.length_map, List.length_range]

theorem length_lt (r : RingBuffer α n) : r.toList.length < n := r.length_toList.trans_lt r.len_lt

/-- The positions in use, and the one behind them. -/
theorem position (r : RingBuffer α n) {i : ℕ} (hi : i < n) :
    (r.hd + i) % n = if r.hd + i < n then r.hd + i else r.hd + i - n := by
  have hhd := r.hd_lt
  split_ifs with hlt
  · exact Nat.mod_eq_of_lt hlt
  · rw [Nat.mod_eq_sub_mod (by omega), Nat.mod_eq_of_lt (by omega)]

theorem position_len (r : RingBuffer α n) : (r.hd + r.len) % n = r.tl := by
  have hhd := r.hd_lt
  have htl := r.tl_lt
  rw [r.position r.len_lt, len]
  split_ifs <;> omega

theorem position_ne (r : RingBuffer α n) {i : ℕ} (hi : i < r.len) : (r.hd + i) % n ≠ r.tl := by
  have hhd := r.hd_lt
  have htl := r.tl_lt
  have hlen := r.len_lt
  rw [r.position (by omega)]
  rw [len] at hi
  split_ifs at hi ⊢ <;> omega

/-- A ring that is not full takes a value. -/
theorem push_eq (a : α) (hlen : r.len + 1 < n) :
    ∃ r', r.push a = some r' ∧ r'.toList = r.toList ++ [a] := by
  have hhd := r.hd_lt
  have htl := r.tl_lt
  have hne : next n r.tl ≠ r.hd := by
    rw [len] at hlen
    rw [next]
    split_ifs at hlen ⊢ <;> omega
  have hlen' :
    (⟨update r.buf r.tl a, r.hd, next n r.tl, r.hd_lt, next_lt r.tl_lt⟩ : RingBuffer α n).len =
      r.len + 1 := by
    change (if r.hd ≤ next n r.tl then next n r.tl - r.hd else n - (r.hd - next n r.tl)) = _
    rw [next, len]
    rw [len] at hlen
    split_ifs at hlen ⊢ <;> omega
  refine ⟨_, if_neg hne, ?_⟩
  rw [toList, toList, hlen', List.range_succ, List.map_append, List.map_singleton, r.position_len]
  change _ ++ [update r.buf r.tl a r.tl] = _
  rw [update_self]
  refine congrArg (· ++ [a]) (List.map_congr_left fun i hi ↦ ?_)
  exact update_of_ne (r.position_ne (List.mem_range.mp hi)) _ _

theorem push_eq_none (a : α) (hlen : n ≤ r.len + 1) : r.push a = none := by
  have hhd := r.hd_lt
  have htl := r.tl_lt
  refine if_pos ?_
  rw [len] at hlen
  rw [next]
  split_ifs at hlen ⊢ <;> omega

theorem hd_eq_tl_iff (r : RingBuffer α n) : r.hd = r.tl ↔ r.toList = [] := by
  have hhd := r.hd_lt
  have htl := r.tl_lt
  rw [← List.length_eq_zero_iff, r.length_toList, len]
  split_ifs <;> omega

theorem pop_eq_none (hl : r.toList = []) : r.pop = none := if_pos (r.hd_eq_tl_iff.mpr hl)

/-- A ring that is not empty gives its first value. -/
theorem pop_eq (hl : r.toList = a :: l) : ∃ r', r.pop = some (a, r') ∧ r'.toList = l := by
  have hhd := r.hd_lt
  have htl := r.tl_lt
  have hne : r.hd ≠ r.tl := fun h ↦ by
    rw [r.hd_eq_tl_iff.mp h] at hl
    cases hl
  have hlen : r.len = l.length + 1 := by rw [← r.length_toList, hl, List.length_cons]
  have hlt := r.len_lt
  have hlen' : (⟨r.buf, next n r.hd, r.tl, next_lt r.hd_lt, r.tl_lt⟩ : RingBuffer α n).len =
    l.length := by
    change (if next n r.hd ≤ r.tl then r.tl - next n r.hd else n - (next n r.hd - r.tl)) = _
    rw [next]
    rw [len] at hlen
    split_ifs at hlen ⊢ <;> omega
  rw [toList, hlen, List.range_succ_eq_map, List.map_cons, List.map_map, Nat.add_zero,
    Nat.mod_eq_of_lt hhd, List.cons.injEq] at hl
  refine ⟨_, (if_neg hne).trans (by rw [hl.1]), ?_⟩
  rw [toList, hlen']
  refine (List.map_congr_left fun i hi ↦ ?_).trans hl.2
  have hi' := List.mem_range.mp hi
  refine congrArg r.buf ?_
  change (next n r.hd + i) % n = (r.hd + (i + 1)) % n
  rw [next]
  split_ifs
  · rw [Nat.zero_add, Nat.mod_eq_of_lt (by omega), r.position (by omega), if_neg (by omega)]
    omega
  · rw [Nat.add_assoc, Nat.add_comm 1 i]

theorem unpush_eq_none (hl : r.toList = []) : r.unpush = none := if_pos (r.hd_eq_tl_iff.mpr hl)

/-- A ring that is not empty gives its last value. -/
theorem unpush_eq (hl : r.toList = l ++ [a]) : ∃ r', r.unpush = some (a, r') ∧ r'.toList = l := by
  have hhd := r.hd_lt
  have htl := r.tl_lt
  have hne : r.hd ≠ r.tl := fun h ↦ by
    rw [r.hd_eq_tl_iff.mp h] at hl
    exact List.append_ne_nil_of_right_ne_nil l (List.cons_ne_nil a []) hl.symm
  have hlen : r.len = l.length + 1 := by
    rw [← r.length_toList, hl, List.length_append, List.length_singleton]
  have hlt := r.len_lt
  have hlen' : (⟨r.buf, r.hd, before n r.tl, r.hd_lt, before_lt r.tl_lt⟩ : RingBuffer α n).len =
    l.length := by
    change (if r.hd ≤ before n r.tl then before n r.tl - r.hd else n - (r.hd - before n r.tl)) = _
    rw [before]
    rw [len] at hlen
    split_ifs at hlen ⊢ <;> omega
  rw [toList, hlen, List.range_succ, List.map_append, List.map_singleton] at hl
  obtain ⟨hinit, hlast⟩ := List.append_inj' hl rfl
  have hlast := List.singleton_inj.mp hlast
  have hpos : (r.hd + l.length) % n = before n r.tl := by
    rw [r.position (by omega), before]
    rw [len] at hlen
    split_ifs at hlen ⊢ <;> omega
  have hvalue : r.buf (before n r.tl) = a := by rw [← hpos, hlast]
  refine ⟨_, (if_neg hne).trans (by rw [hvalue]), ?_⟩
  rw [toList, hlen']
  exact hinit

/-! ## The front -/

/-- Put a value back in front, unless the ring is full. -/
def unpop (a : α) (r : RingBuffer α n) : Option (RingBuffer α n) :=
  if before n r.hd = r.tl then none
  else some ⟨update r.buf (before n r.hd) a, before n r.hd, r.tl, before_lt r.hd_lt, r.tl_lt⟩

theorem unpop_eq_none (a : α) (hlen : n ≤ r.len + 1) : r.unpop a = none := by
  have hhd := r.hd_lt
  have htl := r.tl_lt
  refine if_pos ?_
  rw [len] at hlen
  rw [before]
  split_ifs at hlen ⊢ <;> omega

/-- A ring that is not full takes a value in front. -/
theorem unpop_eq (a : α) (hlen : r.len + 1 < n) :
    ∃ r', r.unpop a = some r' ∧ r'.toList = a :: r.toList := by
  have hhd := r.hd_lt
  have htl := r.tl_lt
  have hne : before n r.hd ≠ r.tl := by
    rw [len] at hlen
    rw [before]
    split_ifs at hlen ⊢ <;> omega
  have hlen' : (⟨update r.buf (before n r.hd) a, before n r.hd, r.tl, before_lt r.hd_lt, r.tl_lt⟩ :
      RingBuffer α n).len = r.len + 1 := by
    change (if before n r.hd ≤ r.tl then r.tl - before n r.hd else n - (before n r.hd - r.tl)) = _
    rw [before, len]
    rw [len] at hlen
    split_ifs at hlen ⊢ <;> omega
  refine ⟨_, if_neg hne, ?_⟩
  rw [toList, toList, hlen', List.range_succ_eq_map, List.map_cons, List.map_map]
  change update r.buf (before n r.hd) a ((before n r.hd + 0) % n) :: _ = _
  rw [Nat.add_zero, Nat.mod_eq_of_lt (before_lt r.hd_lt), update_self]
  refine congrArg (a :: ·) (List.map_congr_left fun i hi ↦ ?_)
  have hi' := List.mem_range.mp hi
  have hshift : (before n r.hd + (i + 1)) % n = (r.hd + i) % n := by
    rw [before, r.position (by omega)]
    split_ifs with hzero hlt hlt
    · rw [Nat.mod_eq_sub_mod (by omega), Nat.mod_eq_of_lt (by omega)]
      omega
    · omega
    · rw [Nat.mod_eq_of_lt (by omega)]
      omega
    · rw [Nat.mod_eq_sub_mod (by omega), Nat.mod_eq_of_lt (by omega)]
      omega
  change update r.buf (before n r.hd) a ((before n r.hd + (i + 1)) % n) = r.buf ((r.hd + i) % n)
  rw [hshift]
  refine update_of_ne ?_ _ _
  rw [r.position (by omega), before]
  split_ifs <;> omega

/-! ## Blocks -/

/-- A position that may be just behind the last. -/
def rollover (n p : ℕ) : ℕ := if n - 1 < p then 0 else p

/-- The number of cells that can be written without turning round, one of them staying free. -/
def room (r : RingBuffer α n) : ℕ :=
  if before n r.hd < r.tl then n - r.tl else before n r.hd - r.tl

/-- The number of values that can be read without turning round. -/
def ready (r : RingBuffer α n) : ℕ := if r.hd ≤ r.tl then r.tl - r.hd else n - r.hd

theorem rollover_lt {p : ℕ} (hn : 0 < n) (hp : p ≤ n) : rollover n p < n := by
  rw [rollover]
  split_ifs <;> omega

theorem room_le (r : RingBuffer α n) : r.tl + r.room ≤ n := by
  have hhd := before_lt r.hd_lt
  have htl := r.tl_lt
  rw [room]
  split_ifs <;> omega

theorem ready_le (r : RingBuffer α n) : r.hd + r.ready ≤ n := by
  have hhd := r.hd_lt
  have htl := r.tl_lt
  rw [ready]
  split_ifs <;> omega

/-- The cells with a list written over them from a position on. -/
def write (buf : ℕ → α) (p : ℕ) : List α → ℕ → α
  | [] => buf
  | a :: l => write (update buf p a) (p + 1) l

/-- Write a block of values behind the last, that is not larger than there is room for. -/
def putBlock (l : List α) (r : RingBuffer α n) (hl : l.length ≤ r.room) : RingBuffer α n :=
  ⟨write r.buf r.tl l, r.hd, rollover n (r.tl + l.length), r.hd_lt,
    rollover_lt (Nat.zero_lt_of_lt r.hd_lt) ((Nat.add_le_add_left hl _).trans r.room_le)⟩

/-- Read a block of values, that is not larger than what is ready. -/
def getBlock (k : ℕ) (r : RingBuffer α n) (hk : k ≤ r.ready) : List α × RingBuffer α n :=
  ((List.range k).map fun i ↦ r.buf (r.hd + i),
    ⟨r.buf, rollover n (r.hd + k), r.tl,
      rollover_lt (Nat.zero_lt_of_lt r.hd_lt) ((Nat.add_le_add_left hk _).trans r.ready_le),
      r.tl_lt⟩)

/-- Add values one after the other. -/
def pushAll : List α → RingBuffer α n → Option (RingBuffer α n)
  | [], r => some r
  | a :: l, r => (r.push a).bind (pushAll l)

/-- Take values one after the other. -/
def popAll : ℕ → RingBuffer α n → Option (List α × RingBuffer α n)
  | 0, r => some ([], r)
  | k + 1, r => r.pop.bind fun p ↦ (popAll k p.2).map fun q ↦ (p.1 :: q.1, q.2)

/-- A block is written as its values are, one after the other. -/
theorem pushAll_eq (l : List α) (r : RingBuffer α n) (hl : l.length ≤ r.room) :
    pushAll l r = some (r.putBlock l hl) := by
  have hhd := r.hd_lt
  have htl := r.tl_lt
  induction l generalizing r with
  | nil =>
    have hrollover : rollover n (r.tl + 0) = r.tl := if_neg (by omega)
    simp only [pushAll, putBlock, write, List.length_nil, hrollover]
  | cons a l ih =>
    have hroom := r.room_le
    rw [List.length_cons] at hl
    have hne : next n r.tl ≠ r.hd := by
      rw [room, before] at hl
      rw [next]
      split_ifs at hl ⊢ <;> omega
    rw [pushAll, push, if_neg hne, Option.bind_some]
    cases l with
    | nil =>
      have hnext : next n r.tl = rollover n (r.tl + 1) := by
        rw [next, rollover]
        split_ifs <;> omega
      simp only [pushAll, putBlock, write, List.length_cons, List.length_nil, Nat.zero_add, hnext]
    | cons b l =>
      rw [List.length_cons] at hl
      have hnext : next n r.tl = r.tl + 1 := if_neg (by omega)
      have hl' : (b :: l).length ≤ (⟨update r.buf r.tl a, r.hd, next n r.tl, r.hd_lt,
          next_lt r.tl_lt⟩ : RingBuffer α n).room := by
        change _ ≤ if before n r.hd < next n r.tl then n - next n r.tl
          else before n r.hd - next n r.tl
        rw [hnext, List.length_cons]
        rw [room, before] at hl
        rw [before]
        split_ifs at hl ⊢ <;> omega
      rw [ih _ hl' hhd (next_lt htl)]
      simp only [putBlock, write, hnext, List.length_cons]
      congr 3
      omega

/-- A block is read as its values are, one after the other. -/
theorem popAll_eq (k : ℕ) (r : RingBuffer α n) (hk : k ≤ r.ready) :
    popAll k r = some (r.getBlock k hk) := by
  have hhd := r.hd_lt
  have htl := r.tl_lt
  induction k generalizing r with
  | zero =>
    have hrollover : rollover n (r.hd + 0) = r.hd := if_neg (by omega)
    simp only [popAll, getBlock, hrollover, List.range_zero, List.map_nil]
  | succ k ih =>
    have hready := r.ready_le
    have hne : r.hd ≠ r.tl := by
      intro heq
      rw [ready, heq, if_pos le_rfl] at hk
      omega
    rw [popAll, pop, if_neg hne, Option.bind_some]
    cases k with
    | zero =>
      have hnext : next n r.hd = rollover n (r.hd + 1) := by
        rw [next, rollover]
        split_ifs <;> omega
      simp [popAll, getBlock, hnext]
    | succ k =>
      have hnext : next n r.hd = r.hd + 1 := if_neg (by omega)
      have hk' : k + 1 ≤ (⟨r.buf, next n r.hd, r.tl, next_lt r.hd_lt, r.tl_lt⟩ :
          RingBuffer α n).ready := by
        change _ ≤ if next n r.hd ≤ r.tl then r.tl - next n r.hd else n - next n r.hd
        rw [hnext]
        rw [ready] at hk
        split_ifs at hk ⊢ <;> omega
      rw [ih _ hk' (next_lt hhd) htl]
      simp only [getBlock, Option.map_some, hnext, List.range_succ_eq_map (n := k + 1),
        List.map_cons, List.map_map, Nat.add_zero]
      congr 3
      · refine List.map_congr_left fun i _ ↦ congrArg r.buf ?_
        change r.hd + 1 + i = r.hd + (i + 1)
        omega
      · congr 1
        omega

/-- A block never reaches the first value. -/
theorem len_add_room_lt (r : RingBuffer α n) : r.len + r.room < n := by
  have hhd := r.hd_lt
  have htl := r.tl_lt
  rw [len, room, before]
  split_ifs <;> omega

theorem toList_of_push {r' : RingBuffer α n} (h : r.push a = some r') :
    r'.toList = r.toList ++ [a] := by
  rcases Nat.lt_or_ge (r.len + 1) n with hlen | hlen
  · obtain ⟨r'', hpush, hlist⟩ := push_eq a hlen
    rw [hpush] at h
    exact Option.some.inj h ▸ hlist
  · rw [push_eq_none a hlen] at h
    cases h

theorem toList_of_pop {r' : RingBuffer α n} (h : r.pop = some (a, r')) :
    r.toList = a :: r'.toList := by
  cases hl : r.toList with
  | nil =>
    rw [pop_eq_none hl] at h
    cases h
  | cons b l =>
    obtain ⟨r'', hpop, hlist⟩ := pop_eq hl
    rw [hpop] at h
    cases h
    rw [hlist]

theorem toList_of_pushAll {r' : RingBuffer α n} (h : pushAll l r = some r') :
    r'.toList = r.toList ++ l := by
  induction l generalizing r with
  | nil =>
    cases h
    exact (List.append_nil _).symm
  | cons a l ih =>
    obtain ⟨r'', hpush, hrest⟩ := Option.bind_eq_some_iff.mp h
    rw [ih hrest, toList_of_push hpush, List.append_assoc, List.singleton_append]

theorem toList_of_popAll {k : ℕ} {r' : RingBuffer α n} (h : popAll k r = some (l, r')) :
    l.length = k ∧ r.toList = l ++ r'.toList := by
  induction k generalizing r l with
  | zero =>
    cases h
    exact ⟨rfl, rfl⟩
  | succ k ih =>
    obtain ⟨p, hpop, hrest⟩ := Option.bind_eq_some_iff.mp h
    obtain ⟨q, hq, heq⟩ := Option.map_eq_some_iff.mp hrest
    cases heq
    obtain ⟨hlength, hlist⟩ := ih hq
    exact ⟨congrArg (· + 1) hlength, by rw [toList_of_pop hpop, hlist, List.cons_append]⟩

theorem toList_putBlock (hl : l.length ≤ r.room) : (r.putBlock l hl).toList = r.toList ++ l :=
  toList_of_pushAll (pushAll_eq l r hl)

theorem toList_getBlock {k : ℕ} (hk : k ≤ r.ready) :
    (r.getBlock k hk).1 = r.toList.take k ∧ (r.getBlock k hk).2.toList = r.toList.drop k := by
  obtain ⟨hlength, hlist⟩ := toList_of_popAll (popAll_eq k r hk)
  rw [hlist]
  exact ⟨(List.take_left' hlength).symm, (List.drop_left' hlength).symm⟩

end RingBuffer

end Bsd386
