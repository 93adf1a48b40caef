import Mathlib.Algebra.Group.Nat.Defs
import Bsd386.Kern.Fault
import Bsd386.Lib.Ranges

/-!
# Resource lists

`kern/subr/rlist.c` keeps a resource, such as the swap space, as a linked list of closed segments
of 32-bit numbers. `rlistFree` and `rlistAlloc` follow the source statement by statement, with the
unsigned additions reduced modulo `2 ^ 32`. The abstract resource is the set of free numbers, and
every run from the empty list refines it: freeing adds a range, allocating removes a range, and
an allocation is refused only when no long enough range of numbers is free.
-/

namespace Bsd386.Kern.Subr

open Bsd386.Ranges

/-- `struct rlist`: one closed segment of the resource; `rl_next` is the list order. -/
structure Rlist where
  rlStart : ℕ
  rlEnd : ℕ
  deriving DecidableEq, Repr

/-- Reduction of an `unsigned` value. -/
def unsigned (value : ℕ) : ℕ := value % 2 ^ 32

/-- The `loop:` of `rlist_free`. The flag of the result says whether control reaches `scan:`.
`space` is whether the `M_NOWAIT` allocation at the tail of the list finds memory; the
`M_WAITOK` allocation in front of an element sleeps until it does. -/
def rlistFreeLoop (space : Bool) (start stop : ℕ) : List Rlist → Except Fault (List Rlist × Bool)
  | [] => if space then .ok ([⟨start, stop⟩], false) else .error .nullPointer
  | rlp :: next =>
    if start ≥ rlp.rlStart ∧ start ≤ rlp.rlEnd then
      .error (.panic "overlapping front rlist_free: freed twice?")
    else if stop ≥ rlp.rlStart ∧ stop ≤ rlp.rlEnd then
      .error (.panic "overlapping tail rlist_free: freed twice?")
    else if unsigned (stop + 1) = rlp.rlStart then .ok (⟨start, rlp.rlEnd⟩ :: next, true)
    else if stop < rlp.rlStart then .ok (⟨start, stop⟩ :: rlp :: next, false)
    else if unsigned (rlp.rlEnd + 1) = start then .ok (⟨rlp.rlStart, stop⟩ :: next, true)
    else if start > rlp.rlEnd then
      match rlistFreeLoop space start stop next with
      | .ok (rest, scan) => .ok (rlp :: rest, scan)
      | .error fault => .error fault
    else .error (.panic "rlist_free: can't happen")

/-- The `scan:` loop with `lp` at the given element: coalesce with the next one or move on. -/
def rlistScanFrom (lp : Rlist) : List Rlist → List Rlist
  | [] => [lp]
  | lpn :: next =>
    if unsigned (lp.rlEnd + 1) = lpn.rlStart then rlistScanFrom ⟨lp.rlStart, lpn.rlEnd⟩ next
    else lp :: rlistScanFrom lpn next

/-- The `scan:` loop from the head of the list. -/
def rlistScan : List Rlist → List Rlist
  | [] => []
  | head :: next => rlistScanFrom head next

/-- `rlist_free`: add the closed range from `start` to `stop` to the list. -/
def rlistFree (space : Bool) (list : List Rlist) (start stop : ℕ) : Except Fault (List Rlist) :=
  match rlistFreeLoop space start stop list with
  | .ok (placed, scan) => .ok (if scan then rlistScan placed else placed)
  | .error fault => .error fault

/-- `rlist_alloc`: first fit. The location stored through `loc` is returned with the new list. -/
def rlistAlloc (size : ℕ) : List Rlist → Option (ℕ × List Rlist)
  | [] => none
  | rlp :: next =>
    if size ≤ unsigned (rlp.rlEnd + 2 ^ 32 - rlp.rlStart + 1) then
      let rlStart := unsigned (rlp.rlStart + size)
      some (rlp.rlStart, if rlStart > rlp.rlEnd then next else ⟨rlStart, rlp.rlEnd⟩ :: next)
    else
      match rlistAlloc size next with
      | some (loc, rest) => some (loc, rlp :: rest)
      | none => none

/-! ## The set of free numbers -/

/-- The first number after a segment. -/
def Rlist.limit (segment : Rlist) : ℕ := segment.rlEnd + 1

/-- The numbers a list holds. -/
def denote (list : List Rlist) : Set ℕ := cover Rlist.rlStart Rlist.limit list

/-- Segments are nonempty, sorted, pairwise disjoint and not adjacent, and no number reaches
`2 ^ 32 - 1`, so that the coalescing tests do not wrap. -/
structure Wellformed (list : List Rlist) : Prop where
  separated : Separated Rlist.rlStart Rlist.limit list
  bounded : ∀ segment ∈ list, segment.rlEnd < 2 ^ 32 - 1

theorem wellformed_nil : Wellformed [] := ⟨Separated.nil, by simp⟩

/-- The intermediate shape inside `rlist_free`: sorted, but possibly with adjacent segments. -/
structure Placed (list : List Rlist) : Prop where
  ordered : Ordered Rlist.rlStart Rlist.limit list
  bounded : ∀ segment ∈ list, segment.rlEnd < 2 ^ 32 - 1

theorem unsigned_of_lt {value : ℕ} (h : value < 2 ^ 32) : unsigned value = value :=
  Nat.mod_eq_of_lt h


theorem mem_denote {list : List Rlist} {number : ℕ} :
    number ∈ denote list ↔ ∃ s ∈ list, s.rlStart ≤ number ∧ number ≤ s.rlEnd := by
  simp [denote, mem_cover, Rlist.limit]

@[simp]
theorem denote_nil : denote [] = ∅ := cover_nil

theorem denote_cons (s : Rlist) (list : List Rlist) :
    denote (s :: list) = Set.Icc s.rlStart s.rlEnd ∪ denote list := by
  ext number
  simp [mem_denote]

theorem wellformed_cons {s : Rlist} {list : List Rlist} :
    Wellformed (s :: list) ↔ s.rlStart ≤ s.rlEnd ∧ s.rlEnd < 2 ^ 32 - 1 ∧
      (∀ t ∈ list, s.rlEnd + 1 < t.rlStart) ∧ Wellformed list := by
  constructor
  · rintro ⟨hsep, hbound⟩
    obtain ⟨hs, hbefore, hl⟩ := separated_cons.1 hsep
    rw [List.forall_mem_cons] at hbound
    exact ⟨Nat.lt_succ_iff.1 hs, hbound.1, hbefore, hl, hbound.2⟩
  · rintro ⟨hs, hbound, hbefore, hl⟩
    exact ⟨separated_cons.2 ⟨Nat.lt_succ_iff.2 hs, hbefore, hl.separated⟩,
      List.forall_mem_cons.2 ⟨hbound, hl.bounded⟩⟩

theorem placed_cons {s : Rlist} {list : List Rlist} :
    Placed (s :: list) ↔ s.rlStart ≤ s.rlEnd ∧ s.rlEnd < 2 ^ 32 - 1 ∧
      (∀ t ∈ list, s.rlEnd < t.rlStart) ∧ Placed list := by
  constructor
  · rintro ⟨hord, hbound⟩
    obtain ⟨hs, hbefore, hl⟩ := ordered_cons.1 hord
    rw [List.forall_mem_cons] at hbound
    exact ⟨Nat.lt_succ_iff.1 hs, hbound.1, hbefore, hl, hbound.2⟩
  · rintro ⟨hs, hbound, hbefore, hl⟩
    exact ⟨ordered_cons.2 ⟨Nat.lt_succ_iff.2 hs, hbefore, hl.ordered⟩,
      List.forall_mem_cons.2 ⟨hbound, hl.bounded⟩⟩

theorem Wellformed.placed {list : List Rlist} (h : Wellformed list) : Placed list :=
  ⟨h.separated.ordered, h.bounded⟩

/-! ## Freeing -/

/-- What the `loop:` leaves behind for a range disjoint from the list. The last component is the
frame condition the induction needs: nothing is placed below both the range and the list. -/
structure LoopResult (start stop : ℕ) (list placed : List Rlist) (scan : Bool) : Prop where
  sorted : Placed placed
  separated : scan = false → Wellformed placed
  denote_eq : denote placed = denote list ∪ Set.Icc start stop
  above : ∀ bound, bound < start → (∀ s ∈ list, bound < s.rlStart) →
    ∀ s ∈ placed, bound < s.rlStart

theorem disjoint_cons {start stop : ℕ} {s : Rlist} {list : List Rlist}
    (h : Disjoint (Set.Icc start stop) (denote (s :: list))) :
    Disjoint (Set.Icc start stop) (Set.Icc s.rlStart s.rlEnd) ∧
      Disjoint (Set.Icc start stop) (denote list) := by
  rw [denote_cons, Set.disjoint_union_right] at h
  exact h

/-- Two nonempty closed ranges without a common number lie one before the other. -/
theorem lt_or_lt_of_disjoint {a b c d : ℕ} (hab : a ≤ b) (hcd : c ≤ d)
    (h : Disjoint (Set.Icc a b) (Set.Icc c d)) : b < c ∨ d < a := by
  by_contra hne
  have hleft : max a c ∈ Set.Icc a b := by
    simp only [Set.mem_Icc]
    omega
  have hright : max a c ∈ Set.Icc c d := by
    simp only [Set.mem_Icc]
    omega
  exact Set.disjoint_left.1 h hleft hright

theorem rlistFreeLoop_spec (space : Bool) {start stop : ℕ} (hle : start ≤ stop)
    (hstop : stop < 2 ^ 32 - 1) (list : List Rlist) (hlist : Wellformed list)
    (hfree : Disjoint (Set.Icc start stop) (denote list)) :
    (∃ placed scan, rlistFreeLoop space start stop list = .ok (placed, scan) ∧
        LoopResult start stop list placed scan) ∨
      (space = false ∧ rlistFreeLoop space start stop list = .error .nullPointer) := by
  induction list with
  | nil =>
    cases space with
    | false => exact .inr ⟨rfl, rfl⟩
    | true =>
      have hnew : Wellformed [⟨start, stop⟩] :=
        wellformed_cons.2 ⟨hle, hstop, by simp, wellformed_nil⟩
      refine .inl ⟨[⟨start, stop⟩], false, rfl, hnew.placed, fun _ ↦ hnew, ?_, ?_⟩
      · simp [denote_cons]
      · simp
  | cons rlp next ih =>
    obtain ⟨hrlp, hbound, hbefore, hnext⟩ := wellformed_cons.1 hlist
    obtain ⟨hhead, htail⟩ := disjoint_cons hfree
    have hfront : ¬ (start ≥ rlp.rlStart ∧ start ≤ rlp.rlEnd) := by
      rcases lt_or_lt_of_disjoint hle hrlp hhead with h | h <;> omega
    have hback : ¬ (stop ≥ rlp.rlStart ∧ stop ≤ rlp.rlEnd) := by
      rcases lt_or_lt_of_disjoint hle hrlp hhead with h | h <;> omega
    have hstopSucc : unsigned (stop + 1) = stop + 1 := unsigned_of_lt (by omega)
    have hendSucc : unsigned (rlp.rlEnd + 1) = rlp.rlEnd + 1 := unsigned_of_lt (by omega)
    rw [rlistFreeLoop, if_neg hfront, if_neg hback, hstopSucc, hendSucc]
    by_cases hjoinFront : stop + 1 = rlp.rlStart
    · rw [if_pos hjoinFront]
      refine .inl ⟨_, _, rfl, ?_, by simp, ?_, ?_⟩
      · exact placed_cons.2 ⟨by simp; omega, hbound, fun t ht ↦ by
          have := hbefore t ht
          simp; omega, hnext.placed⟩
      · rw [denote_cons, denote_cons, Set.union_right_comm]
        congr 1
        ext number
        simp only [Set.mem_Icc, Set.mem_union]
        omega
      · intro bound hstart hall s hs
        rcases List.mem_cons.1 hs with rfl | hs'
        · exact hstart
        · exact hall s (List.mem_cons_of_mem _ hs')
    rw [if_neg hjoinFront]
    by_cases hbelow : stop < rlp.rlStart
    · rw [if_pos hbelow]
      have hnew : Wellformed (⟨start, stop⟩ :: rlp :: next) :=
        wellformed_cons.2 ⟨hle, hstop, fun t ht ↦ by
          rcases List.mem_cons.1 ht with rfl | ht'
          · simp; omega
          · have := hbefore t ht'
            simp; omega, hlist⟩
      refine .inl ⟨_, _, rfl, hnew.placed, fun _ ↦ hnew, ?_, ?_⟩
      · rw [denote_cons, Set.union_comm]
      · intro bound hstart hall s hs
        rcases List.mem_cons.1 hs with rfl | hs'
        · exact hstart
        · exact hall s hs'
    rw [if_neg hbelow]
    have hafter : rlp.rlEnd < start := by
      rcases lt_or_lt_of_disjoint hle hrlp hhead with h | h <;> omega
    by_cases hjoinBack : rlp.rlEnd + 1 = start
    · rw [if_pos hjoinBack]
      -- The grown segment stays below the rest because the range is disjoint from it.
      have hclear : ∀ t ∈ next, stop < t.rlStart := by
        intro t ht
        have hdisj : Disjoint (Set.Icc start stop) (Set.Icc t.rlStart t.rlEnd) :=
          htail.mono_right fun number hnumber ↦ mem_denote.2 ⟨t, ht, hnumber⟩
        have hne : t.rlStart ≤ t.rlEnd := Nat.lt_succ_iff.1 (hnext.separated.nonempty t ht)
        have := hbefore t ht
        rcases lt_or_lt_of_disjoint hle hne hdisj with h | h <;> omega
      refine .inl ⟨_, _, rfl, ?_, by simp, ?_, ?_⟩
      · exact placed_cons.2 ⟨by simp; omega, hstop, hclear, hnext.placed⟩
      · rw [denote_cons, denote_cons, Set.union_right_comm]
        congr 1
        ext number
        simp only [Set.mem_Icc, Set.mem_union]
        omega
      · intro bound hstart hall s hs
        rcases List.mem_cons.1 hs with rfl | hs'
        · exact hall rlp (List.mem_cons_self ..)
        · exact hall s (List.mem_cons_of_mem _ hs')
    rw [if_neg hjoinBack, if_pos hafter]
    rcases ih hnext htail with ⟨placed, scan, hloop, hresult⟩ | ⟨hspace, hloop⟩
    · rw [hloop]
      have hgap : ∀ t ∈ placed, rlp.rlEnd + 1 < t.rlStart :=
        hresult.above (rlp.rlEnd + 1) (by omega) hbefore
      refine .inl ⟨_, _, rfl, ?_, ?_, ?_, ?_⟩
      · exact placed_cons.2 ⟨hrlp, hbound, fun t ht ↦ Nat.lt_of_succ_lt (hgap t ht), hresult.sorted⟩
      · intro hscan
        exact wellformed_cons.2 ⟨hrlp, hbound, hgap, hresult.separated hscan⟩
      · rw [denote_cons, denote_cons, hresult.denote_eq, Set.union_assoc]
      · intro bound hstart hall s hs
        rcases List.mem_cons.1 hs with rfl | hs'
        · exact hall s (List.mem_cons_self ..)
        · exact hresult.above bound hstart (fun t ht ↦ hall t (List.mem_cons_of_mem _ ht)) s hs'
    · rw [hloop]
      exact .inr ⟨hspace, rfl⟩

/-- The scan turns a sorted list into a well-formed one holding the same numbers. -/
theorem rlistScanFrom_spec (lp : Rlist) (next : List Rlist) (h : Placed (lp :: next)) :
    Wellformed (rlistScanFrom lp next) ∧
      denote (rlistScanFrom lp next) = denote (lp :: next) ∧
      ∀ s ∈ rlistScanFrom lp next, lp.rlStart ≤ s.rlStart := by
  induction next generalizing lp with
  | nil =>
    obtain ⟨hlp, hbound, _, _⟩ := placed_cons.1 h
    exact ⟨wellformed_cons.2 ⟨hlp, hbound, by simp, wellformed_nil⟩, rfl, by simp [rlistScanFrom]⟩
  | cons lpn next ih =>
    obtain ⟨hlp, hbound, hbefore, hrest⟩ := placed_cons.1 h
    obtain ⟨hlpn, hboundNext, hbeforeNext, hnext⟩ := placed_cons.1 hrest
    have hlt : lp.rlEnd < lpn.rlStart := hbefore lpn (List.mem_cons_self ..)
    have hsucc : unsigned (lp.rlEnd + 1) = lp.rlEnd + 1 := unsigned_of_lt (by omega)
    rw [rlistScanFrom, hsucc]
    by_cases hjoin : lp.rlEnd + 1 = lpn.rlStart
    · rw [if_pos hjoin]
      have hmerged : Placed (⟨lp.rlStart, lpn.rlEnd⟩ :: next) :=
        placed_cons.2 ⟨by simp; omega, hboundNext, hbeforeNext, hnext⟩
      obtain ⟨hwf, hdenote, hmin⟩ := ih ⟨lp.rlStart, lpn.rlEnd⟩ hmerged
      refine ⟨hwf, ?_, hmin⟩
      rw [hdenote, denote_cons, denote_cons, denote_cons, ← Set.union_assoc]
      congr 1
      ext number
      simp only [Set.mem_Icc, Set.mem_union]
      omega
    · rw [if_neg hjoin]
      obtain ⟨hwf, hdenote, hmin⟩ := ih lpn hrest
      refine ⟨wellformed_cons.2 ⟨hlp, hbound, fun t ht ↦ ?_, hwf⟩, ?_, ?_⟩
      · have := hmin t ht
        omega
      · rw [denote_cons, hdenote, ← denote_cons]
      · intro s hs
        rcases List.mem_cons.1 hs with rfl | hs'
        · exact le_rfl
        · have := hmin s hs'
          omega

theorem rlistScan_spec {list : List Rlist} (h : Placed list) :
    Wellformed (rlistScan list) ∧ denote (rlistScan list) = denote list := by
  cases list with
  | nil => exact ⟨wellformed_nil, rfl⟩
  | cons head next =>
    obtain ⟨hwf, hdenote, _⟩ := rlistScanFrom_spec head next h
    exact ⟨hwf, hdenote⟩

/-- Freeing a range disjoint from the free numbers adds exactly that range; the only way it can
stop is the unchecked allocation at the tail. -/
theorem rlistFree_spec (space : Bool) {start stop : ℕ} (hle : start ≤ stop)
    (hstop : stop < 2 ^ 32 - 1) {list : List Rlist} (hlist : Wellformed list)
    (hfree : Disjoint (Set.Icc start stop) (denote list)) :
    (∃ list', rlistFree space list start stop = .ok list' ∧ Wellformed list' ∧
        denote list' = denote list ∪ Set.Icc start stop) ∨
      (space = false ∧ rlistFree space list start stop = .error .nullPointer) := by
  unfold rlistFree
  rcases rlistFreeLoop_spec space hle hstop list hlist hfree with
    ⟨placed, scan, hloop, hresult⟩ | ⟨hspace, hloop⟩
  · left
    rw [hloop]
    cases scan with
    | false => exact ⟨placed, rfl, hresult.separated rfl, hresult.denote_eq⟩
    | true =>
      obtain ⟨hwf, hdenote⟩ := rlistScan_spec hresult.sorted
      exact ⟨rlistScan placed, rfl, hwf, hdenote.trans hresult.denote_eq⟩
  · right
    rw [hloop]
    exact ⟨hspace, rfl⟩

/-! ## Allocating -/

theorem segment_size {s : Rlist} (hs : s.rlStart ≤ s.rlEnd) (hbound : s.rlEnd < 2 ^ 32 - 1) :
    unsigned (s.rlEnd + 2 ^ 32 - s.rlStart + 1) = s.rlEnd - s.rlStart + 1 := by
  unfold unsigned
  omega

/-- A successful allocation takes `size` numbers off the front of one segment. -/
structure AllocResult (size loc : ℕ) (list list' : List Rlist) : Prop where
  wellformed : Wellformed list'
  was_free : Set.Ico loc (loc + size) ⊆ denote list
  denote_eq : denote list' = denote list \ Set.Ico loc (loc + size)
  above : ∀ bound, (∀ s ∈ list, bound < s.rlStart) → ∀ s ∈ list', bound < s.rlStart

/-- The segments after the one allocated from hold none of the allocated numbers. -/
theorem disjoint_denote_of_before (stop : ℕ) {next : List Rlist}
    (hbefore : ∀ t ∈ next, stop < t.rlStart) {set : Set ℕ} (hset : ∀ number ∈ set, number ≤ stop) :
    Disjoint (denote next) set := by
  rw [Set.disjoint_left]
  intro number hnext hmem
  obtain ⟨t, ht, hlow, _⟩ := mem_denote.1 hnext
  have := hbefore t ht
  have := hset number hmem
  omega

theorem AllocResult.here {size : ℕ} (hsize : 1 ≤ size) {rlp : Rlist} {next : List Rlist}
    (hlist : Wellformed (rlp :: next)) (hfit : size ≤ rlp.rlEnd - rlp.rlStart + 1) :
    AllocResult size rlp.rlStart (rlp :: next)
      (if rlp.rlStart + size > rlp.rlEnd then next
        else ⟨rlp.rlStart + size, rlp.rlEnd⟩ :: next) := by
  obtain ⟨hrlp, hbound, hbefore, hnext⟩ := wellformed_cons.1 hlist
  have hclear : Disjoint (denote next) (Set.Ico rlp.rlStart (rlp.rlStart + size)) := by
    apply disjoint_denote_of_before rlp.rlEnd
    · intro t ht
      have := hbefore t ht
      omega
    · intro number hnumber
      have := hnumber.2
      omega
  have hsub : Set.Ico rlp.rlStart (rlp.rlStart + size) ⊆ Set.Icc rlp.rlStart rlp.rlEnd := by
    intro number hnumber
    simp only [Set.mem_Ico, Set.mem_Icc] at hnumber ⊢
    omega
  have hfree : Set.Ico rlp.rlStart (rlp.rlStart + size) ⊆ denote (rlp :: next) := by
    rw [denote_cons]
    exact hsub.trans Set.subset_union_left
  by_cases heaten : rlp.rlStart + size > rlp.rlEnd
  · rw [if_pos heaten]
    refine ⟨hnext, hfree, ?_, fun bound hall s hs ↦ hall s (List.mem_cons_of_mem _ hs)⟩
    have hall : Set.Icc rlp.rlStart rlp.rlEnd \ Set.Ico rlp.rlStart (rlp.rlStart + size) = ∅ := by
      refine Set.sdiff_eq_empty.2 fun number hnumber ↦ ?_
      simp only [Set.mem_Icc, Set.mem_Ico] at hnumber ⊢
      omega
    rw [denote_cons, Set.union_sdiff_distrib, hall, Set.empty_union, hclear.sdiff_eq_left]
  · rw [if_neg heaten]
    refine ⟨?_, hfree, ?_, ?_⟩
    · exact wellformed_cons.2 ⟨by simp; omega, hbound, hbefore, hnext⟩
    · have hrest : Set.Icc rlp.rlStart rlp.rlEnd \ Set.Ico rlp.rlStart (rlp.rlStart + size) =
          Set.Icc (rlp.rlStart + size) rlp.rlEnd := by
        ext number
        simp only [Set.mem_sdiff, Set.mem_Icc, Set.mem_Ico]
        omega
      rw [denote_cons, denote_cons, Set.union_sdiff_distrib, hrest, hclear.sdiff_eq_left]
    · intro bound hall s hs
      rcases List.mem_cons.1 hs with rfl | hs'
      · have := hall rlp (List.mem_cons_self ..)
        simp
        omega
      · exact hall s (List.mem_cons_of_mem _ hs')

theorem rlistAlloc_cons {size : ℕ} {rlp : Rlist} {next : List Rlist} :
    rlistAlloc size (rlp :: next) =
      if size ≤ unsigned (rlp.rlEnd + 2 ^ 32 - rlp.rlStart + 1) then
        let rlStart := unsigned (rlp.rlStart + size)
        some (rlp.rlStart, if rlStart > rlp.rlEnd then next else ⟨rlStart, rlp.rlEnd⟩ :: next)
      else
        match rlistAlloc size next with
        | some (loc, rest) => some (loc, rlp :: rest)
        | none => none :=
  rfl

theorem rlistAlloc_some {size : ℕ} (hsize : 1 ≤ size) {list : List Rlist} (hlist : Wellformed list)
    {loc : ℕ} {list' : List Rlist} (h : rlistAlloc size list = some (loc, list')) :
    AllocResult size loc list list' := by
  induction list generalizing list' with
  | nil => cases h
  | cons rlp next ih =>
    obtain ⟨hrlp, hbound, hbefore, hnext⟩ := wellformed_cons.1 hlist
    rw [rlistAlloc_cons, segment_size hrlp hbound] at h
    by_cases hfit : size ≤ rlp.rlEnd - rlp.rlStart + 1
    · rw [if_pos hfit, unsigned_of_lt (by omega)] at h
      obtain ⟨rfl, rfl⟩ := Prod.mk.inj (Option.some.inj h)
      exact AllocResult.here hsize hlist hfit
    · rw [if_neg hfit] at h
      cases hrest : rlistAlloc size next with
      | none => simp [hrest] at h
      | some found =>
        obtain ⟨loc', rest⟩ := found
        simp only [hrest, Option.some.injEq, Prod.mk.injEq] at h
        obtain ⟨rfl, rfl⟩ := h
        have hresult := ih hnext hrest
        have hgap : ∀ t ∈ rest, rlp.rlEnd + 1 < t.rlStart := hresult.above (rlp.rlEnd + 1) hbefore
        -- The allocated numbers are in `next`, so above the skipped segment.
        have hskip : Disjoint (Set.Icc rlp.rlStart rlp.rlEnd) (Set.Ico loc' (loc' + size)) := by
          apply Disjoint.mono_right hresult.was_free
          exact (disjoint_denote_of_before rlp.rlEnd (fun t ht ↦ Nat.lt_of_succ_lt (hbefore t ht))
            fun number hnumber ↦ hnumber.2).symm
        refine ⟨wellformed_cons.2 ⟨hrlp, hbound, hgap, hresult.wellformed⟩, ?_, ?_, ?_⟩
        · rw [denote_cons]
          exact hresult.was_free.trans Set.subset_union_right
        · rw [denote_cons, denote_cons, Set.union_sdiff_distrib, hskip.sdiff_eq_left,
            hresult.denote_eq]
        · intro bound hall s hs
          rcases List.mem_cons.1 hs with rfl | hs'
          · exact hall s (List.mem_cons_self ..)
          · exact hresult.above bound (fun t ht ↦ hall t (List.mem_cons_of_mem _ ht)) s hs'

/-- First fit refuses only when every segment is too short. -/
theorem rlistAlloc_none {size : ℕ} {list : List Rlist} (hlist : Wellformed list)
    (h : rlistAlloc size list = none) : ∀ s ∈ list, s.rlEnd - s.rlStart + 1 < size := by
  induction list with
  | nil => simp
  | cons rlp next ih =>
    obtain ⟨hrlp, hbound, _, hnext⟩ := wellformed_cons.1 hlist
    rw [rlistAlloc_cons, segment_size hrlp hbound] at h
    by_cases hfit : size ≤ rlp.rlEnd - rlp.rlStart + 1
    · rw [if_pos hfit] at h
      simp at h
    · rw [if_neg hfit] at h
      have hrest : rlistAlloc size next = none := by
        cases hrest : rlistAlloc size next with
        | none => rfl
        | some found => simp [hrest] at h
      exact List.forall_mem_cons.2 ⟨not_le.1 hfit, ih hnext hrest⟩

/-- An allocation succeeds exactly when the free numbers contain a run of the requested size:
the segments are not adjacent, so a run cannot straddle two of them. -/
theorem rlistAlloc_eq_none_iff {size : ℕ} (hsize : 1 ≤ size) {list : List Rlist}
    (hlist : Wellformed list) :
    rlistAlloc size list = none ↔ ¬ ∃ loc, Set.Ico loc (loc + size) ⊆ denote list := by
  constructor
  · rintro hnone ⟨loc, hrun⟩
    obtain ⟨s, hs, hlow, hhigh⟩ := hlist.separated.run_subset_one (by omega) hrun
    have := rlistAlloc_none hlist hnone s hs
    unfold Rlist.limit at hhigh
    omega
  · intro hno
    cases hresult : rlistAlloc size list with
    | none => rfl
    | some found =>
      obtain ⟨loc, list'⟩ := found
      exact absurd ⟨loc, (rlistAlloc_some hsize hlist hresult).was_free⟩ hno

/-! ## Runs -/

/-- One call on the list together with its outcome. -/
inductive Event
  | free (start stop : ℕ)
  | alloc (size loc : ℕ)
  | refuse (size : ℕ)

/-- The numbers a history of calls, latest first, leaves free. -/
def freeNumbers : List Event → Set ℕ
  | [] => ∅
  | .free start stop :: past => freeNumbers past ∪ Set.Icc start stop
  | .alloc size loc :: past => freeNumbers past \ Set.Ico loc (loc + size)
  | .refuse _ :: past => freeNumbers past

/-- The numbers handed out by a history of calls and not freed since. -/
def heldNumbers : List Event → Set ℕ
  | [] => ∅
  | .free start stop :: past => heldNumbers past \ Set.Icc start stop
  | .alloc size loc :: past => heldNumbers past ∪ Set.Ico loc (loc + size)
  | .refuse _ :: past => heldNumbers past

/-- Runs from the empty list: ranges freed are disjoint from the current free set and stay below
`2 ^ 32 - 1`, and at least one number is asked for. -/
inductive Run : List Event → List Rlist → Prop
  | init : Run [] []
  | free {past list list' start stop} (space : Bool) : Run past list →
      start ≤ stop → stop < 2 ^ 32 - 1 → Disjoint (Set.Icc start stop) (denote list) →
      rlistFree space list start stop = .ok list' → Run (.free start stop :: past) list'
  | alloc {past list list' size loc} : Run past list → 1 ≤ size →
      rlistAlloc size list = some (loc, list') → Run (.alloc size loc :: past) list'
  | refuse {past list size} : Run past list → 1 ≤ size → rlistAlloc size list = none →
      Run (.refuse size :: past) list

/-- Every run keeps the list well formed and in step with the abstract set of free numbers. -/
theorem Run.refines {past : List Event} {list : List Rlist} (h : Run past list) :
    Wellformed list ∧ denote list = freeNumbers past := by
  induction h with
  | init => exact ⟨wellformed_nil, denote_nil⟩
  | free space _ hle hstop hdisj hok ih =>
    obtain ⟨hwf, hdenote⟩ := ih
    rcases rlistFree_spec space hle hstop hwf hdisj with ⟨_, hok', hwf', hdenote'⟩ | ⟨_, herr⟩
    · rw [hok] at hok'
      obtain rfl := Except.ok.inj hok'
      exact ⟨hwf', by rw [hdenote', hdenote, freeNumbers]⟩
    · simp [hok] at herr
  | alloc _ hsize hsome ih =>
    obtain ⟨hwf, hdenote⟩ := ih
    have hresult := rlistAlloc_some hsize hwf hsome
    exact ⟨hresult.wellformed, by rw [hresult.denote_eq, hdenote, freeNumbers]⟩
  | refuse _ _ _ ih => exact ih

/-- Nothing handed out and not yet returned is free. -/
theorem Run.disjoint_held {past : List Event} {list : List Rlist} (h : Run past list) :
    Disjoint (freeNumbers past) (heldNumbers past) := by
  induction h with
  | init => simp [freeNumbers]
  | free =>
    rename_i ih
    rw [freeNumbers, heldNumbers, Set.disjoint_union_left]
    exact ⟨ih.mono_right Set.sdiff_subset, Set.disjoint_sdiff_right⟩
  | alloc =>
    rename_i ih
    rw [freeNumbers, heldNumbers, Set.disjoint_union_right]
    exact ⟨ih.mono_left Set.sdiff_subset, Set.disjoint_sdiff_left⟩
  | refuse _ _ _ ih => exact ih

/-- No segment below the range is extended by it: none ends just below it, and none begins at zero
when the range ends at the last number, after which the source counts on from zero. -/
def Unmet (list : List Rlist) (start stop : ℕ) : Prop :=
  ∀ s ∈ list, s.rlEnd < start → s.rlEnd + 1 ≠ start ∧ unsigned (stop + 1) ≠ s.rlStart

instance (list : List Rlist) (start stop : ℕ) : Decidable (Unmet list start stop) :=
  inferInstanceAs (Decidable (∀ s ∈ list, _))

/-- The range shares a number with the list. -/
def Shares (list : List Rlist) (start stop : ℕ) : Prop :=
  ∃ number, start ≤ number ∧ number ≤ stop ∧ number ∈ denote list

/-- At the first segment that does not lie below the range the walk panics. -/
theorem rlistFreeLoop_overlap {s : Rlist} {list : List Rlist} {start stop : ℕ} (space : Bool)
    (hstart : start ≤ s.rlEnd) (hbound : s.rlEnd < 2 ^ 32) (hstop : stop < 2 ^ 32)
    (hmeet : s.rlStart ≤ stop) :
    ∃ message, rlistFreeLoop space start stop (s :: list) = .error (.panic message) := by
  have hnext : unsigned (stop + 1) ≠ s.rlStart ∨ s.rlStart ≤ start := by
    unfold unsigned
    omega
  have hlast : unsigned (s.rlEnd + 1) ≠ start ∨ stop ≤ s.rlEnd := by
    unfold unsigned
    omega
  unfold rlistFreeLoop
  split_ifs with hfront htail hbefore hbelow hbehind habove
  · exact ⟨_, rfl⟩
  · exact ⟨_, rfl⟩
  · omega
  · omega
  · omega
  · omega
  · exact ⟨_, rfl⟩

/-- Below the range a segment is passed by, if it is not extended. -/
theorem rlistFreeLoop_below {s : Rlist} {start stop : ℕ} (list : List Rlist) (space : Bool)
    (hs : s.rlStart ≤ s.rlEnd) (hbelow : s.rlEnd < start) (hle : start ≤ stop)
    (hstart : start < 2 ^ 32) :
    (s.rlEnd + 1 ≠ start ∧ unsigned (stop + 1) ≠ s.rlStart →
      rlistFreeLoop space start stop (s :: list) =
        (rlistFreeLoop space start stop list).map fun result ↦ (s :: result.1, result.2)) ∧
      (¬ (s.rlEnd + 1 ≠ start ∧ unsigned (stop + 1) ≠ s.rlStart) →
        ∃ placed, rlistFreeLoop space start stop (s :: list) = .ok (placed, true)) := by
  have hlast : unsigned (s.rlEnd + 1) = s.rlEnd + 1 := unsigned_of_lt (by omega)
  rw [rlistFreeLoop, hlast, if_neg (by omega), if_neg (by omega)]
  constructor
  · rintro ⟨hbehind, hnext⟩
    rw [if_neg hnext, if_neg (by omega), if_neg hbehind, if_pos hbelow]
    cases rlistFreeLoop space start stop list with
    | error fault => rfl
    | ok result => rfl
  · intro hmet
    by_cases hnext : unsigned (stop + 1) = s.rlStart
    · exact ⟨_, if_pos hnext⟩
    · have hbehind : s.rlEnd + 1 = start := by
        by_contra hbehind
        exact hmet ⟨hbehind, hnext⟩
      rw [if_neg hnext, if_neg (by omega), if_pos hbehind]
      exact ⟨_, rfl⟩

/-- Freeing what is free panics exactly if the range extends no segment that it lies above. -/
theorem rlist_free_twice {list : List Rlist}
    (hsep : Separated Rlist.rlStart Rlist.limit list) (hbound : ∀ s ∈ list, s.rlEnd < 2 ^ 32)
    {start stop : ℕ} (hle : start ≤ stop) (hstop : stop < 2 ^ 32) (hshares : Shares list start stop)
    (space : Bool) :
    (∃ message, rlistFree space list start stop = .error (.panic message)) ↔
      Unmet list start stop := by
  have hloop : (∃ message, rlistFreeLoop space start stop list = .error (.panic message)) ↔
      Unmet list start stop := by
    obtain ⟨number, hlo, hhi, hmem⟩ := hshares
    induction list with
    | nil =>
      rw [denote_nil] at hmem
      exact absurd hmem (Set.notMem_empty number)
    | cons s list ih =>
      obtain ⟨hs, habove, hrest⟩ := separated_cons.1 hsep
      have hnonempty : s.rlStart ≤ s.rlEnd := Nat.lt_succ_iff.1 hs
      have hlater : ∀ t ∈ list, s.rlEnd + 1 < t.rlStart := habove
      rw [denote_cons] at hmem
      by_cases hbelow : s.rlEnd < start
      · have hmem' : number ∈ denote list := by
          refine hmem.resolve_left fun hin ↦ ?_
          exact absurd (hlo.trans hin.2) (not_le.2 hbelow)
        have hiff := ih hrest (fun t ht ↦ hbound t (List.mem_cons_of_mem s ht)) hmem'
        have hunmet : Unmet (s :: list) start stop ↔
            (s.rlEnd + 1 ≠ start ∧ unsigned (stop + 1) ≠ s.rlStart) ∧ Unmet list start stop := by
          unfold Unmet
          rw [List.forall_mem_cons]
          exact and_congr_left fun _ ↦ ⟨fun h ↦ h hbelow, fun h _ ↦ h⟩
        rw [hunmet, ← hiff]
        obtain ⟨hpass, hextend⟩ := rlistFreeLoop_below list space hnonempty hbelow hle
          (hle.trans_lt hstop)
        by_cases hkept : s.rlEnd + 1 ≠ start ∧ unsigned (stop + 1) ≠ s.rlStart
        · rw [hpass hkept]
          refine (iff_of_eq ?_).trans (and_iff_right hkept).symm
          cases rlistFreeLoop space start stop list with
          | error fault => rfl
          | ok result => simp [Except.map]
        · obtain ⟨placed, hplaced⟩ := hextend hkept
          rw [hplaced]
          exact iff_of_false (by simp) fun h ↦ hkept h.1
      · have hsame : s.rlStart ≤ number := by
          rcases hmem with hin | hin
          · exact hin.1
          · obtain ⟨t, ht, htlo, -⟩ := mem_denote.1 hin
            exact hnonempty.trans ((Nat.le_succ _).trans ((hlater t ht).le.trans htlo))
        refine iff_of_true (rlistFreeLoop_overlap space (not_lt.1 hbelow)
          (hbound s (List.mem_cons_self ..)) hstop (hsame.trans hhi)) fun t ht hlt ↦ ?_
        rcases List.mem_cons.1 ht with rfl | ht
        · exact absurd hlt hbelow
        · have hafter := hlater t ht
          have hne : t.rlStart ≤ t.rlEnd := Nat.lt_succ_iff.1 (hrest.nonempty t ht)
          omega
  rw [← hloop]
  unfold rlistFree
  cases rlistFreeLoop space start stop list with
  | error fault => simp
  | ok result => simp

/-- What lies in a segment is not freed twice. -/
theorem rlist_free_twice_inside :
    ∃ message, rlistFree true [⟨0, 3⟩, ⟨6, 9⟩] 6 7 = .error (.panic message) := by
  have hshares : Shares [⟨0, 3⟩, ⟨6, 9⟩] 6 7 := ⟨6, by decide, by decide, by simp [denote_cons]⟩
  refine (rlist_free_twice ?_ (by decide) (by decide) (by decide) hshares true).2 (by decide)
  exact ⟨by decide, by decide⟩

/-- A range that begins just behind a segment is joined to it, though it ends in the next. -/
theorem rlistFree_misses : Separated Rlist.rlStart Rlist.limit [⟨0, 3⟩, ⟨6, 9⟩] ∧
    Shares [⟨0, 3⟩, ⟨6, 9⟩] 4 7 ∧
      rlistFree true [⟨0, 3⟩, ⟨6, 9⟩] 4 7 = .ok [⟨0, 7⟩, ⟨6, 9⟩] :=
  ⟨⟨by decide, by decide⟩, ⟨6, by decide, by decide, by simp [denote_cons]⟩, rfl⟩

end Bsd386.Kern.Subr
