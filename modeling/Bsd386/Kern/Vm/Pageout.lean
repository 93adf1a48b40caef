import Mathlib.Algebra.Ring.Int.Defs
import Mathlib.Data.List.Basic
import Mathlib.Tactic.SplitIfs

/-!
# Page deactivation

The second half of `vm_pageout_scan` of `kern/vm/pageout.c` computes how many active pages are to be
deactivated and takes them from the active queue. The first half gives the pages that were freed and
the pageouts that are pending. The differences are numbers of type `int`, and `max` is a function of
unsigned numbers.
-/

namespace Bsd386.Kern.Vm.Pageout

/-- The value that an `int` keeps. -/
def int (i : ℤ) : ℤ := i.bmod 4294967296

/-- The value that a `u_int` keeps. -/
def uint (i : ℤ) : ℤ := i % 4294967296

/-- `max`, with its result kept by an `int`. -/
def umax (i j : ℤ) : ℤ := int (if uint j < uint i then uint i else uint j)

/-- The page counters, `vm_pages_needed`, and `freed` and `pending` of the scan. -/
structure Counters where
  vmPagesNeeded : ℤ
  vmPageFreeCount : ℤ
  vmPageFreeMin : ℤ
  vmPageFreeTarget : ℤ
  vmPageInactiveCount : ℤ
  vmPageInactiveTarget : ℤ
  freed : ℤ
  pending : ℤ

/-- The free pages with the pending ones. -/
def Counters.coming (c : Counters) : ℤ := int (c.vmPageFreeCount + c.pending)

/-- The inactive pages without the pending ones. -/
def Counters.staying (c : Counters) : ℤ := int (c.vmPageInactiveCount - c.pending)

/-- `deficit` after its first assignment. -/
def Counters.needed (c : Counters) : ℤ := umax (int (c.vmPagesNeeded - c.freed)) 1

/-- `deficit` after the test of the free minimum. -/
def Counters.raiseMin (c : Counters) (deficit : ℤ) : ℤ :=
  if c.vmPageFreeCount < c.vmPageFreeMin then
    umax (int (c.vmPageFreeMin - c.vmPageFreeCount)) deficit
  else deficit

/-- `deficit` after the test of the free target. -/
def Counters.raiseFree (c : Counters) (deficit : ℤ) : ℤ :=
  if c.coming < c.vmPageFreeTarget then umax (int (c.vmPageFreeTarget - c.coming)) deficit
  else deficit

/-- `deficit` after the test of the inactive target. -/
def Counters.raiseInactive (c : Counters) (deficit : ℤ) : ℤ :=
  if c.staying < c.vmPageInactiveTarget then
    umax (int (c.vmPageInactiveTarget - c.staying)) deficit
  else deficit

/-- `deficit`. -/
def Counters.deficit (c : Counters) : ℤ :=
  c.raiseInactive (c.raiseFree (c.raiseMin c.needed))

/-- A page of the active queue, which is neither inactive nor wired, with whether it was
referenced. -/
structure Page (P : Type) where
  addr : P
  referenced : Bool

/-- What a loop over the active queue leaves of it, the pages it deactivates, and `deficit`. -/
structure Scan (P : Type) where
  active : List (Page P)
  deactivated : List P
  deficit : ℤ

variable {P : Type}

/-- The loop over the active queue. A queue that becomes empty has no next page either. -/
def scanLoop : List (Page P) → ℤ → Scan P
  | [], deficit => ⟨[], [], deficit⟩
  | m :: next, deficit =>
    if m.referenced then
      { scanLoop next deficit with
        active := { m with referenced := false } :: (scanLoop next deficit).active }
    else if 0 < deficit then
      { scanLoop next (deficit - 1) with
        deactivated := m.addr :: (scanLoop next (deficit - 1)).deactivated }
    else
      { scanLoop next (deficit - 1) with
        active := { m with referenced := false } :: (scanLoop next (deficit - 1)).active }

/-- The loop that takes pages from the head of the active queue. -/
def remedyLoop : List (Page P) → ℤ → Scan P
  | [], deficit => ⟨[], [], deficit⟩
  | m :: next, deficit =>
    if 0 < deficit then
      { remedyLoop next (deficit - 1) with
        deactivated := m.addr :: (remedyLoop next (deficit - 1)).deactivated }
    else ⟨m :: next, [], deficit⟩

/-- The pages that the scan deactivates. -/
def deactivated (c : Counters) (active : List (Page P)) : List P :=
  (scanLoop active c.deficit).deactivated ++
    (remedyLoop (scanLoop active c.deficit).active (scanLoop active c.deficit).deficit).deactivated

/-- Counters that are numbers of pages. -/
structure Counters.Counts (c : Counters) : Prop where
  needed_low : -2147483648 ≤ c.vmPagesNeeded
  needed_high : c.vmPagesNeeded < 2147483648
  free_low : 0 ≤ c.vmPageFreeCount
  free_high : c.vmPageFreeCount < 2147483648
  min_low : 0 ≤ c.vmPageFreeMin
  min_high : c.vmPageFreeMin < 2147483648
  target_low : 0 ≤ c.vmPageFreeTarget
  target_high : c.vmPageFreeTarget < 2147483648
  inactive_low : 0 ≤ c.vmPageInactiveCount
  inactive_high : c.vmPageInactiveCount < 2147483648
  inactiveTarget_low : 0 ≤ c.vmPageInactiveTarget
  inactiveTarget_high : c.vmPageInactiveTarget < 2147483648
  freed_low : 0 ≤ c.freed
  freed_high : c.freed < 2147483648
  pending_low : 0 ≤ c.pending
  pending_high : c.pending < 2147483648

/-- The deficit is positive and covers each shortfall, and an active page is deactivated if there
is one. -/
structure Counters.Demands (c : Counters) : Prop where
  pos : 1 ≤ c.deficit
  needed : c.vmPagesNeeded - c.freed ≤ c.deficit
  freeMin : c.vmPageFreeMin - c.vmPageFreeCount ≤ c.deficit
  freeTarget : c.vmPageFreeTarget - (c.vmPageFreeCount + c.pending) ≤ c.deficit
  inactiveTarget : c.vmPageInactiveTarget - (c.vmPageInactiveCount - c.pending) ≤ c.deficit
  deactivates : ∀ (P : Type) (active : List (Page P)), active ≠ [] → deactivated c active ≠ []

/-- No difference is a negative `int`. -/
structure Counters.Regular (c : Counters) : Prop where
  needed : 0 ≤ int (c.vmPagesNeeded - c.freed)
  freeTarget : c.coming < c.vmPageFreeTarget → 0 ≤ int (c.vmPageFreeTarget - c.coming)
  inactiveTarget :
    c.staying < c.vmPageInactiveTarget → 0 ≤ int (c.vmPageInactiveTarget - c.staying)

/-! ## The deficit -/

variable {c : Counters} {i j : ℤ}

theorem int_bounds (i : ℤ) : -2147483648 ≤ int i ∧ int i < 2147483648 := by
  unfold int
  exact ⟨Int.le_bmod (by decide), Int.bmod_lt (by decide)⟩

theorem int_eq (hlow : -2147483648 ≤ i) (hhigh : i < 2147483648) : int i = i := by
  unfold int
  rw [Int.bmod_def]
  split_ifs <;> omega

theorem le_int (hhigh : i < 2147483648) : i ≤ int i := by
  by_cases hlow : -2147483648 ≤ i
  · exact Int.le_of_eq (int_eq hlow hhigh).symm
  · have hbounds := int_bounds i
    omega

theorem int_neg (hlow : 2147483648 ≤ i) (hhigh : i < 4294967296) : int i < 0 := by
  unfold int
  rw [Int.bmod_def]
  split_ifs <;> omega

theorem umax_eq (hlow : -2147483648 ≤ i) (hhigh : i < 2147483648) (hlow' : -2147483648 ≤ j)
    (hhigh' : j < 2147483648) : umax i j = if uint j < uint i then i else j := by
  have hfirst : int (uint i) = i := by
    unfold int uint
    rw [Int.bmod_def]
    split_ifs <;> omega
  have hsecond : int (uint j) = j := by
    unfold int uint
    rw [Int.bmod_def]
    split_ifs <;> omega
  unfold umax
  split_ifs
  · exact hfirst
  · exact hsecond

/-- Among numbers that are not negative, `umax` is the maximum. -/
theorem umax_nonneg (hi : 0 ≤ i) (hhigh : i < 2147483648) (hj : 0 ≤ j)
    (hhigh' : j < 2147483648) : i ≤ umax i j ∧ j ≤ umax i j ∧ umax i j < 2147483648 := by
  rw [umax_eq (by omega) hhigh (by omega) hhigh']
  unfold uint
  split_ifs <;> omega

/-- A negative number outdoes all others. -/
theorem umax_neg (hlow : -2147483648 ≤ i) (hhigh : i < 2147483648) (hlow' : -2147483648 ≤ j)
    (hhigh' : j < 2147483648) (hneg : i < 0 ∨ j < 0) :
    umax i j < 0 ∧ -2147483648 ≤ umax i j := by
  rw [umax_eq hlow hhigh hlow' hhigh']
  unfold uint
  split_ifs <;> omega

/-- A raised deficit, by a shortfall that is tested. -/
def raise (tested : Bool) (shortfall deficit : ℤ) : ℤ :=
  if tested then umax shortfall deficit else deficit

/-- A deficit that is negative stays so, and a negative shortfall makes it so. -/
theorem raise_neg (tested : Bool) (shortfall : ℤ) {deficit : ℤ} (hlow : -2147483648 ≤ deficit)
    (hhigh : deficit < 2147483648)
    (hneg : deficit < 0 ∨ tested = true ∧ int shortfall < 0) :
    raise tested (int shortfall) deficit < 0 ∧
      -2147483648 ≤ raise tested (int shortfall) deficit := by
  have hbounds := int_bounds shortfall
  unfold raise
  split_ifs with htested
  · exact umax_neg hbounds.1 hbounds.2 hlow hhigh (by omega)
  · exact ⟨hneg.resolve_right fun h ↦ htested h.1, hlow⟩

/-- A deficit that is not negative becomes the larger one of it and the shortfall. -/
theorem raise_nonneg (tested : Bool) (shortfall : ℤ) {deficit : ℤ} (hnonneg : 0 ≤ deficit)
    (hhigh : deficit < 2147483648) (hshort : tested = true → 0 ≤ int shortfall) :
    deficit ≤ raise tested (int shortfall) deficit ∧
      (tested = true → int shortfall ≤ raise tested (int shortfall) deficit) ∧
      raise tested (int shortfall) deficit < 2147483648 := by
  have hbounds := int_bounds shortfall
  unfold raise
  split_ifs with htested
  · have hmax := umax_nonneg (hshort htested) hbounds.2 hnonneg hhigh
    exact ⟨hmax.2.1, fun _ ↦ hmax.1, hmax.2.2⟩
  · exact ⟨Int.le_refl _, fun h ↦ absurd h htested, hhigh⟩

theorem Counters.raiseMin_eq (c : Counters) (deficit : ℤ) :
    c.raiseMin deficit = raise (decide (c.vmPageFreeCount < c.vmPageFreeMin))
      (int (c.vmPageFreeMin - c.vmPageFreeCount)) deficit := by
  unfold Counters.raiseMin raise
  simp only [decide_eq_true_eq]

theorem Counters.raiseFree_eq (c : Counters) (deficit : ℤ) :
    c.raiseFree deficit = raise (decide (c.coming < c.vmPageFreeTarget))
      (int (c.vmPageFreeTarget - c.coming)) deficit := by
  unfold Counters.raiseFree raise
  simp only [decide_eq_true_eq]

theorem Counters.raiseInactive_eq (c : Counters) (deficit : ℤ) :
    c.raiseInactive deficit = raise (decide (c.staying < c.vmPageInactiveTarget))
      (int (c.vmPageInactiveTarget - c.staying)) deficit := by
  unfold Counters.raiseInactive raise
  simp only [decide_eq_true_eq]

theorem Counters.Counts.tested_min (hcounts : c.Counts)
    (htest : c.vmPageFreeCount < c.vmPageFreeMin) :
    int (c.vmPageFreeMin - c.vmPageFreeCount) = c.vmPageFreeMin - c.vmPageFreeCount := by
  have hlow := hcounts.free_low
  have hhigh := hcounts.min_high
  exact int_eq (by omega) (by omega)

/-- The deficit of counters without a negative difference. -/
theorem Counters.Regular.deficit (hcounts : c.Counts) (hregular : c.Regular) :
    1 ≤ c.deficit ∧ int (c.vmPagesNeeded - c.freed) ≤ c.deficit ∧
      (c.vmPageFreeCount < c.vmPageFreeMin →
        c.vmPageFreeMin - c.vmPageFreeCount ≤ c.deficit) ∧
      (c.coming < c.vmPageFreeTarget → int (c.vmPageFreeTarget - c.coming) ≤ c.deficit) ∧
      (c.staying < c.vmPageInactiveTarget →
        int (c.vmPageInactiveTarget - c.staying) ≤ c.deficit) := by
  have hbounds := int_bounds (c.vmPagesNeeded - c.freed)
  have hfirst : int (c.vmPagesNeeded - c.freed) ≤ c.needed ∧ 1 ≤ c.needed ∧
      c.needed < 2147483648 :=
    umax_nonneg hregular.needed hbounds.2 (by decide) (by decide)
  have hmin := raise_nonneg (decide (c.vmPageFreeCount < c.vmPageFreeMin))
    (c.vmPageFreeMin - c.vmPageFreeCount) (by omega : 0 ≤ c.needed) hfirst.2.2
    (fun htest ↦ by
      rw [decide_eq_true_eq] at htest
      rw [hcounts.tested_min htest]
      omega)
  rw [← c.raiseMin_eq, decide_eq_true_eq] at hmin
  have hfree := raise_nonneg (decide (c.coming < c.vmPageFreeTarget))
    (c.vmPageFreeTarget - c.coming) (by omega : 0 ≤ c.raiseMin c.needed) hmin.2.2
    (fun htest ↦ hregular.freeTarget (of_decide_eq_true htest))
  rw [← c.raiseFree_eq, decide_eq_true_eq] at hfree
  have hinactive := raise_nonneg (decide (c.staying < c.vmPageInactiveTarget))
    (c.vmPageInactiveTarget - c.staying)
    (by omega : 0 ≤ c.raiseFree (c.raiseMin c.needed)) hfree.2.2
    (fun htest ↦ hregular.inactiveTarget (of_decide_eq_true htest))
  rw [← c.raiseInactive_eq, decide_eq_true_eq] at hinactive
  unfold Counters.deficit
  refine ⟨by omega, by omega, fun htest ↦ ?_, fun htest ↦ ?_, hinactive.2.1⟩
  · have hraised := hmin.2.1 htest
    rw [hcounts.tested_min htest] at hraised
    omega
  · have hraised := hfree.2.1 htest
    omega

/-- A negative difference makes the deficit negative. -/
theorem Counters.deficit_neg (hregular : ¬ c.Regular) :
    c.deficit < 0 := by
  have hbounds := int_bounds (c.vmPagesNeeded - c.freed)
  have hneg : int (c.vmPagesNeeded - c.freed) < 0 ∨
      (c.coming < c.vmPageFreeTarget ∧ int (c.vmPageFreeTarget - c.coming) < 0) ∨
      (c.staying < c.vmPageInactiveTarget ∧ int (c.vmPageInactiveTarget - c.staying) < 0) := by
    by_contra hnone
    exact hregular ⟨by omega, by omega, by omega⟩
  have hneeded : -2147483648 ≤ c.needed ∧ c.needed < 2147483648 := int_bounds _
  have hmin : -2147483648 ≤ c.raiseMin c.needed ∧ c.raiseMin c.needed < 2147483648 := by
    unfold Counters.raiseMin
    split_ifs
    · exact int_bounds _
    · exact hneeded
  have hfree : -2147483648 ≤ c.raiseFree (c.raiseMin c.needed) ∧
      c.raiseFree (c.raiseMin c.needed) < 2147483648 := by
    unfold Counters.raiseFree
    split_ifs
    · exact int_bounds _
    · exact hmin
  unfold Counters.deficit
  rw [c.raiseInactive_eq]
  refine (raise_neg _ _ hfree.1 hfree.2 ?_).1
  rw [decide_eq_true_eq]
  by_cases hlast : c.staying < c.vmPageInactiveTarget ∧
      int (c.vmPageInactiveTarget - c.staying) < 0
  · exact Or.inr hlast
  · left
    rw [c.raiseFree_eq]
    refine (raise_neg _ _ hmin.1 hmin.2 ?_).1
    rw [decide_eq_true_eq]
    by_cases hcoming : c.coming < c.vmPageFreeTarget ∧ int (c.vmPageFreeTarget - c.coming) < 0
    · exact Or.inr hcoming
    · left
      have hfirst : int (c.vmPagesNeeded - c.freed) < 0 := by omega
      rw [c.raiseMin_eq]
      exact (raise_neg _ _ hneeded.1 hneeded.2 (Or.inl
        (umax_neg hbounds.1 hbounds.2 (by decide) (by decide) (Or.inl hfirst)).1)).1

/-- The shortfalls are covered by what the tests see of them. -/
theorem Counters.Regular.demands (hcounts : c.Counts) (hregular : c.Regular) :
    c.vmPagesNeeded - c.freed ≤ c.deficit ∧
      c.vmPageFreeMin - c.vmPageFreeCount ≤ c.deficit ∧
      c.vmPageFreeTarget - (c.vmPageFreeCount + c.pending) ≤ c.deficit ∧
      c.vmPageInactiveTarget - (c.vmPageInactiveCount - c.pending) ≤ c.deficit := by
  obtain ⟨hpos, hneeded, hmin, hfree, hinactive⟩ := hregular.deficit hcounts
  have hregular' := hregular.inactiveTarget
  obtain ⟨-, hneedHigh, hfreeLow, hfreeHigh, -, hminHigh, -, htargetHigh, hinactiveLow,
    hinactiveHigh, -, hgoalHigh, hfreedLow, hfreedHigh, hpendingLow, hpendingHigh⟩ := hcounts
  have hstaying : c.staying = c.vmPageInactiveCount - c.pending := int_eq (by omega) (by omega)
  rw [hstaying] at hinactive hregular'
  refine ⟨?_, by omega, ?_, ?_⟩
  · have hle : c.vmPagesNeeded - c.freed ≤ int (c.vmPagesNeeded - c.freed) := le_int (by omega)
    omega
  · by_cases hsmall : c.vmPageFreeCount + c.pending < 2147483648
    · have hcoming : c.coming = c.vmPageFreeCount + c.pending := int_eq (by omega) hsmall
      rw [hcoming] at hfree
      have hle := le_int (i := c.vmPageFreeTarget - (c.vmPageFreeCount + c.pending)) (by omega)
      omega
    · omega
  · by_cases htest : c.vmPageInactiveCount - c.pending < c.vmPageInactiveTarget
    · have hshort := hregular' htest
      by_cases hsmall :
          c.vmPageInactiveTarget - (c.vmPageInactiveCount - c.pending) < 2147483648
      · have hle := le_int hsmall
        have hcovers := hinactive htest
        omega
      · have hneg := int_neg (Int.not_lt.mp hsmall) (by omega)
        omega
    · omega

/-! ## The loops -/

/-- Together the loops take as many pages from the queue as the deficit asks for. -/
theorem remedyLoop_length (active : List (Page P)) (deficit : ℤ) :
    (remedyLoop active deficit).deactivated.length = min deficit.toNat active.length := by
  induction active generalizing deficit with
  | nil => exact (Nat.min_zero _).symm
  | cons m next ih =>
    rw [remedyLoop]
    split_ifs with hpos
    · rw [List.length_cons, ih, List.length_cons]
      omega
    · rw [List.length_nil]
      omega

theorem scanLoop_length (active : List (Page P)) (deficit : ℤ) :
    (scanLoop active deficit).deactivated.length ≤ deficit.toNat ∧
      (scanLoop active deficit).active.length + (scanLoop active deficit).deactivated.length =
        active.length ∧
      (scanLoop active deficit).deficit.toNat =
        deficit.toNat - (scanLoop active deficit).deactivated.length := by
  induction active generalizing deficit with
  | nil => exact ⟨Nat.zero_le _, rfl, rfl⟩
  | cons m next ih =>
    rw [scanLoop]
    split_ifs with hreferenced hpos
    · have hnext := ih deficit
      dsimp only [List.length_cons]
      omega
    · have hnext := ih (deficit - 1)
      dsimp only [List.length_cons]
      omega
    · have hnext := ih (deficit - 1)
      dsimp only [List.length_cons]
      omega

theorem deactivated_length (c : Counters) (active : List (Page P)) :
    (deactivated c active).length = min c.deficit.toNat active.length := by
  have hscan := scanLoop_length active c.deficit
  unfold deactivated
  rw [List.length_append, remedyLoop_length]
  omega

/-- The scan demands what it tests for exactly when no difference is a negative `int`, as it is when
more pages were freed than are needed. -/
theorem deficits_exact (hcounts : c.Counts) : c.Demands ↔ c.Regular := by
  constructor
  · intro hdemands
    by_contra hregular
    have hneg := c.deficit_neg hregular
    have hpos := hdemands.pos
    omega
  · intro hregular
    have hpos := (hregular.deficit hcounts).1
    obtain ⟨hneeded, hmin, hfree, hinactive⟩ := hregular.demands hcounts
    refine ⟨hpos, hneeded, hmin, hfree, hinactive, fun P active hactive hnone ↦ ?_⟩
    have hlength := deactivated_length c active
    have hsome := List.length_pos_iff.mpr hactive
    rw [hnone, List.length_nil] at hlength
    omega

/-- Counters with twelve needed pages, of which four were freed. -/
def needing : Counters := ⟨12, 30, 40, 54, 20, 80, 4, 2⟩

/-- The counters of a scan that frees two pages while none are awaited. -/
def awaitingNone : Counters := ⟨0, 30, 40, 54, 20, 80, 2, 0⟩

theorem needing_counts : needing.Counts := by
  constructor <;> decide

theorem awaitingNone_counts : awaitingNone.Counts := by
  constructor <;> decide

theorem deficits_exact_needing : needing.Demands ↔ needing.Regular :=
  deficits_exact needing_counts

/-- A scan that frees pages nobody waits for has a negative deficit and deactivates nothing. -/
theorem deficit_negative : ¬ ∀ c : Counters, c.Counts → c.Demands := by
  intro hall
  have hpos := (hall awaitingNone awaitingNone_counts).pos
  exact absurd hpos (by decide)

end Bsd386.Kern.Vm.Pageout
