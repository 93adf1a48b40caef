import Mathlib.Algebra.BigOperators.Group.List.Basic
import Mathlib.Algebra.Ring.Nat

/-!
# The calendar

Days are counted from the first of January 1970. A number that is taken apart by the lengths of
consecutive periods tells the period that it lies in.
-/

namespace Bsd386.Calendar

/-- Leap years. -/
def isLeap (year : ℕ) : Bool := year % 4 = 0 && (year % 100 ≠ 0 || year % 400 = 0)

/-- The length of a year. -/
def daysInYear (year : ℕ) : ℕ := if isLeap year then 366 else 365

/-- The length of a month. -/
def daysInMonth (year month : ℕ) : ℕ :=
  if month = 2 then if isLeap year then 29 else 28
  else if month = 4 ∨ month = 6 ∨ month = 9 ∨ month = 11 then 30
  else 31

/-- The days from the beginning of a year on. -/
def daysFrom (first year : ℕ) : ℕ := ((List.range' first (year - first)).map daysInYear).sum

/-- The days of a year in front of a month. -/
def daysBeforeMonth (year month : ℕ) : ℕ :=
  ((List.range' 1 (month - 1)).map (daysInMonth year)).sum

/-- The number of a day. -/
def dayNumber (year month day : ℕ) : ℕ :=
  daysFrom 1970 year + daysBeforeMonth year month + (day - 1)

theorem daysFrom_self (first : ℕ) : daysFrom first first = 0 := by
  rw [daysFrom, Nat.sub_self]
  rfl

theorem daysFrom_succ {first year : ℕ} (h : first ≤ year) :
    daysFrom first (year + 1) = daysFrom first year + daysInYear year := by
  rw [daysFrom, daysFrom, Nat.succ_sub h, List.range'_concat, List.map_append, List.sum_append,
    Nat.one_mul, Nat.add_sub_cancel' h]
  simp

theorem daysFrom_mono {first year year' : ℕ} (h : first ≤ year) (hle : year ≤ year') :
    daysFrom first year ≤ daysFrom first year' := by
  induction hle with
  | refl => exact Nat.le_refl _
  | step hle ih =>
    rw [daysFrom_succ (Nat.le_trans h hle)]
    exact Nat.le_trans ih (Nat.le_add_right _ _)

theorem daysFrom_add {first middle year : ℕ} (h : first ≤ middle) (hle : middle ≤ year) :
    daysFrom first year = daysFrom first middle + daysFrom middle year := by
  induction hle with
  | refl => rw [daysFrom_self, Nat.add_zero]
  | step hle ih => rw [daysFrom_succ (Nat.le_trans h hle), daysFrom_succ hle, ih, Nat.add_assoc]

/-- In the years from 1901 to 2099 every fourth one is a leap year. -/
theorem isLeap_iff {year : ℕ} (hfirst : 1901 ≤ year) (hlast : year ≤ 2099) :
    isLeap year = true ↔ year % 4 = 0 := by
  rw [isLeap]
  simp only [Bool.and_eq_true, Bool.or_eq_true, decide_eq_true_eq]
  omega

/-- The lengths of the months of a year. -/
theorem map_daysInMonth (year : ℕ) : (List.range' 1 12).map (daysInMonth year) =
    [31, if isLeap year then 29 else 28, 31, 30, 31, 30, 31, 31, 30, 31, 30, 31] := rfl

theorem sum_daysInMonth (year : ℕ) :
    ((List.range' 1 12).map (daysInMonth year)).sum = daysInYear year := by
  rw [map_daysInMonth, daysInYear]
  cases isLeap year <;> rfl

/-- The days in front of a month are the lengths of the months before. -/
theorem sum_take_daysInMonth (year : ℕ) {j : ℕ} (hj : j ≤ 12) :
    (((List.range' 1 12).map (daysInMonth year)).take j).sum = daysBeforeMonth year (j + 1) := by
  rw [daysBeforeMonth, Nat.add_sub_cancel, ← List.map_take, List.take_range'_of_length_ge hj]

end Bsd386.Calendar
