import Bsd386.Kern.Clock.Callout

/-!
# Times and ticks

`hzto` of `kern/clock.c` converts a deadline to clock ticks, and `itimerfix` and `timevaladd` of
`kern/time.c` prepare the deadlines that it is used for. A time is a number of microseconds, and
`BUMPTIME` adds the microseconds of a tick to it.
-/

namespace Bsd386.Kern.Clock

/-- `struct timeval`. -/
structure Timeval where
  tvSec : ℤ
  tvUsec : ℤ
  deriving DecidableEq, Repr

/-- `hz`. -/
def hz : ℤ := 100

/-- `tick`, the microseconds of a clock tick. -/
def tick : ℤ := 1000000 / hz

/-- `timerisset`. -/
def Timeval.isSet (t : Timeval) : Bool := t.tvSec ≠ 0 ∨ t.tvUsec ≠ 0

/-- `timercmp` with `<`. -/
def Timeval.before (t u : Timeval) : Bool :=
  t.tvSec < u.tvSec ∨ t.tvSec = u.tvSec ∧ t.tvUsec < u.tvUsec

/-- `BUMPTIME`. -/
def bumptime (t : Timeval) (usec : ℤ) : Timeval :=
  if 1000000 ≤ t.tvUsec + usec then ⟨t.tvSec + 1, t.tvUsec + usec - 1000000⟩
  else ⟨t.tvSec, t.tvUsec + usec⟩

/-- The two tests of `timevalfix`. -/
def timevalfix (t1 : Timeval) : Timeval :=
  let t1 := if t1.tvUsec < 0 then ⟨t1.tvSec - 1, t1.tvUsec + 1000000⟩ else t1
  if 1000000 ≤ t1.tvUsec then ⟨t1.tvSec + 1, t1.tvUsec - 1000000⟩ else t1

/-- `timevaladd`. -/
def timevaladd (t1 t2 : Timeval) : Timeval :=
  timevalfix ⟨t1.tvSec + t2.tvSec, t1.tvUsec + t2.tvUsec⟩

/-- `itimerfix`, which has no value for `EINVAL`. -/
def itimerfix (tv : Timeval) : Option Timeval :=
  if tv.tvSec < 0 ∨ 100000000 < tv.tvSec ∨ tv.tvUsec < 0 ∨ 1000000 ≤ tv.tvUsec then none
  else if tv.tvSec = 0 ∧ tv.tvUsec ≠ 0 ∧ tv.tvUsec < tick then some ⟨tv.tvSec, tick⟩
  else some tv

/-- `hzto`, where a `long` has the values of an `int`. -/
def hzto (time tv : Timeval) : ℤ :=
  let sec := int (tv.tvSec - time.tvSec)
  if sec ≤ 0x7fffffff / 1000 - 1000 then
    (int (int (int (tv.tvSec - time.tvSec) * 1000) +
      (int (tv.tvUsec - time.tvUsec)).tdiv 1000)).tdiv (tick.tdiv 1000)
  else if sec ≤ 0x7fffffff / hz then int (sec * hz)
  else 0x7fffffff

/-! ## Microseconds -/

/-- The microseconds of a time are less than a second. -/
structure Timeval.Proper (t : Timeval) : Prop where
  usec_nonneg : 0 ≤ t.tvUsec
  usec_lt : t.tvUsec < 1000000

/-- A time in microseconds. -/
def Timeval.micros (t : Timeval) : ℤ := t.tvSec * 1000000 + t.tvUsec

/-- The time after `n` ticks. -/
def afterTicks (n : ℕ) (time : Timeval) : Timeval := (fun t ↦ bumptime t tick)^[n] time

variable {t u time tv : Timeval} {n : ℕ}

theorem tick_eq : tick = 10000 := rfl

theorem before_iff (ht : t.Proper) (hu : u.Proper) : t.before u ↔ t.micros < u.micros := by
  have hlow := ht.usec_nonneg
  have hhigh := ht.usec_lt
  have hlow' := hu.usec_nonneg
  have hhigh' := hu.usec_lt
  unfold Timeval.before Timeval.micros
  rw [decide_eq_true_eq]
  omega

theorem bumptime_proper (ht : t.Proper) : (bumptime t tick).Proper := by
  have hlow := ht.usec_nonneg
  have hhigh := ht.usec_lt
  rw [tick_eq, bumptime]
  split_ifs
  · exact ⟨by dsimp only; omega, by dsimp only; omega⟩
  · exact ⟨by dsimp only; omega, by dsimp only; omega⟩

theorem bumptime_micros (t : Timeval) : (bumptime t tick).micros = t.micros + 10000 := by
  rw [tick_eq, bumptime]
  split_ifs
  · unfold Timeval.micros
    dsimp only
    omega
  · unfold Timeval.micros
    dsimp only
    omega

theorem afterTicks_succ (n : ℕ) (t : Timeval) :
    afterTicks (n + 1) t = bumptime (afterTicks n t) tick :=
  Function.iterate_succ_apply' _ n t

theorem afterTicks_proper (ht : t.Proper) (n : ℕ) : (afterTicks n t).Proper := by
  induction n with
  | zero => exact ht
  | succ n ih =>
    rw [afterTicks_succ]
    exact bumptime_proper ih

theorem afterTicks_micros (t : Timeval) (n : ℕ) :
    (afterTicks n t).micros = t.micros + n * 10000 := by
  induction n with
  | zero =>
    change t.micros = _
    omega
  | succ n ih =>
    rw [afterTicks_succ, bumptime_micros, ih]
    omega

theorem timevaladd_proper (ht : t.Proper) (hu : u.Proper) : (timevaladd t u).Proper := by
  have hlow := ht.usec_nonneg
  have hhigh := ht.usec_lt
  have hlow' := hu.usec_nonneg
  have hhigh' := hu.usec_lt
  have hnonneg : ¬ t.tvUsec + u.tvUsec < 0 := by omega
  unfold timevaladd timevalfix
  dsimp only
  rw [if_neg hnonneg]
  split_ifs with hcarry
  · exact ⟨by dsimp only at hcarry ⊢; omega, by dsimp only; omega⟩
  · exact ⟨by dsimp only; omega, by dsimp only at hcarry ⊢; omega⟩

theorem timevaladd_micros (t u : Timeval) : (timevaladd t u).micros = t.micros + u.micros := by
  unfold timevaladd timevalfix Timeval.micros
  dsimp only
  split_ifs
  · dsimp only; omega
  · dsimp only; omega
  · dsimp only; omega
  · dsimp only; omega

/-- What `itimerfix` accepts, and what it makes of it. -/
theorem itimerfix_spec (hfix : itimerfix t = some u) :
    u.Proper ∧ 0 ≤ u.tvSec ∧ u.tvSec ≤ 100000000 ∧ (u.micros = 0 ∨ 10000 ≤ u.micros) := by
  unfold itimerfix at hfix
  split_ifs at hfix with hbad hsmall
  · cases hfix
    rw [tick_eq]
    unfold Timeval.micros
    exact ⟨⟨by dsimp only; omega, by dsimp only; omega⟩, by dsimp only; omega,
      by dsimp only; omega, by dsimp only; omega⟩
  · cases hfix
    rw [tick_eq] at hsmall
    unfold Timeval.micros
    exact ⟨⟨by omega, by omega⟩, by omega, by omega, by omega⟩

/-! ## Ticks of a deadline -/

/-- The division of C, which cuts off toward 0. -/
theorem tdiv_thousand (x : ℤ) : x.tdiv 1000 = if 0 ≤ x then x / 1000 else -(-x / 1000) := by
  split_ifs with hx
  · exact Int.tdiv_eq_ediv_of_nonneg hx
  · rw [← Int.tdiv_eq_ediv_of_nonneg (by omega : 0 ≤ -x), Int.neg_tdiv, Int.neg_neg]

/-- The ticks to a deadline that has not passed. -/
theorem hzto_eq (htime : time.Proper) (htv : tv.Proper) (hsec : time.tvSec ≤ tv.tvSec)
    (hlong : tv.tvSec - time.tvSec < 2147483648) :
    hzto time tv =
      if tv.tvSec - time.tvSec ≤ 2146483 then
        ((tv.tvSec - time.tvSec) * 1000 + (tv.tvUsec - time.tvUsec).tdiv 1000).tdiv 10
      else if tv.tvSec - time.tvSec ≤ 21474836 then (tv.tvSec - time.tvSec) * 100
      else 2147483647 := by
  have hlow := htime.usec_nonneg
  have hhigh := htime.usec_lt
  have hlow' := htv.usec_nonneg
  have hhigh' := htv.usec_lt
  have hdiv := tdiv_thousand (tv.tvUsec - time.tvUsec)
  have hten : tick.tdiv 1000 = 10 := rfl
  have hsmall : (0x7fffffff / 1000 - 1000 : ℤ) = 2146483 := rfl
  have hlarge : 0x7fffffff / hz = 21474836 := rfl
  unfold hzto
  dsimp only
  rw [int_eq (i := tv.tvSec - time.tvSec) (by omega) (by omega), hten, hsmall, hlarge]
  split_ifs at hdiv ⊢
  · rw [int_eq (i := (tv.tvSec - time.tvSec) * 1000) (by omega) (by omega),
      int_eq (i := tv.tvUsec - time.tvUsec) (by omega) (by omega), int_eq (by omega) (by omega)]
  · rw [int_eq (i := (tv.tvSec - time.tvSec) * 1000) (by omega) (by omega),
      int_eq (i := tv.tvUsec - time.tvUsec) (by omega) (by omega), int_eq (by omega) (by omega)]
  · rw [int_eq (by unfold hz; omega) (by unfold hz; omega)]
    rfl
  · rw [int_eq (by unfold hz; omega) (by unfold hz; omega)]
    rfl
  · rfl
  · rfl

/-- The ticks that `hzto` gives last to the deadline. Up to 2146483 seconds away it counts whole
milliseconds, which must give whole ticks; farther away it counts whole seconds; and it never gives
more than `0x7fffffff` ticks. -/
def Lasts (time tv : Timeval) : Prop :=
  if tv.tvSec - time.tvSec ≤ 2146483 then
    (tv.tvUsec - time.tvUsec) % 10000 = 0 ∨
      tv.tvUsec < time.tvUsec ∧ 9000 < (tv.tvUsec - time.tvUsec) % 10000
  else if tv.tvSec - time.tvSec ≤ 21474836 then tv.tvUsec ≤ time.tvUsec
  else tv.tvSec - time.tvSec = 21474837 ∧ tv.tvUsec + 530000 ≤ time.tvUsec

/-- After the ticks that `hzto` gives, the deadline is reached exactly when they last to it. -/
theorem hzto_reaches (htime : time.Proper) (htv : tv.Proper) (hlater : time.before tv)
    (hlong : tv.tvSec - time.tvSec < 2147483648) :
    tv.micros ≤ time.micros + hzto time tv * 10000 ↔ Lasts time tv := by
  rw [before_iff htime htv] at hlater
  unfold Timeval.micros at hlater ⊢
  have hlow := htime.usec_nonneg
  have hhigh := htime.usec_lt
  have hlow' := htv.usec_nonneg
  have hhigh' := htv.usec_lt
  rw [hzto_eq htime htv (by omega) hlong, tdiv_thousand, Lasts]
  split_ifs with hnear hsign hfar
  · rw [Int.tdiv_eq_ediv_of_nonneg (by omega)]
    omega
  · rw [Int.tdiv_eq_ediv_of_nonneg (by omega)]
    omega
  · omega
  · omega

end Bsd386.Kern.Clock
