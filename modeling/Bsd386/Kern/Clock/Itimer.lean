import Mathlib.Tactic.Ring
import Bsd386.Kern.Clock.Timeval

/-!
# Virtual interval timers

`hardclock` of `kern/clock.c` charges the microseconds of a tick to the virtual and the profiling
timer of the running process with `itimerdecr` of `kern/time.c`. A timer that expires is loaded
again with its interval, less what the tick was late.
-/

namespace Bsd386.Kern.Clock

/-- `struct itimerval`. -/
structure Itimerval where
  itInterval : Timeval
  itValue : Timeval
  deriving DecidableEq, Repr

/-- `itimerfix` where a tick has `usec` microseconds. -/
def itimerfixTick (usec : ℤ) (tv : Timeval) : Option Timeval :=
  if tv.tvSec < 0 ∨ 100000000 < tv.tvSec ∨ tv.tvUsec < 0 ∨ 1000000 ≤ tv.tvUsec then none
  else if tv.tvSec = 0 ∧ tv.tvUsec ≠ 0 ∧ tv.tvUsec < usec then some ⟨tv.tvSec, usec⟩
  else some tv

/-- The end of `itimerdecr` from `expire` on. -/
def Itimerval.expire (itp : Itimerval) (usec : ℤ) : Itimerval :=
  if itp.itInterval.isSet then
    if itp.itInterval.tvUsec - usec < 0 then
      { itp with
        itValue := ⟨itp.itInterval.tvSec - 1, itp.itInterval.tvUsec - usec + 1000000⟩ }
    else { itp with itValue := ⟨itp.itInterval.tvSec, itp.itInterval.tvUsec - usec⟩ }
  else { itp with itValue := ⟨itp.itValue.tvSec, 0⟩ }

/-- The value of a timer less `usec` microseconds, where it has them. -/
def Itimerval.less (itp : Itimerval) (usec : ℤ) : Itimerval :=
  if itp.itValue.tvUsec < usec then
    { itp with itValue := ⟨itp.itValue.tvSec - 1, itp.itValue.tvUsec + 1000000 - usec⟩ }
  else { itp with itValue := ⟨itp.itValue.tvSec, itp.itValue.tvUsec - usec⟩ }

/-- `itimerdecr`, with `false` for the 0 of a timer that has expired. -/
def itimerdecr (itp : Itimerval) (usec : ℤ) : Bool × Itimerval :=
  if itp.itValue.tvUsec < usec ∧ itp.itValue.tvSec = 0 then
    (false, itp.expire (usec - itp.itValue.tvUsec))
  else if (itp.less usec).itValue.isSet then (true, itp.less usec)
  else (false, (itp.less usec).expire 0)

/-- What `hardclock` does with a timer of the running process: whether it posts the signal, and the
timer. -/
def chargeTimer (usec : ℤ) (itp : Itimerval) : Bool × Itimerval :=
  if itp.itValue.isSet then (!(itimerdecr itp usec).1, (itimerdecr itp usec).2)
  else (false, itp)

/-- The timer after `n` ticks. -/
def timerAfter (usec : ℤ) (itp : Itimerval) (n : ℕ) : Itimerval :=
  (fun t ↦ (chargeTimer usec t).2)^[n] itp

/-- The expiries that are reported in the first `n` ticks. -/
def expiries (usec : ℤ) (itp : Itimerval) : ℕ → ℕ
  | 0 => 0
  | n + 1 =>
    expiries usec itp n + if (chargeTimer usec (timerAfter usec itp n)).1 then 1 else 0

/-- The `k`-th expiry is reported at the `n`-th tick. -/
def ExpiresAt (usec : ℤ) (itp : Itimerval) (k n : ℕ) : Prop :=
  ∃ m, n = m + 1 ∧ (chargeTimer usec (timerAfter usec itp m)).1 = true ∧
    expiries usec itp n = k

/-- The deadline of the `k`-th expiry, in microseconds. -/
def Itimerval.deadline (itp : Itimerval) (k : ℕ) : ℤ :=
  itp.itValue.micros + (k - 1) * itp.itInterval.micros

/-- Timers with a `k`-th deadline: a timer without an interval expires once, and one that is not
set never does. -/
def Itimerval.HasDeadline (itp : Itimerval) (k : ℕ) : Prop :=
  itp.itValue.isSet ∧ (k = 1 ∨ 1 ≤ k ∧ itp.itInterval.isSet)

/-- The first tick at which a time is at or before the microseconds of the ticks. -/
def FirstTick (usec time : ℤ) (n : ℕ) : Prop :=
  time ≤ n * usec ∧ ∀ m : ℕ, m < n → m * usec < time

/-! ## One tick -/

variable {usec : ℤ} {itp : Itimerval} {t u tv : Timeval} {k n : ℕ}

theorem isSet_iff (t : Timeval) : t.isSet = true ↔ t.tvSec ≠ 0 ∨ t.tvUsec ≠ 0 :=
  decide_eq_true_iff

/-- A timer as `itimerfix` leaves it and `itimerdecr` keeps it. -/
structure Itimerval.Sound (usec : ℤ) (itp : Itimerval) : Prop where
  value_proper : itp.itValue.Proper
  value_nonneg : 0 ≤ itp.itValue.tvSec
  interval_proper : itp.itInterval.Proper
  interval_nonneg : 0 ≤ itp.itInterval.tvSec
  interval_long : itp.itInterval.micros = 0 ∨ usec ≤ itp.itInterval.micros

theorem itimerfix_eq (tv : Timeval) : itimerfix tv = itimerfixTick tick tv :=
  rfl

/-- What `itimerfix` accepts is normalised and, if it is set, not shorter than a tick. -/
theorem itimerfixTick_spec (husec : 0 < usec) (hlt : usec < 1000000)
    (hfix : itimerfixTick usec tv = some t) :
    t.Proper ∧ 0 ≤ t.tvSec ∧ (t.micros = 0 ∨ usec ≤ t.micros) := by
  unfold itimerfixTick at hfix
  unfold Timeval.micros
  split_ifs at hfix with hbad hsmall
  · cases hfix
    exact ⟨⟨by dsimp only; omega, by dsimp only; omega⟩, by dsimp only; omega,
      by dsimp only; omega⟩
  · cases hfix
    exact ⟨⟨by omega, by omega⟩, by omega, by omega⟩

/-- A normalised time is set when it is not 0 microseconds. -/
theorem Timeval.Proper.isSet_iff (ht : t.Proper) : t.isSet = true ↔ t.micros ≠ 0 := by
  have hlow := ht.usec_nonneg
  have hhigh := ht.usec_lt
  rw [Clock.isSet_iff]
  unfold Timeval.micros
  omega

/-- A timer that expires is loaded with the interval less what the tick was late. -/
theorem Itimerval.Sound.expire (hsound : itp.Sound usec) {late : ℤ} (hnonneg : 0 ≤ late)
    (hlate : late < usec) (hlt : usec < 1000000) (hsec : itp.itValue.tvSec = 0) :
    (itp.expire late).Sound usec ∧ (itp.expire late).itInterval = itp.itInterval ∧
      (itp.expire late).itValue.micros =
        if itp.itInterval.isSet then itp.itInterval.micros - late else 0 := by
  have hlow := hsound.interval_proper.usec_nonneg
  have hhigh := hsound.interval_proper.usec_lt
  have hlong := hsound.interval_long
  have hpos := hsound.interval_nonneg
  unfold Itimerval.expire
  by_cases hset : itp.itInterval.isSet = true
  · rw [if_pos hset, if_pos hset]
    rw [hsound.interval_proper.isSet_iff] at hset
    unfold Timeval.micros at hset hlong ⊢
    by_cases hborrow : itp.itInterval.tvUsec - late < 0
    · rw [if_pos hborrow]
      refine ⟨{ hsound with value_proper := ⟨?_, ?_⟩, value_nonneg := ?_ }, rfl, ?_⟩
      · dsimp only; omega
      · dsimp only; omega
      · dsimp only; omega
      · dsimp only; omega
    · rw [if_neg hborrow]
      refine ⟨{ hsound with value_proper := ⟨?_, ?_⟩, value_nonneg := hpos }, rfl, ?_⟩
      · dsimp only; omega
      · dsimp only; omega
      · dsimp only; omega
  · rw [if_neg hset, if_neg hset]
    refine ⟨{ hsound with value_proper := ⟨?_, ?_⟩, value_nonneg := ?_ }, rfl, ?_⟩
    · exact Int.le_refl 0
    · exact (by decide : (0 : ℤ) < 1000000)
    · exact hsound.value_nonneg
    · unfold Timeval.micros
      dsimp only
      omega

/-- The value that is left has the microseconds less those of the tick. -/
theorem Itimerval.Sound.less (hsound : itp.Sound usec) (husec : 0 < usec) (hlt : usec < 1000000)
    (henough : usec ≤ itp.itValue.micros) :
    (itp.less usec).Sound usec ∧ (itp.less usec).itInterval = itp.itInterval ∧
      (itp.less usec).itValue.micros = itp.itValue.micros - usec := by
  have hlow := hsound.value_proper.usec_nonneg
  have hhigh := hsound.value_proper.usec_lt
  have hpos := hsound.value_nonneg
  unfold Timeval.micros at henough
  unfold Itimerval.less
  by_cases hborrow : itp.itValue.tvUsec < usec
  · rw [if_pos hborrow]
    refine ⟨{ hsound with value_proper := ⟨?_, ?_⟩, value_nonneg := ?_ }, rfl, ?_⟩
    · dsimp only; omega
    · dsimp only; omega
    · dsimp only; omega
    · unfold Timeval.micros
      dsimp only
      omega
  · rw [if_neg hborrow]
    refine ⟨{ hsound with value_proper := ⟨?_, ?_⟩, value_nonneg := hpos }, rfl, ?_⟩
    · dsimp only; omega
    · dsimp only; omega
    · unfold Timeval.micros
      dsimp only
      omega

/-- What one tick does to a timer that is set. -/
theorem Itimerval.Sound.itimerdecr (hsound : itp.Sound usec) (husec : 0 < usec)
    (hlt : usec < 1000000) (hset : 0 < itp.itValue.micros) :
    (itimerdecr itp usec).2.Sound usec ∧
      (itimerdecr itp usec).2.itInterval = itp.itInterval ∧
      if usec < itp.itValue.micros then
        (itimerdecr itp usec).1 = true ∧
          (itimerdecr itp usec).2.itValue.micros = itp.itValue.micros - usec
      else
        (itimerdecr itp usec).1 = false ∧
          (itimerdecr itp usec).2.itValue.micros =
            if itp.itInterval.isSet then itp.itValue.micros + itp.itInterval.micros - usec
            else 0 := by
  have hlow := hsound.value_proper.usec_nonneg
  have hhigh := hsound.value_proper.usec_lt
  have hmicros : itp.itValue.micros = itp.itValue.tvSec * 1000000 + itp.itValue.tvUsec := rfl
  have hnonneg := hsound.value_nonneg
  unfold Clock.itimerdecr
  by_cases hover : itp.itValue.tvUsec < usec ∧ itp.itValue.tvSec = 0
  · rw [if_pos hover, if_neg (by omega)]
    obtain ⟨hnext, hinterval, hvalue⟩ := hsound.expire (by omega : 0 ≤ usec - itp.itValue.tvUsec)
      (by omega) hlt hover.2
    refine ⟨hnext, hinterval, rfl, ?_⟩
    rw [hvalue]
    split_ifs <;> omega
  · rw [if_neg hover]
    have henough : usec ≤ itp.itValue.micros := by omega
    obtain ⟨hless, hinterval, hvalue⟩ := hsound.less husec hlt henough
    by_cases hleft : (itp.less usec).itValue.isSet = true
    · rw [if_pos hleft]
      rw [hless.value_proper.isSet_iff] at hleft
      rw [if_pos (by omega)]
      exact ⟨hless, hinterval, rfl, hvalue⟩
    · rw [if_neg hleft]
      rw [hless.value_proper.isSet_iff, Decidable.not_not] at hleft
      rw [if_neg (by omega)]
      have hsec : (itp.less usec).itValue.tvSec = 0 := by
        have hlow' := hless.value_proper.usec_nonneg
        have hnonneg' := hless.value_nonneg
        unfold Timeval.micros at hleft
        omega
      obtain ⟨hnext, hinterval', hvalue'⟩ := hless.expire (Int.le_refl 0) husec hlt hsec
      rw [hinterval] at hinterval' hvalue'
      refine ⟨hnext, hinterval', rfl, ?_⟩
      rw [hvalue']
      split_ifs <;> omega

/-! ## Runs -/

theorem timerAfter_succ (usec : ℤ) (itp : Itimerval) (n : ℕ) :
    timerAfter usec itp (n + 1) = (chargeTimer usec (timerAfter usec itp n)).2 :=
  Function.iterate_succ_apply' _ n itp

theorem expiries_succ (usec : ℤ) (itp : Itimerval) (n : ℕ) :
    expiries usec itp (n + 1) =
      expiries usec itp n + if (chargeTimer usec (timerAfter usec itp n)).1 then 1 else 0 :=
  rfl

theorem Itimerval.deadline_one (itp : Itimerval) : itp.deadline 1 = itp.itValue.micros := by
  unfold Itimerval.deadline
  omega

theorem Itimerval.deadline_succ (itp : Itimerval) (k : ℕ) :
    itp.deadline (k + 1) = itp.deadline k + itp.itInterval.micros := by
  unfold Itimerval.deadline
  push_cast
  ring

/-- Each later deadline is at least an interval away. -/
theorem Itimerval.deadline_lt (itp : Itimerval) (hnonneg : 0 ≤ itp.itInterval.micros) {j : ℕ}
    (hlt : j < k) : itp.deadline j + itp.itInterval.micros ≤ itp.deadline k := by
  induction k with
  | zero => exact absurd hlt (Nat.not_lt_zero j)
  | succ k ih =>
    rw [itp.deadline_succ]
    by_cases hlast : j = k
    · rw [hlast]
    · have hbefore := ih (by omega)
      omega

theorem ticks_succ (usec : ℤ) (n : ℕ) : ((n + 1 : ℕ) : ℤ) * usec = n * usec + usec := by
  push_cast
  ring

/-- How a timer stands `n` ticks and `c` expiries after `itp`: its value is what is left to the
next deadline, and the deadlines of the expiries have passed. -/
structure Itimerval.Stands (usec : ℤ) (itp now : Itimerval) (n c : ℕ) : Prop where
  sound : now.Sound usec
  interval_eq : now.itInterval = itp.itInterval
  unset : itp.itValue.micros = 0 → now.itValue.micros = 0 ∧ c = 0
  once : itp.itValue.micros ≠ 0 → itp.itInterval.micros = 0 →
    c = 0 ∧ now.itValue.micros = itp.itValue.micros - n * usec ∧ 0 < now.itValue.micros ∨
      c = 1 ∧ now.itValue.micros = 0 ∧ itp.itValue.micros ≤ n * usec
  again : itp.itValue.micros ≠ 0 → itp.itInterval.micros ≠ 0 →
    now.itValue.micros = itp.deadline (c + 1) - n * usec ∧ 0 < now.itValue.micros ∧
      (c = 0 ∨ itp.deadline c ≤ n * usec)

theorem Itimerval.Sound.value_micros_nonneg (hsound : itp.Sound usec) :
    0 ≤ itp.itValue.micros := by
  have hlow := hsound.value_proper.usec_nonneg
  have hnonneg := hsound.value_nonneg
  unfold Timeval.micros
  omega

theorem Itimerval.Sound.stands (hsound : itp.Sound usec) : itp.Stands usec itp 0 0 where
  sound := hsound
  interval_eq := rfl
  unset := fun hunset ↦ ⟨hunset, rfl⟩
  once := fun hset _ ↦ by
    have hnonneg := hsound.value_micros_nonneg
    exact Or.inl ⟨rfl, by rw [Nat.cast_zero, Int.zero_mul, Int.sub_zero], by omega⟩
  again := fun hset _ ↦ by
    have hnonneg := hsound.value_micros_nonneg
    have hone := itp.deadline_one
    exact ⟨by rw [Nat.zero_add, hone, Nat.cast_zero, Int.zero_mul, Int.sub_zero], by omega,
      Or.inl rfl⟩

/-- A tick for a timer that is not set changes nothing. -/
theorem chargeTimer_unset (hsound : itp.Sound usec) (hunset : itp.itValue.micros = 0) :
    chargeTimer usec itp = (false, itp) := by
  have hset : ¬ itp.itValue.isSet = true := by
    rw [hsound.value_proper.isSet_iff]
    omega
  unfold chargeTimer
  rw [if_neg hset]

/-- A tick for a timer that is set takes its microseconds from the value, and it is an expiry
exactly when the value has no more than them. -/
theorem chargeTimer_set (hsound : itp.Sound usec) (husec : 0 < usec) (hlt : usec < 1000000)
    (hset : 0 < itp.itValue.micros) :
    (chargeTimer usec itp).2.Sound usec ∧
      (chargeTimer usec itp).2.itInterval = itp.itInterval ∧
      if usec < itp.itValue.micros then
        (chargeTimer usec itp).1 = false ∧
          (chargeTimer usec itp).2.itValue.micros = itp.itValue.micros - usec
      else
        (chargeTimer usec itp).1 = true ∧
          (chargeTimer usec itp).2.itValue.micros =
            if itp.itInterval.micros = 0 then 0
            else itp.itValue.micros + itp.itInterval.micros - usec := by
  have hspec := hsound.itimerdecr husec hlt hset
  have hisset : itp.itValue.isSet = true :=
    hsound.value_proper.isSet_iff.mpr (by omega)
  unfold chargeTimer
  rw [if_pos hisset]
  refine ⟨hspec.1, hspec.2.1, ?_⟩
  have hmicros := hspec.2.2
  by_cases hmore : usec < itp.itValue.micros
  · rw [if_pos hmore] at hmicros ⊢
    exact ⟨by rw [hmicros.1]; rfl, hmicros.2⟩
  · rw [if_neg hmore] at hmicros ⊢
    by_cases hinterval : itp.itInterval.micros = 0
    · rw [if_neg (hsound.interval_proper.isSet_iff.not.mpr (not_not.mpr hinterval))] at hmicros
      rw [if_pos hinterval]
      exact ⟨by rw [hmicros.1]; rfl, hmicros.2⟩
    · rw [if_pos (hsound.interval_proper.isSet_iff.mpr hinterval)] at hmicros
      rw [if_neg hinterval]
      exact ⟨by rw [hmicros.1]; rfl, hmicros.2⟩

/-- A tick keeps how a timer stands. -/
theorem Itimerval.Stands.charge {now : Itimerval} {c : ℕ} (husec : 0 < usec)
    (hlt : usec < 1000000) (hstands : itp.Stands usec now n c) :
    itp.Stands usec (chargeTimer usec now).2 (n + 1)
      (c + if (chargeTimer usec now).1 then 1 else 0) := by
  have hticks := ticks_succ usec n
  have hinterval := hstands.interval_eq
  have hlong := hstands.sound.interval_long
  rw [hinterval] at hlong
  by_cases hunset : now.itValue.micros = 0
  · rw [chargeTimer_unset hstands.sound hunset]
    rw [if_neg Bool.false_ne_true, Nat.add_zero c]
    refine ⟨hstands.sound, hinterval, hstands.unset, fun hset hnone ↦ ?_, fun hset hsome ↦ ?_⟩
    · have honce := hstands.once hset hnone
      dsimp only
      omega
    · have hagain := hstands.again hset hsome
      dsimp only
      omega
  · have hpos : 0 < now.itValue.micros := by
      have hnonneg := hstands.sound.value_micros_nonneg
      omega
    obtain ⟨hsound, hinterval', hspec⟩ := chargeTimer_set hstands.sound husec hlt hpos
    rw [hinterval] at hinterval' hspec
    refine ⟨hsound, hinterval', fun hunset' ↦ absurd (hstands.unset hunset').1 hunset,
      fun hset hnone ↦ ?_, fun hset hsome ↦ ?_⟩
    · have honce := hstands.once hset hnone
      rw [if_pos hnone] at hspec
      split_ifs at hspec with hmore
      · rw [hspec.1, hspec.2]
        rw [if_neg Bool.false_ne_true, Nat.add_zero c]
        omega
      · rw [hspec.1, hspec.2]
        rw [if_pos rfl]
        omega
    · have hagain := hstands.again hset hsome
      have hnext := itp.deadline_succ (c + 1)
      rw [if_neg hsome] at hspec
      split_ifs at hspec with hmore
      · rw [hspec.1, hspec.2]
        rw [if_neg Bool.false_ne_true, Nat.add_zero c]
        omega
      · rw [hspec.1, hspec.2]
        rw [if_pos rfl, hnext]
        omega

theorem Itimerval.Sound.stands_after (hsound : itp.Sound usec) (husec : 0 < usec)
    (hlt : usec < 1000000) (n : ℕ) :
    itp.Stands usec (timerAfter usec itp n) n (expiries usec itp n) := by
  induction n with
  | zero => exact hsound.stands
  | succ n ih =>
    rw [timerAfter_succ, expiries_succ]
    exact ih.charge husec hlt

/-! ## Deadlines -/

theorem firstTick_zero {time : ℤ} : FirstTick usec time 0 ↔ time ≤ 0 := by
  unfold FirstTick
  rw [Nat.cast_zero, Int.zero_mul]
  exact and_iff_left fun m hm ↦ absurd hm (Nat.not_lt_zero m)

/-- The first tick at a time is the one that passes over it. -/
theorem firstTick_succ (husec : 0 < usec) {time : ℤ} (n : ℕ) :
    FirstTick usec time (n + 1) ↔ n * usec < time ∧ time ≤ (n + 1 : ℕ) * usec := by
  constructor
  · intro hfirst
    exact ⟨hfirst.2 n (Nat.lt_succ_self n), hfirst.1⟩
  · intro hbetween
    refine ⟨hbetween.2, fun m hm ↦ ?_⟩
    have hle : (m : ℤ) * usec ≤ n * usec :=
      Int.mul_le_mul_of_nonneg_right (by omega) (Int.le_of_lt husec)
    exact Int.lt_of_le_of_lt hle hbetween.1

theorem expiresAt_zero : ¬ ExpiresAt usec itp k 0 := by
  intro hexpires
  obtain ⟨m, hm, -⟩ := hexpires
  exact absurd hm.symm (Nat.succ_ne_zero m)

theorem expiresAt_succ (n : ℕ) :
    ExpiresAt usec itp k (n + 1) ↔
      (chargeTimer usec (timerAfter usec itp n)).1 = true ∧ expiries usec itp n + 1 = k := by
  constructor
  · intro hexpires
    obtain ⟨m, hm, hreport, hcount⟩ := hexpires
    cases hm
    rw [expiries_succ, if_pos hreport] at hcount
    exact ⟨hreport, hcount⟩
  · intro hexpires
    refine ⟨n, rfl, hexpires.1, ?_⟩
    rw [expiries_succ, if_pos hexpires.1]
    exact hexpires.2

/-- A tick reports an expiry when it takes all that is left of a value that is set. -/
theorem chargeTimer_reports (hsound : itp.Sound usec) (husec : 0 < usec) (hlt : usec < 1000000) :
    (chargeTimer usec itp).1 = true ↔ 0 < itp.itValue.micros ∧ itp.itValue.micros ≤ usec := by
  have hnonneg := hsound.value_micros_nonneg
  by_cases hunset : itp.itValue.micros = 0
  · rw [chargeTimer_unset hsound hunset]
    exact iff_of_false Bool.false_ne_true (by omega)
  · have hspec := (chargeTimer_set hsound husec hlt (by omega)).2.2
    by_cases hmore : usec < itp.itValue.micros
    · rw [if_pos hmore] at hspec
      rw [hspec.1]
      exact iff_of_false Bool.false_ne_true (by omega)
    · rw [if_neg hmore] at hspec
      rw [hspec.1]
      exact iff_of_true rfl (by omega)

/-- The `k`-th expiry is reported at the tick that passes over the `k`-th deadline. -/
theorem Itimerval.Sound.expiresAt_iff (hsound : itp.Sound usec) (husec : 0 < usec)
    (hlt : usec < 1000000) (k n : ℕ) :
    ExpiresAt usec itp k n ↔ itp.HasDeadline k ∧ FirstTick usec (itp.deadline k) n := by
  have hvalue := hsound.value_micros_nonneg
  have hlong := hsound.interval_long
  unfold Itimerval.HasDeadline
  rw [hsound.value_proper.isSet_iff, hsound.interval_proper.isSet_iff]
  cases n with
  | zero =>
    rw [firstTick_zero]
    refine iff_of_false expiresAt_zero fun hzero ↦ ?_
    have hone := itp.deadline_one
    obtain ⟨⟨hset, hcount⟩, hpast⟩ := hzero
    by_cases hfirst : k = 1
    · rw [hfirst] at hpast
      omega
    · have hlater := itp.deadline_lt (by omega) (by omega : 1 < k)
      omega
  | succ n =>
    have hstands := hsound.stands_after husec hlt n
    have hticks := ticks_succ usec n
    rw [expiresAt_succ, chargeTimer_reports hstands.sound husec hlt, firstTick_succ husec]
    by_cases hunset : itp.itValue.micros = 0
    · have hnone := hstands.unset hunset
      omega
    · by_cases honce : itp.itInterval.micros = 0
      · have hstand := hstands.once hunset honce
        have hone := itp.deadline_one
        constructor
        · intro hreports
          have hfirst : k = 1 := by omega
          rw [hfirst]
          omega
        · intro hdeadline
          have hfirst : k = 1 := by omega
          rw [hfirst] at hdeadline ⊢
          omega
      · have hstand := hstands.again hunset honce
        constructor
        · intro hreports
          rw [← hreports.2]
          omega
        · intro hdeadline
          have hnext : expiries usec itp n + 1 = k := by
            by_contra hother
            by_cases hpassed : k < expiries usec itp n + 1
            · have hle : itp.deadline k ≤ itp.deadline (expiries usec itp n) := by
                by_cases hlast : k = expiries usec itp n
                · rw [hlast]
                · have hbefore := itp.deadline_lt (by omega)
                    (by omega : k < expiries usec itp n)
                  omega
              omega
            · have hafter := itp.deadline_lt (by omega)
                (by omega : expiries usec itp n + 1 < k)
              omega
          rw [hnext] at hstand
          exact ⟨by omega, hnext⟩

/-- A timer that is loaded with times that `itimerfix` accepts stays normalised, it stays set while
it has an interval, and its expiries are reported at the first ticks at which their deadlines have
passed. -/
theorem itimers_exact (husec : 0 < usec) (hlt : usec < 1000000) {value interval : Timeval}
    (hvalue : itimerfixTick usec value = some t)
    (hinterval : itimerfixTick usec interval = some u) :
    (∀ n, (timerAfter usec ⟨u, t⟩ n).itValue.Proper) ∧
      (t.isSet → u.isSet → ∀ n, (timerAfter usec ⟨u, t⟩ n).itValue.isSet) ∧
      ∀ k n, ExpiresAt usec ⟨u, t⟩ k n ↔
        (Itimerval.mk u t).HasDeadline k ∧ FirstTick usec ((Itimerval.mk u t).deadline k) n := by
  have hspec := itimerfixTick_spec husec hlt hvalue
  have hspec' := itimerfixTick_spec husec hlt hinterval
  have hsound : (Itimerval.mk u t).Sound usec :=
    ⟨hspec.1, hspec.2.1, hspec'.1, hspec'.2.1, hspec'.2.2⟩
  refine ⟨fun n ↦ (hsound.stands_after husec hlt n).sound.value_proper, fun hset hagain n ↦ ?_,
    hsound.expiresAt_iff husec hlt⟩
  have hstands := hsound.stands_after husec hlt n
  rw [hspec.1.isSet_iff] at hset
  rw [hspec'.1.isSet_iff] at hagain
  rw [hstands.sound.value_proper.isSet_iff]
  have hpos := (hstands.again hset hagain).2.1
  omega

theorem itimers_exact_second :
    (∀ n, (timerAfter 10000 ⟨⟨0, 30000⟩, ⟨1, 5⟩⟩ n).itValue.Proper) ∧
      ((⟨1, 5⟩ : Timeval).isSet → (⟨0, 30000⟩ : Timeval).isSet →
        ∀ n, (timerAfter 10000 ⟨⟨0, 30000⟩, ⟨1, 5⟩⟩ n).itValue.isSet) ∧
      ∀ k n, ExpiresAt 10000 ⟨⟨0, 30000⟩, ⟨1, 5⟩⟩ k n ↔
        (Itimerval.mk ⟨0, 30000⟩ ⟨1, 5⟩).HasDeadline k ∧
          FirstTick 10000 ((Itimerval.mk ⟨0, 30000⟩ ⟨1, 5⟩).deadline k) n :=
  itimers_exact (by decide) (by decide) (show itimerfixTick 10000 ⟨1, 5⟩ = some ⟨1, 5⟩ from rfl)
    (show itimerfixTick 10000 ⟨0, 30000⟩ = some ⟨0, 30000⟩ from rfl)

/-- A call for a timer that is not set can load it with 0 although it has an interval. -/
theorem itimerdecr_unset :
    ¬ ∀ (usec : ℤ) (value interval t u : Timeval), 0 < usec → usec < 1000000 →
      itimerfixTick usec value = some t → itimerfixTick usec interval = some u → u.isSet →
        ∀ n, ((fun itp ↦ (itimerdecr itp usec).2)^[n] ⟨u, t⟩).itValue.isSet := by
  intro hall
  have hset := hall 10000 ⟨0, 0⟩ ⟨0, 10000⟩ ⟨0, 0⟩ ⟨0, 10000⟩ (by decide) (by decide) rfl rfl rfl 1
  exact absurd hset (by decide)

end Bsd386.Kern.Clock
