import Bsd386.Kern.Clock.Timeval

/-!
# Adjustments of the clock

`adjtime` of `kern/time.c` sets a correction of the time aside, and each call of `hardclock` of
`kern/clock.c` applies `tickdelta` microseconds of it until none are left. `main` gives `tick` and
`tickadj` for the `hz` of the configuration.
-/

namespace Bsd386.Kern.Clock

/-- An `hz` that `main` takes. -/
structure Rate where
  hz : ℤ
  ten_le : 10 ≤ hz
  le_thousand : hz ≤ 1000

/-- `tick`. -/
def Rate.tick (r : Rate) : ℤ := 1000000 / r.hz

/-- `tickadj`. -/
def Rate.tickadj (r : Rate) : ℤ := 240000 / (60 * r.hz)

/-- `bigadj`. -/
def bigadj : ℤ := 1000000

/-- `timedelta`, `tickdelta` and `time`. -/
structure Skew where
  timedelta : ℤ
  tickdelta : ℤ
  time : Timeval
  deriving DecidableEq, Repr

/-- `ndelta` as it is first. -/
def ndelta (delta : Timeval) : ℤ := int (int (delta.tvSec * 1000000) + delta.tvUsec)

/-- The `tickdelta` that `adjtime` goes on with. -/
def Rate.tickdelta (r : Rate) (s : Skew) (delta : Timeval) : ℤ :=
  if s.timedelta = 0 then
    if bigadj < ndelta delta then int (10 * r.tickadj) else r.tickadj
  else s.tickdelta

/-- The `timedelta` that `adjtime` sets. -/
def Rate.timedelta (r : Rate) (s : Skew) (delta : Timeval) : ℤ :=
  if (ndelta delta).tmod (r.tickdelta s delta) ≠ 0 then
    int ((ndelta delta).tdiv r.tickadj * r.tickadj)
  else ndelta delta

/-- `adjtime` for a process with the privilege, with `olddelta`. There is no result where the
division faults. -/
def Rate.adjtime (r : Rate) (s : Skew) (delta : Timeval) : Option (Timeval × Skew) :=
  if r.tickdelta s delta = 0 then none
  else
    some (⟨s.timedelta.tdiv 1000000, s.timedelta.tmod 1000000⟩,
      ⟨r.timedelta s delta, r.tickdelta s delta, s.time⟩)

/-- What `hardclock` does with the time of day. -/
def Rate.hardclock (r : Rate) (s : Skew) : Skew :=
  if s.timedelta = 0 then { s with time := bumptime s.time r.tick }
  else if s.timedelta < 0 then
    { s with
      timedelta := int (s.timedelta + s.tickdelta)
      time := bumptime s.time (int (r.tick - s.tickdelta)) }
  else
    { s with
      timedelta := int (s.timedelta - s.tickdelta)
      time := bumptime s.time (int (r.tick + s.tickdelta)) }

/-- `n` calls of `hardclock`. -/
def Rate.ticks (r : Rate) (n : ℕ) (s : Skew) : Skew := r.hardclock^[n] s

/-- A correction rounded toward zero to a multiple of `tickadj`. -/
def Rate.rounded (r : Rate) (delta : Timeval) : ℤ := delta.micros.tdiv r.tickadj * r.tickadj

/-- After `adjtime` nothing is left to correct from some tick on, the rounded correction is applied
by then, and what is left never grows. -/
def Rate.Converges (r : Rate) (s : Skew) (delta : Timeval) : Prop :=
  ∃ old next, r.adjtime s delta = some (old, next) ∧
    (∃ n, ∀ m : ℕ, n ≤ m → (r.ticks m next).timedelta = 0 ∧
      (r.ticks m next).time.micros = s.time.micros + m * r.tick + r.rounded delta) ∧
    ∀ m, (r.ticks (m + 1) next).timedelta.natAbs ≤ (r.ticks m next).timedelta.natAbs

/-- What earlier calls leave: an adjustment under way has one of the two steps. -/
def Rate.Sound (r : Rate) (s : Skew) : Prop :=
  s.timedelta = 0 ∨ s.tickdelta = r.tickadj ∨ s.tickdelta = 10 * r.tickadj

/-- A call of `adjtime` or of `hardclock`. -/
inductive SkewCall
  | adjtime (delta : Timeval)
  | hardclock

/-- One call. -/
def Rate.call (r : Rate) (s : Skew) : SkewCall → Option Skew
  | .adjtime delta => (r.adjtime s delta).map Prod.snd
  | .hardclock => some (r.hardclock s)

/-! ## The two steps -/

variable {r : Rate} {s next : Skew} {delta : Timeval} {d : ℤ}

theorem Rate.tickadj_bounds (r : Rate) : 4 ≤ r.tickadj ∧ r.tickadj ≤ 400 := by
  have hlow := r.ten_le
  have hhigh := r.le_thousand
  unfold Rate.tickadj
  exact ⟨(Int.le_ediv_iff_mul_le (by omega)).mpr (by omega),
    Int.ediv_le_of_le_mul (by omega) (by omega)⟩

theorem Rate.tick_bounds (r : Rate) : 1000 ≤ r.tick ∧ r.tick ≤ 100000 := by
  have hlow := r.ten_le
  have hhigh := r.le_thousand
  unfold Rate.tick
  exact ⟨(Int.le_ediv_iff_mul_le (by omega)).mpr (by omega),
    Int.ediv_le_of_le_mul (by omega) (by omega)⟩

/-- `adjtime` starts with `tickadj` or ten times as much, or goes on with the step it finds. -/
theorem Rate.Sound.tickdelta (hsound : r.Sound s) (delta : Timeval) :
    r.tickdelta s delta = r.tickadj ∨ r.tickdelta s delta = 10 * r.tickadj := by
  have hbounds := r.tickadj_bounds
  unfold Rate.tickdelta
  split_ifs with hidle hbig
  · exact Or.inr (int_eq (by omega) (by omega))
  · exact Or.inl rfl
  · exact hsound.resolve_left hidle

theorem Rate.Sound.step_bounds (hsound : r.Sound s) (delta : Timeval) :
    0 < r.tickdelta s delta ∧ r.tickdelta s delta ≤ 4000 := by
  have hbounds := r.tickadj_bounds
  have hstep := hsound.tickdelta delta
  omega

theorem Rate.Sound.adjtime (hsound : r.Sound s) (delta : Timeval) :
    r.adjtime s delta = some (⟨s.timedelta.tdiv 1000000, s.timedelta.tmod 1000000⟩,
      ⟨r.timedelta s delta, r.tickdelta s delta, s.time⟩) := by
  have hbounds := hsound.step_bounds delta
  unfold Rate.adjtime
  rw [if_neg (by omega)]

/-- Every call keeps this. -/
theorem Rate.Sound.call (hsound : r.Sound s) (c : SkewCall) :
    ∃ next, r.call s c = some next ∧ r.Sound next := by
  cases c with
  | adjtime delta =>
    refine ⟨⟨r.timedelta s delta, r.tickdelta s delta, s.time⟩, ?_, ?_⟩
    · exact congrArg (Option.map Prod.snd) (hsound.adjtime delta)
    · exact Or.inr (hsound.tickdelta delta)
  | hardclock =>
    refine ⟨r.hardclock s, rfl, ?_⟩
    unfold Rate.hardclock
    split_ifs with hidle
    · exact Or.inl hidle
    · exact Or.inr (hsound.resolve_left hidle)
    · exact Or.inr (hsound.resolve_left hidle)

/-- The state that a list of calls leaves, from `timedelta` 0. -/
theorem Rate.sound_of_calls (r : Rate) (hidle : s.timedelta = 0) (cs : List SkewCall) :
    ∃ next, cs.foldlM r.call s = some next ∧ r.Sound next := by
  have hgeneral : ∀ s, r.Sound s → ∃ next, cs.foldlM r.call s = some next ∧ r.Sound next := by
    induction cs with
    | nil => exact fun s hsound ↦ ⟨s, rfl, hsound⟩
    | cons c cs ih =>
      intro s hsound
      obtain ⟨next, hcall, hnext⟩ := hsound.call c
      rw [List.foldlM_cons, hcall]
      exact ih next hnext
  exact hgeneral s (Or.inl hidle)

/-! ## The rounded correction -/

theorem ndelta_eq (hlow : -2147483648 ≤ delta.micros) (hhigh : delta.micros < 2147483648) :
    ndelta delta = delta.micros := by
  have hcarry : ndelta delta = int (delta.tvSec * 1000000 + delta.tvUsec) := by
    unfold ndelta int
    exact Int.bmod_add_bmod ..
  rw [hcarry]
  exact int_eq (by unfold Timeval.micros at hlow; omega) (by unfold Timeval.micros at hhigh; omega)

theorem rounded_nonneg {a delta : ℤ} (ha : 0 < a) (hsign : 0 ≤ delta) :
    0 ≤ delta.tdiv a * a ∧ delta.tdiv a * a ≤ delta := by
  have hrest := Int.tmod_add_tdiv_mul delta a
  have hmod := Int.tmod_nonneg a hsign
  have hquot := Int.mul_nonneg (Int.tdiv_nonneg hsign (Int.le_of_lt ha)) (Int.le_of_lt ha)
  exact ⟨hquot, by omega⟩

/-- A rounded correction lies between 0 and the correction. -/
theorem rounded_between {a : ℤ} (ha : 0 < a) (delta : ℤ) :
    0 ≤ delta.tdiv a * a ∧ delta.tdiv a * a ≤ delta ∨
      delta ≤ delta.tdiv a * a ∧ delta.tdiv a * a ≤ 0 := by
  by_cases hsign : 0 ≤ delta
  · exact Or.inl (rounded_nonneg ha hsign)
  · have hneg := rounded_nonneg ha (by omega : 0 ≤ -delta)
    rw [Int.neg_tdiv, Int.neg_mul] at hneg
    omega

/-- `adjtime` sets the rounded correction. -/
theorem Rate.Sound.timedelta (hsound : r.Sound s) (hlow : -2147483648 ≤ delta.micros)
    (hhigh : delta.micros < 2147483648) : r.timedelta s delta = r.rounded delta := by
  have hbounds := r.tickadj_bounds
  have hbetween := rounded_between (by omega : 0 < r.tickadj) delta.micros
  unfold Rate.timedelta Rate.rounded
  rw [ndelta_eq hlow hhigh]
  split_ifs with hodd
  · exact int_eq (by omega) (by omega)
  · have hdvd : r.tickadj ∣ delta.micros := by
      have hstep : r.tickadj ∣ r.tickdelta s delta := by
        have hor := hsound.tickdelta delta
        obtain heq | heq := hor
        · rw [heq]
        · rw [heq]
          exact Int.dvd_mul_left 10 r.tickadj
      exact Int.dvd_trans hstep (Int.dvd_of_tmod_eq_zero (not_not.mp hodd))
    exact (Int.tdiv_mul_cancel hdvd).symm

/-! ## Ticks -/

theorem micros_bumptime (t : Timeval) (usec : ℤ) : (bumptime t usec).micros = t.micros + usec := by
  unfold bumptime Timeval.micros
  split_ifs
  · dsimp only
    omega
  · dsimp only
    omega

/-- A tick takes a step from what is left to correct and applies it to the time. -/
theorem Rate.hardclock_spec (r : Rate) (hpos : 0 < s.tickdelta) (hle : s.tickdelta ≤ 4000)
    (hlow : -2147483648 ≤ s.timedelta) (hhigh : s.timedelta < 2147483648) :
    (r.hardclock s).tickdelta = s.tickdelta ∧
      (r.hardclock s).timedelta =
        (if s.timedelta = 0 then 0
        else if s.timedelta < 0 then s.timedelta + s.tickdelta
        else s.timedelta - s.tickdelta) ∧
      (r.hardclock s).time.micros + (r.hardclock s).timedelta =
        s.time.micros + s.timedelta + r.tick := by
  have hbounds := r.tick_bounds
  unfold Rate.hardclock
  by_cases hidle : s.timedelta = 0
  · rw [if_pos hidle, if_pos hidle]
    refine ⟨rfl, hidle, ?_⟩
    dsimp only
    rw [micros_bumptime]
    omega
  · rw [if_neg hidle, if_neg hidle]
    by_cases hsign : s.timedelta < 0
    · rw [if_pos hsign, if_pos hsign]
      have hleft : int (s.timedelta + s.tickdelta) = s.timedelta + s.tickdelta :=
        int_eq (by omega) (by omega)
      have hstep : int (r.tick - s.tickdelta) = r.tick - s.tickdelta :=
        int_eq (by omega) (by omega)
      refine ⟨rfl, hleft, ?_⟩
      dsimp only
      rw [micros_bumptime, hleft, hstep]
      omega
    · rw [if_neg hsign, if_neg hsign]
      have hleft : int (s.timedelta - s.tickdelta) = s.timedelta - s.tickdelta :=
        int_eq (by omega) (by omega)
      have hstep : int (r.tick + s.tickdelta) = r.tick + s.tickdelta :=
        int_eq (by omega) (by omega)
      refine ⟨rfl, hleft, ?_⟩
      dsimp only
      rw [micros_bumptime, hleft, hstep]
      omega

theorem Rate.ticks_succ (r : Rate) (n : ℕ) (s : Skew) :
    r.ticks (n + 1) s = r.hardclock (r.ticks n s) :=
  Function.iterate_succ_apply' _ n s

/-- An adjustment under way with a step of `d` microseconds, `m` ticks after `start`. -/
structure Rate.Adjusts (r : Rate) (d : ℤ) (start s : Skew) (m : ℕ) : Prop where
  step : s.tickdelta = d
  low : -2147483648 ≤ s.timedelta
  high : s.timedelta < 2147483648
  total : s.time.micros + s.timedelta = start.time.micros + start.timedelta + m * r.tick
  dvd_iff : d ∣ s.timedelta ↔ d ∣ start.timedelta

theorem Rate.Adjusts.hardclock {m : ℕ} (hpos : 0 < d) (hle : d ≤ 4000)
    (hadjusts : r.Adjusts d next s m) : r.Adjusts d next (r.hardclock s) (m + 1) := by
  have hlow := hadjusts.low
  have hhigh := hadjusts.high
  have hstep := hadjusts.step
  have htotal := hadjusts.total
  have hspec := r.hardclock_spec (by rw [hstep]; exact hpos) (by rw [hstep]; exact hle) hlow hhigh
  have hticks : ((m + 1 : ℕ) : ℤ) * r.tick = m * r.tick + r.tick := by
    push_cast
    exact Int.add_mul m 1 r.tick |>.trans (by rw [Int.one_mul])
  rw [hstep] at hspec
  constructor
  · exact hspec.1
  · split_ifs at hspec <;> omega
  · split_ifs at hspec <;> omega
  · omega
  · rw [← hadjusts.dvd_iff, hspec.2.1]
    split_ifs with hidle hsign
    · rw [hidle]
    · exact Int.dvd_add_left (Int.dvd_refl d)
    · exact Int.dvd_add_left (Int.dvd_neg.mpr (Int.dvd_refl d))

theorem Rate.adjusts_ticks (r : Rate) (next : Skew) (hpos : 0 < next.tickdelta)
    (hle : next.tickdelta ≤ 4000)
    (hlow : -2147483648 ≤ next.timedelta) (hhigh : next.timedelta < 2147483648) (m : ℕ) :
    r.Adjusts next.tickdelta next (r.ticks m next) m := by
  induction m with
  | zero =>
    exact ⟨rfl, hlow, hhigh, by rw [Nat.cast_zero, Int.zero_mul, Int.add_zero]; rfl, Iff.rfl⟩
  | succ m ih =>
    rw [r.ticks_succ]
    exact ih.hardclock hpos hle

/-- A tick takes a whole step of what is left, if that is a number of whole steps. -/
theorem Rate.Adjusts.natAbs_hardclock {m : ℕ} (hpos : 0 < d) (hle : d ≤ 4000)
    (hadjusts : r.Adjusts d next s m) (hdvd : d ∣ next.timedelta) :
    (r.hardclock s).timedelta.natAbs = s.timedelta.natAbs - d.natAbs := by
  have hwhole := hadjusts.dvd_iff.mpr hdvd
  have hstep := hadjusts.step
  have hspec := r.hardclock_spec (by rw [hstep]; exact hpos) (by rw [hstep]; exact hle)
    hadjusts.low hadjusts.high
  rw [hspec.2.1, hstep]
  split_ifs with hidle hsign
  · omega
  · have hmost := Int.le_of_dvd (by omega : 0 < -s.timedelta) (Int.dvd_neg.mpr hwhole)
    omega
  · have hmost := Int.le_of_dvd (by omega : 0 < s.timedelta) hwhole
    omega

/-- Whole steps run out. -/
theorem Rate.natAbs_ticks (r : Rate) (next : Skew) (hpos : 0 < next.tickdelta)
    (hle : next.tickdelta ≤ 4000)
    (hlow : -2147483648 ≤ next.timedelta) (hhigh : next.timedelta < 2147483648)
    (hdvd : next.tickdelta ∣ next.timedelta) (m : ℕ) :
    (r.ticks m next).timedelta.natAbs ≤ next.timedelta.natAbs - m := by
  induction m with
  | zero => exact Nat.le_refl _
  | succ m ih =>
    have hadjusts := r.adjusts_ticks next hpos hle hlow hhigh m
    rw [r.ticks_succ, hadjusts.natAbs_hardclock hpos hle hdvd]
    omega

/-- A clock adjustment comes to its end exactly when the rounded correction is a number of whole
steps, of the step that is under way or of the one that `adjtime` chooses. -/
theorem Rate.converges_iff (hsound : r.Sound s) (hlow : -2147483648 ≤ delta.micros)
    (hhigh : delta.micros < 2147483648) :
    r.Converges s delta ↔ r.tickdelta s delta ∣ r.rounded delta := by
  have hbounds := hsound.step_bounds delta
  have hadj := r.tickadj_bounds
  have hbetween := rounded_between (by omega : 0 < r.tickadj) delta.micros
  have hrounded := hsound.timedelta hlow hhigh
  have hvalue : r.rounded delta = delta.micros.tdiv r.tickadj * r.tickadj := rfl
  have hadjusts := r.adjusts_ticks ⟨r.timedelta s delta, r.tickdelta s delta, s.time⟩ hbounds.1
    hbounds.2 (by dsimp only; omega) (by dsimp only; omega)
  unfold Rate.Converges
  rw [hsound.adjtime delta]
  constructor
  · intro hconverges
    obtain ⟨old, next, hnext, ⟨n, hend⟩, -⟩ := hconverges
    cases hnext
    have hlast := (hadjusts n).dvd_iff
    rw [(hend n (Nat.le_refl n)).1] at hlast
    rw [← hrounded]
    exact hlast.mp (Int.dvd_zero _)
  · intro hdvd
    rw [← hrounded] at hdvd
    refine ⟨_, _, rfl, ⟨(r.timedelta s delta).natAbs, fun m hm ↦ ?_⟩, fun m ↦ ?_⟩
    · have hleft := r.natAbs_ticks ⟨r.timedelta s delta, r.tickdelta s delta, s.time⟩ hbounds.1
        hbounds.2 (by dsimp only; omega) (by dsimp only; omega) hdvd m
      have htotal := (hadjusts m).total
      dsimp only at hleft htotal
      have hzero :
          (r.ticks m ⟨r.timedelta s delta, r.tickdelta s delta, s.time⟩).timedelta = 0 := by
        omega
      exact ⟨hzero, by omega⟩
    · rw [r.ticks_succ, (hadjusts m).natAbs_hardclock hbounds.1 hbounds.2 hdvd]
      omega

theorem Rate.tickdelta_dvd_iff (hlow : -2147483648 ≤ delta.micros)
    (hhigh : delta.micros < 2147483648) :
    r.tickdelta s delta ∣ r.rounded delta ↔
      (s.timedelta = 0 → bigadj < delta.micros → 10 * r.tickadj ∣ r.rounded delta) ∧
        (s.timedelta ≠ 0 → s.tickdelta ∣ r.rounded delta) := by
  have hadj := r.tickadj_bounds
  have hsmall : r.tickadj ∣ r.rounded delta := Int.dvd_mul_left (delta.micros.tdiv r.tickadj) _
  have hbig : int (10 * r.tickadj) = 10 * r.tickadj := int_eq (by omega) (by omega)
  unfold Rate.tickdelta
  rw [ndelta_eq hlow hhigh, hbig]
  split_ifs with hidle hlarge
  · exact ⟨fun hdvd ↦ ⟨fun _ _ ↦ hdvd, fun hnot ↦ absurd hidle hnot⟩,
      fun hdvd ↦ hdvd.1 hidle hlarge⟩
  · exact iff_of_true hsmall ⟨fun _ hnot ↦ absurd hnot hlarge, fun hnot ↦ absurd hidle hnot⟩
  · exact ⟨fun hdvd ↦ ⟨fun hnot ↦ absurd hnot hidle, fun _ ↦ hdvd⟩, fun hdvd ↦ hdvd.2 hidle⟩

/-- After `adjtime` the correction ends, with the rounded correction applied, except where the step
of ten times `tickadj` does not divide it: for a correction of more than a second, or one that is
made while such steps are under way. -/
theorem adjustments_exact (hsound : r.Sound s) (hlow : -2147483648 ≤ delta.micros)
    (hhigh : delta.micros < 2147483648) :
    r.Converges s delta ↔
      (s.timedelta = 0 → bigadj < delta.micros → 10 * r.tickadj ∣ r.rounded delta) ∧
        (s.timedelta ≠ 0 → s.tickdelta ∣ r.rounded delta) :=
  (Rate.converges_iff hsound hlow hhigh).trans (Rate.tickdelta_dvd_iff hlow hhigh)

theorem ten_le_hundred : (10 : ℤ) ≤ 100 := by decide

theorem hundred_le : (100 : ℤ) ≤ 1000 := by decide

/-- The clock of 100 ticks a second. -/
def hundred : Rate := ⟨100, ten_le_hundred, hundred_le⟩

theorem adjustments_exact_hundred :
    hundred.Converges ⟨0, 0, ⟨0, 0⟩⟩ ⟨-3, 30⟩ ↔
      ((0 : ℤ) = 0 → bigadj < (⟨-3, 30⟩ : Timeval).micros →
          10 * hundred.tickadj ∣ hundred.rounded ⟨-3, 30⟩) ∧
        ((0 : ℤ) ≠ 0 → (0 : ℤ) ∣ hundred.rounded ⟨-3, 30⟩) :=
  adjustments_exact (Or.inl rfl) (by decide) (by decide)

/-- The 1000040 microseconds never run out in steps of 400. -/
theorem adjustment_endless : ¬ hundred.Converges ⟨0, 0, ⟨0, 0⟩⟩ ⟨1, 40⟩ := by
  rw [Rate.converges_iff (Or.inl rfl) (by decide) (by decide)]
  decide

end Bsd386.Kern.Clock
