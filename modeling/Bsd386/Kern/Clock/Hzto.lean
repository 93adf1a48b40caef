import Bsd386.Kern.Clock.Timeval
import Bsd386.Lib.Machine

/-!
# Deadlines in ticks

`select` of `kern/descrip.c` and the real time interval timer of `kern/time.c` wait for the ticks
that `hzto` gives. The ticks may end in front of the deadline, and there may be none of them, which
is no timeout for `tsleep`.
-/

namespace Bsd386.Kern.Clock

variable {time tv value interval : Timeval} {n : ℕ}

/-! ## `select` -/

/-- One turn of `select` from `retry` on: whether `selscan` ends the call, the ticks from there to
the test of the time, whether `SSEL` or `nselcoll` sends it back, and the ticks in `tsleep` and
whether a wakeup ended it. -/
structure Turn where
  found : Bool
  scanned : ℕ
  raced : Bool
  asleep : ℕ
  woken : Bool

/-- The turns of `select`, with `timo` of each call of `tsleep`. -/
def selectLoop (atv : Timeval) (timo : ℤ) : Timeval → List Turn → List ℤ
  | _, [] => []
  | time, turn :: turns =>
    if turn.found then []
    else if (afterTicks turn.scanned time).before atv then
      if turn.raced then selectLoop atv timo (afterTicks turn.scanned time) turns
      else if turn.woken then
        timo :: selectLoop atv timo (afterTicks turn.asleep (afterTicks turn.scanned time)) turns
      else [timo]
    else []

/-- `select` with a timeout, as far as it is about time. There are `entered` ticks between
`timevaladd` and `hzto`. -/
def select (tv time : Timeval) (entered : ℕ) (turns : List Turn) : List ℤ :=
  match itimerfix tv with
  | none => []
  | some atv =>
    selectLoop (timevaladd atv time) (hzto (afterTicks entered time) (timevaladd atv time))
      (afterTicks entered time) turns

/-- The deadline has passed, or it is a whole tick away. Where the ticks are counted across a
second, 9001 microseconds are enough. -/
def TickAway (time tv : Timeval) : Prop :=
  tv.micros ≤ time.micros ∨ time.micros + 10000 ≤ tv.micros ∨
    tv.tvUsec < time.tvUsec ∧ time.micros + 9000 < tv.micros

/-- `hzto` gives a tick to each deadline that is a whole tick away. -/
theorem hzto_pos (htime : time.Proper) (htv : tv.Proper) (hlater : time.before tv)
    (hlong : tv.tvSec - time.tvSec < 2147483648) : 1 ≤ hzto time tv ↔ TickAway time tv := by
  rw [before_iff htime htv] at hlater
  unfold TickAway
  unfold Timeval.micros at hlater ⊢
  have hlow := htime.usec_nonneg
  have hhigh := htime.usec_lt
  have hlow' := htv.usec_nonneg
  have hhigh' := htv.usec_lt
  rw [hzto_eq htime htv (by omega) hlong, tdiv_thousand]
  split_ifs with hnear hsign hfar
  · rw [Int.tdiv_eq_ediv_of_nonneg (by omega)]
    omega
  · rw [Int.tdiv_eq_ediv_of_nonneg (by omega)]
    omega
  · omega
  · omega

/-- `hzto` gives no negative number for a deadline ahead. -/
theorem hzto_nonneg (htime : time.Proper) (htv : tv.Proper) (hlater : time.before tv)
    (hlong : tv.tvSec - time.tvSec < 2147483648) : 0 ≤ hzto time tv := by
  rw [before_iff htime htv] at hlater
  unfold Timeval.micros at hlater
  have hlow := htime.usec_nonneg
  have hhigh := htime.usec_lt
  have hlow' := htv.usec_nonneg
  have hhigh' := htv.usec_lt
  rw [hzto_eq htime htv (by omega) hlong, tdiv_thousand]
  split_ifs with hnear hsign hfar
  · rw [Int.tdiv_eq_ediv_of_nonneg (by omega)]
    omega
  · rw [Int.tdiv_eq_ediv_of_nonneg (by omega)]
    omega
  · omega
  · omega

/-- A call of `tsleep` has the `timo` of the loop, and it is made in front of the deadline. -/
theorem selectLoop_mem {atv : Timeval} {timo t : ℤ} {turns : List Turn} (htime : time.Proper)
    (hatv : atv.Proper) (ht : t ∈ selectLoop atv timo time turns) :
    t = timo ∧ time.micros < atv.micros := by
  induction turns generalizing time with
  | nil => cases ht
  | cons turn turns ih =>
    rw [selectLoop] at ht
    have hscanned := afterTicks_proper htime turn.scanned
    have hmicros := afterTicks_micros time turn.scanned
    split_ifs at ht with hfound hbefore hraced hwoken
    · cases ht
    · have hrest := ih hscanned ht
      exact ⟨hrest.1, by omega⟩
    · rw [before_iff hscanned hatv] at hbefore
      rcases List.mem_cons.mp ht with rfl | ht
      · exact ⟨rfl, by omega⟩
      · exact ⟨(ih (afterTicks_proper hscanned turn.asleep) ht).1, by omega⟩
    · rw [before_iff hscanned hatv] at hbefore
      exact ⟨List.mem_singleton.mp ht, by omega⟩
    · cases ht

/-- The deadline of `select`, after the ticks in front of `hzto`. -/
theorem select_deadline {atv : Timeval} (htime : time.Proper) (hfix : itimerfix tv = some atv)
    (entered : ℕ) :
    (timevaladd atv time).Proper ∧
      (timevaladd atv time).tvSec - (afterTicks entered time).tvSec < 2147483648 := by
  obtain ⟨hproper, hnonneg, hle, -⟩ := itimerfix_spec hfix
  have hdeadline := timevaladd_proper hproper htime
  refine ⟨hdeadline, ?_⟩
  have hsum := timevaladd_micros atv time
  have hticks := afterTicks_micros time entered
  have htime' := afterTicks_proper htime entered
  have hlow := hdeadline.usec_nonneg
  have hhigh := htime'.usec_lt
  have hlow' := hproper.usec_lt
  unfold Timeval.micros at hsum hticks
  omega

/-- `select` with a timeout calls `tsleep` without one in no turn exactly when the deadline is a
whole tick away behind the ticks in front of `hzto`, or has passed. -/
theorem select_remembers (htime : time.Proper) (entered : ℕ) :
    (∀ turns, 0 ∉ select tv time entered turns) ↔
      ∀ atv, itimerfix tv = some atv →
        TickAway (afterTicks entered time) (timevaladd atv time) := by
  unfold select
  cases hfix : itimerfix tv with
  | none =>
    refine iff_of_true (fun turns hmem ↦ ?_) fun atv hatv ↦ ?_
    · cases hmem
    · cases hatv
  | some atv =>
    obtain ⟨hdeadline, hlong⟩ := select_deadline htime hfix entered
    have htime' := afterTicks_proper htime entered
    dsimp only
    constructor
    · intro hnever atv' hatv'
      cases hatv'
      by_cases hbefore : (afterTicks entered time).before (timevaladd atv time)
      · rw [← hzto_pos htime' hdeadline hbefore hlong]
        have hnonneg := hzto_nonneg htime' hdeadline hbefore hlong
        by_contra hzero
        refine hnever [⟨false, 0, false, 0, false⟩] ?_
        have hzto : hzto (afterTicks entered time) (timevaladd atv time) = 0 := by omega
        rw [hzto]
        change 0 ∈ (if (afterTicks entered time).before (timevaladd atv time) then [0] else [])
        rw [if_pos hbefore]
        exact List.mem_cons_self
      · rw [before_iff htime' hdeadline] at hbefore
        exact Or.inl (by omega)
    · intro haway turns hmem
      obtain ⟨htimo, hahead⟩ := selectLoop_mem htime' hdeadline hmem
      have hbefore := (before_iff htime' hdeadline).mpr hahead
      have hpos := (hzto_pos htime' hdeadline hbefore hlong).mpr (haway atv rfl)
      omega

/-! ## The real time interval timer -/

/-- `time`, `p_realtimer` of a process, and the ticks until its `realitexpire` is due, if it waits
for one. -/
structure RealTimer where
  time : Timeval
  itValue : Timeval
  itInterval : Timeval
  callout : Option ℤ

/-- What happens to the timer: a call of `setitimer` with `ITIMER_REAL`, a tick, or a turn of
`softclock`. -/
inductive TimerCall
  | setitimer (value interval : Timeval)
  | hardclock
  | softclock

/-- The ticks that a callout waits, as `timeout` takes them. -/
def calloutTicks (t : ℤ) : ℤ := if t ≤ 0 then 1 else t

/-- The loop of `realitexpire` for at most `fuel` turns. -/
def reload (time interval : Timeval) : ℕ → Timeval → Timeval
  | 0, value => value
  | fuel + 1, value =>
    if time.before (timevaladd value interval) then timevaladd value interval
    else reload time interval fuel (timevaladd value interval)

/-- A number of turns that is enough when the interval is set. -/
def reloadFuel (time value : Timeval) : ℕ := (time.micros - value.micros).toNat + 1

/-- The next deadline of an interval. -/
def RealTimer.reloaded (s : RealTimer) : Timeval :=
  reload s.time s.itInterval (reloadFuel s.time s.itValue) s.itValue

/-- `realitexpire`, which posts `SIGALRM` first. -/
def RealTimer.realitexpire (s : RealTimer) : RealTimer :=
  if s.itInterval.isSet then
    { s with
      itValue := s.reloaded
      callout := some (calloutTicks (hzto s.time s.reloaded)) }
  else { s with itValue := ⟨0, 0⟩, callout := none }

/-- `setitimer` with times that `itimerfix` has accepted. -/
def RealTimer.setitimer (s : RealTimer) (value interval : Timeval) : RealTimer :=
  if value.isSet then
    { s with
      itValue := timevaladd value s.time
      itInterval := interval
      callout := some (calloutTicks (hzto s.time (timevaladd value s.time))) }
  else { s with itValue := value, itInterval := interval, callout := none }

/-- `softclock` calls `realitexpire`. -/
def RealTimer.due (s : RealTimer) : Bool := s.callout.any fun t ↦ t ≤ 0

/-- Both times of `setitimer`, if they are acceptable. -/
def fixBoth (value interval : Timeval) : Option (Timeval × Timeval) := do
  let value ← itimerfix value
  let interval ← itimerfix interval
  return (value, interval)

/-- One call, and whether it posts `SIGALRM`. -/
def RealTimer.exec (s : RealTimer) : TimerCall → Bool × RealTimer
  | .setitimer value interval =>
    (false, ((fixBoth value interval).map fun both ↦ s.setitimer both.1 both.2).getD s)
  | .hardclock => (false, { s with time := bumptime s.time tick, callout := s.callout.map (· - 1) })
  | .softclock => if s.due then (true, s.realitexpire) else (false, s)

/-- The ticks that a callout waits for `hzto` last to the deadline: `Lasts`, or one tick is enough.
-/
def CalloutLasts (time tv : Timeval) : Prop := Lasts time tv ∨ tv.micros ≤ time.micros + 10000

/-- A callout that waits for `hzto` is at the deadline or behind it exactly then. -/
theorem calloutTicks_reaches (htime : time.Proper) (htv : tv.Proper) (hlater : time.before tv)
    (hlong : tv.tvSec - time.tvSec < 2147483648) :
    tv.micros ≤ time.micros + calloutTicks (hzto time tv) * 10000 ↔ CalloutLasts time tv := by
  have hreaches := hzto_reaches htime htv hlater hlong
  have hnonneg := hzto_nonneg htime htv hlater hlong
  rw [CalloutLasts, ← hreaches, calloutTicks]
  split_ifs with hzero
  · omega
  · omega

/-- The deadline that a call sets. -/
def TimerCall.deadline (s : RealTimer) : TimerCall → Option Timeval
  | .setitimer value interval =>
    (fixBoth value interval).bind fun both ↦
      if both.1.isSet then some (timevaladd both.1 s.time) else none
  | .hardclock => none
  | .softclock => if s.due ∧ s.itInterval.isSet then some s.reloaded else none

/-- The ticks last to the deadline that a call sets. -/
def TimerCall.Meets (s : RealTimer) (e : TimerCall) : Prop :=
  ∀ tv, e.deadline s = some tv → CalloutLasts s.time tv

/-- A call posts no `SIGALRM` in front of the deadline. -/
def TimerCall.NotEarly (s : RealTimer) (e : TimerCall) : Prop :=
  (s.exec e).1 = true → ¬ s.time.before s.itValue

/-- The timer in the state of a run: a callout that waits is at the deadline or behind it. -/
structure RealTimer.Sound (s : RealTimer) : Prop where
  time : s.time.Proper
  value : s.itValue.Proper
  interval : s.itInterval.Proper ∧ 0 ≤ s.itInterval.tvSec ∧ s.itInterval.tvSec ≤ 100000000
  waits : ∀ t, s.callout = some t → s.itValue.micros ≤ s.time.micros + t * 10000

/-- The loop of `realitexpire` ends behind the current time, and at most an interval behind. -/
theorem reload_spec (fuel : ℕ) (htime : time.Proper) (hvalue : value.Proper)
    (hinterval : interval.Proper) (hpos : 0 < interval.micros)
    (hfuel : time.micros - value.micros < fuel) (hbehind : value.micros ≤ time.micros) :
    (reload time interval fuel value).Proper ∧
      time.micros < (reload time interval fuel value).micros ∧
      (reload time interval fuel value).micros ≤ time.micros + interval.micros := by
  induction fuel generalizing value with
  | zero => omega
  | succ fuel ih =>
    have hproper := timevaladd_proper hvalue hinterval
    have hsum := timevaladd_micros value interval
    rw [reload]
    split_ifs with hlater
    · rw [before_iff htime hproper] at hlater
      exact ⟨hproper, hlater, by omega⟩
    · rw [before_iff htime hproper] at hlater
      exact ih hproper (by omega) (by omega)

theorem micros_pos (hproper : tv.Proper) (hnonneg : 0 ≤ tv.tvSec) (hset : tv.isSet) :
    0 < tv.micros := by
  have hlow := hproper.usec_nonneg
  unfold Timeval.isSet at hset
  rw [decide_eq_true_eq] at hset
  unfold Timeval.micros
  omega

theorem zero_proper : Timeval.Proper ⟨0, 0⟩ := ⟨Int.le_refl 0, by decide⟩

/-- A deadline that a callout waits for. -/
theorem callout_waits (htime : time.Proper) (htv : tv.Proper) (hlater : time.micros < tv.micros)
    (hnear : tv.micros ≤ time.micros + 100000001000000) (hlasts : CalloutLasts time tv) {t : ℤ}
    (ht : some (calloutTicks (hzto time tv)) = some t) :
    tv.micros ≤ time.micros + t * 10000 := by
  cases ht
  refine (calloutTicks_reaches htime htv ((before_iff htime htv).mpr hlater) ?_).mpr hlasts
  have hlow := htime.usec_nonneg
  have hhigh := htime.usec_lt
  have hlow' := htv.usec_nonneg
  unfold Timeval.micros at hnear
  omega

variable {s : RealTimer}

theorem RealTimer.Sound.before (hsound : s.Sound) (hdue : s.due) :
    s.itValue.micros ≤ s.time.micros := by
  unfold RealTimer.due at hdue
  cases hcallout : s.callout with
  | none =>
    rw [hcallout] at hdue
    cases hdue
  | some t =>
    rw [hcallout, Option.any_some, decide_eq_true_eq] at hdue
    have hwaits := hsound.waits t hcallout
    omega

theorem RealTimer.Sound.hardclock (hsound : s.Sound) : (s.exec .hardclock).2.Sound where
  time := bumptime_proper hsound.time
  value := hsound.value
  interval := hsound.interval
  waits t ht := by
    obtain ⟨t', ht', rfl⟩ := Option.map_eq_some_iff.mp ht
    have hwaits := hsound.waits t' ht'
    change s.itValue.micros ≤ (bumptime s.time tick).micros + (t' - 1) * 10000
    rw [bumptime_micros]
    omega

theorem RealTimer.Sound.softclock (hsound : s.Sound) (hmeets : TimerCall.Meets s .softclock) :
    (s.exec .softclock).2.Sound := by
  by_cases hdue : s.due
  · have hexec : (s.exec .softclock).2 = s.realitexpire :=
      congrArg Prod.snd (if_pos hdue)
    rw [hexec, RealTimer.realitexpire]
    split_ifs with hset
    · have hbehind := hsound.before hdue
      have hpos := micros_pos hsound.interval.1 hsound.interval.2.1 hset
      have hspec := reload_spec (reloadFuel s.time s.itValue) hsound.time hsound.value
        hsound.interval.1 hpos (by unfold reloadFuel; omega) hbehind
      have hlasts : CalloutLasts s.time s.reloaded := hmeets _ (if_pos ⟨hdue, hset⟩)
      have hlow := hsound.interval.1.usec_lt
      have hhigh := hsound.interval.2.2
      have hnear : s.reloaded.micros ≤ s.time.micros + 100000001000000 := by
        have hinterval : s.itInterval.micros ≤ 100000001000000 := by
          unfold Timeval.micros
          omega
        exact hspec.2.2.trans (by omega)
      exact ⟨hsound.time, hspec.1, hsound.interval,
        fun t ht ↦ callout_waits hsound.time hspec.1 hspec.2.1 hnear hlasts ht⟩
    · exact ⟨hsound.time, zero_proper, hsound.interval, fun t ht ↦ by cases ht⟩
  · have hexec : (s.exec .softclock).2 = s := congrArg Prod.snd (if_neg hdue)
    rw [hexec]
    exact hsound

theorem fixBoth_spec {both : Timeval × Timeval} (hboth : fixBoth value interval = some both) :
    itimerfix value = some both.1 ∧ itimerfix interval = some both.2 := by
  unfold fixBoth at hboth
  cases hvalue : itimerfix value with
  | none =>
    rw [hvalue] at hboth
    cases hboth
  | some value' =>
    cases hinterval : itimerfix interval with
    | none =>
      rw [hvalue, hinterval] at hboth
      cases hboth
    | some interval' =>
      rw [hvalue, hinterval] at hboth
      cases hboth
      exact ⟨rfl, rfl⟩

theorem RealTimer.Sound.setitimer (hsound : s.Sound)
    (hmeets : TimerCall.Meets s (.setitimer value interval)) :
    (s.exec (.setitimer value interval)).2.Sound := by
  change ∀ tv, ((fixBoth value interval).bind fun both ↦
    if both.1.isSet then some (timevaladd both.1 s.time) else none) = some tv →
      CalloutLasts s.time tv at hmeets
  change (((fixBoth value interval).map fun both ↦ s.setitimer both.1 both.2).getD s).Sound
  cases hboth : fixBoth value interval with
  | none => exact hsound
  | some both =>
    rw [hboth, Option.bind_some] at hmeets
    obtain ⟨hvalue, hinterval⟩ := fixBoth_spec hboth
    obtain ⟨hproper, hnonneg, hle, -⟩ := itimerfix_spec hvalue
    obtain ⟨hproper', hnonneg', hle', -⟩ := itimerfix_spec hinterval
    change (s.setitimer both.1 both.2).Sound
    unfold RealTimer.setitimer
    split_ifs with hset
    · have hpos := micros_pos hproper hnonneg hset
      have hsum := timevaladd_micros both.1 s.time
      have hdeadline := timevaladd_proper hproper hsound.time
      have hlasts : CalloutLasts s.time (timevaladd both.1 s.time) := hmeets _ (if_pos hset)
      have hlow := hproper.usec_lt
      have hsmall : both.1.micros ≤ 100000001000000 := by
        unfold Timeval.micros
        omega
      exact ⟨hsound.time, hdeadline, ⟨hproper', hnonneg', hle'⟩, fun t ht ↦
        callout_waits hsound.time hdeadline (by omega) (by omega) hlasts ht⟩
    · exact ⟨hsound.time, hproper, ⟨hproper', hnonneg', hle'⟩, fun t ht ↦ by cases ht⟩

theorem RealTimer.Sound.exec (hsound : s.Sound) (e : TimerCall) (hmeets : e.Meets s) :
    (s.exec e).2.Sound := by
  cases e with
  | setitimer value interval => exact hsound.setitimer hmeets
  | hardclock => exact hsound.hardclock
  | softclock => exact hsound.softclock hmeets

theorem RealTimer.Sound.notEarly (hsound : s.Sound) (e : TimerCall) : e.NotEarly s := by
  intro hposts
  cases e with
  | setitimer value interval => cases hposts
  | hardclock => cases hposts
  | softclock =>
    by_cases hdue : s.due
    · have hbefore := hsound.before hdue
      rw [before_iff hsound.time hsound.value]
      omega
    · unfold RealTimer.exec at hposts
      rw [if_neg hdue] at hposts
      cases hposts

/-- A timer that is not set. -/
def RealTimer.idle (time : Timeval) : RealTimer := ⟨time, ⟨0, 0⟩, ⟨0, 0⟩, none⟩

theorem RealTimer.idle_sound (htime : time.Proper) : (RealTimer.idle time).Sound :=
  ⟨htime, zero_proper, ⟨zero_proper, Int.le_refl 0, (by decide : (0 : ℤ) ≤ 100000000)⟩,
    fun t ht ↦ by cases ht⟩

/-- In a run whose callouts all last to their deadlines, no `SIGALRM` is early. -/
theorem realitexpire_notEarly (htime : time.Proper) (calls : List TimerCall)
    (hmeets : Machine.Each RealTimer.exec (fun s e ↦ e.Meets s) calls (.idle time)) :
    Machine.Each RealTimer.exec (fun s e ↦ e.NotEarly s) calls (.idle time) :=
  Machine.each_of_invariant RealTimer.Sound (fun _ e hsound _ ↦ hsound.notEarly e)
    (fun _ e hsound hmeets ↦ hsound.exec e hmeets) calls (RealTimer.idle_sound htime) hmeets

theorem afterTicks_reaches (htime : time.Proper) (htv : tv.Proper) {t : ℤ} (ht : 0 ≤ t) :
    ¬ (afterTicks t.toNat time).before tv ↔ tv.micros ≤ time.micros + t * 10000 := by
  rw [before_iff (afterTicks_proper htime _) htv, afterTicks_micros, Int.toNat_of_nonneg ht]
  omega

/-- For a deadline ahead `hzto` gives at least one tick, and its ticks reach the deadline, exactly
when they last to it. `select` never calls `tsleep` without a timeout exactly when its deadline is a
whole tick away, or has passed, where it calls `hzto`. A callout for a deadline is not early exactly
when its ticks last, and a process whose callouts last gets no early `SIGALRM`. -/
theorem deadlines_exact (htime : time.Proper) :
    (∀ tv : Timeval, tv.Proper → time.before tv → tv.tvSec - time.tvSec < 2147483648 →
      ((1 ≤ hzto time tv ∧ ¬ (afterTicks (hzto time tv).toNat time).before tv ↔ Lasts time tv) ∧
        (¬ (afterTicks (calloutTicks (hzto time tv)).toNat time).before tv ↔
          CalloutLasts time tv))) ∧
    (∀ (tv : Timeval) (entered : ℕ), (∀ turns, 0 ∉ select tv time entered turns) ↔
      ∀ atv, itimerfix tv = some atv →
        TickAway (afterTicks entered time) (timevaladd atv time)) ∧
    ∀ calls, Machine.Each RealTimer.exec (fun s e ↦ e.Meets s) calls (.idle time) →
      Machine.Each RealTimer.exec (fun s e ↦ e.NotEarly s) calls (.idle time) := by
  refine ⟨fun tv htv hlater hlong ↦ ?_, fun tv entered ↦ select_remembers htime entered,
    fun calls hmeets ↦ realitexpire_notEarly htime calls hmeets⟩
  have hnonneg := hzto_nonneg htime htv hlater hlong
  have hticks : 0 ≤ calloutTicks (hzto time tv) := by
    unfold calloutTicks
    split_ifs <;> omega
  rw [afterTicks_reaches htime htv hnonneg, afterTicks_reaches htime htv hticks,
    ← hzto_reaches htime htv hlater hlong, calloutTicks_reaches htime htv hlater hlong]
  rw [before_iff htime htv] at hlater
  exact ⟨⟨And.right, fun hreached ↦ ⟨by omega, hreached⟩⟩, Iff.rfl⟩

/-- Two ticks last to a deadline in 20 milliseconds. -/
theorem deadlines_exact_twenty :
    1 ≤ hzto ⟨7, 0⟩ ⟨7, 20000⟩ ∧
      ¬ (afterTicks (hzto ⟨7, 0⟩ ⟨7, 20000⟩).toNat ⟨7, 0⟩).before ⟨7, 20000⟩ :=
  (((deadlines_exact (⟨by decide, by decide⟩ : Timeval.Proper ⟨7, 0⟩)).1 ⟨7, 20000⟩
    ⟨by decide, by decide⟩ (by decide) (by decide)).1).mpr (by unfold Lasts; decide)

/-- One tick does not last to a deadline in 15 milliseconds; `select` forgets its deadline if a tick
comes in front of `hzto`; and `SIGALRM` is early. -/
theorem deadline_fifteen :
    (¬ ∀ time tv : Timeval, time.Proper → tv.Proper → time.before tv →
      tv.tvSec - time.tvSec < 2147483648 →
        1 ≤ hzto time tv ∧ ¬ (afterTicks (hzto time tv).toNat time).before tv) ∧
    (¬ ∀ (tv time : Timeval) (entered : ℕ) (turns : List Turn), time.Proper →
      0 ∉ select tv time entered turns) ∧
    ¬ ∀ (time : Timeval) (calls : List TimerCall), time.Proper →
      Machine.Each RealTimer.exec (fun s e ↦ e.NotEarly s) calls (.idle time) := by
  have hproper : Timeval.Proper ⟨7, 0⟩ := ⟨by decide, by decide⟩
  refine ⟨fun hreaches ↦ ?_, fun hnever ↦ ?_, fun hlate ↦ ?_⟩
  · have hshort := hreaches ⟨7, 0⟩ ⟨7, 15000⟩ hproper ⟨by decide, by decide⟩ (by decide) (by decide)
    exact absurd hshort (by decide)
  · have hforgets := hnever ⟨0, 15000⟩ ⟨7, 0⟩ 1 [⟨false, 0, false, 0, false⟩] hproper
    exact absurd hforgets (by decide)
  · have hearly := hlate ⟨7, 0⟩ [.setitimer ⟨0, 15000⟩ ⟨0, 0⟩, .hardclock, .softclock] hproper
    exact hearly.2.2.1 (by decide) (by decide)

end Bsd386.Kern.Clock
