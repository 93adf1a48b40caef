import Bsd386.Lib.Calendar
import Bsd386.Lib.Machine
import Mathlib.Algebra.Ring.Nat
import Mathlib.Tactic.SplitIfs

/-!
# Times of DOS

`unix2dostime` and `dos2unixtime` of `dosfs/dosfs_conv.c`, which remember the last conversion in
static variables. An unsigned long has 32 bits, and so do the seconds of a `timeval`.
-/

namespace Bsd386.Dosfs.Conv

/-- `union dosdate`. -/
structure DosDate where
  day : BitVec 5
  month : BitVec 4
  year : BitVec 7
  deriving DecidableEq

/-- `union dostime`. -/
structure DosTime where
  twoSeconds : BitVec 5
  minutes : BitVec 6
  hours : BitVec 5
  deriving DecidableEq

/-- The static variables. -/
structure Statics where
  lasttime : BitVec 32
  lastday : ℕ
  lastddate : DosDate
  lastdtime : DosTime
  lastdosdate : DosDate
  lastseconds : BitVec 32

/-- The static variables when the system starts. -/
def boot : Statics := ⟨0, 0, ⟨0, 0, 0⟩, ⟨0, 0, 0⟩, ⟨0, 0, 0⟩, 0⟩

/-- `regyear`. -/
def regyear : List ℕ := [31, 28, 31, 30, 31, 30, 31, 31, 30, 31, 30, 31]

/-- `leapyear`. -/
def leapyear : List ℕ := [31, 29, 31, 30, 31, 30, 31, 31, 30, 31, 30, 31]

/-- `year & 0x03 ? 365 : 366`. -/
def inc (year : ℕ) : ℕ := if year &&& 0x03 ≠ 0 then 365 else 366

/-- `year & 0x03 ? regyear : leapyear`. -/
def months (year : ℕ) : List ℕ := if year &&& 0x03 ≠ 0 then regyear else leapyear

/-- The loop of `unix2dostime` over the years, which takes a day off at least in each turn. -/
def yearLoop : ℕ → ℕ → ℕ → ℕ × ℕ
  | 0, year, days => (year, days)
  | fuel + 1, year, days =>
    if days < inc year then (year, days) else yearLoop fuel (year + 1) (days - inc year)

/-- The loop over the months. -/
def monthLoop : List ℕ → ℕ → ℕ → ℕ × ℕ
  | [], month, days => (month, days)
  | n :: ns, month, days => if days < n then (month, days) else monthLoop ns (month + 1) (days - n)

/-- `lastddate` for a number of days. -/
def ddate (days : ℕ) : DosDate :=
  let year := yearLoop (days + 1) 1970 days
  let month := monthLoop (months year.1) 0 year.2
  { day := BitVec.ofNat 5 (month.2 + 1)
    month := BitVec.ofNat 4 (month.1 + 1)
    year := BitVec.ofNat 7 (if year.1 < 1980 then 0 else year.1 - 1980) }

/-- `lastdtime` for a number of seconds. -/
def dtime (seconds : ℕ) : DosTime where
  twoSeconds := BitVec.ofNat 5 (seconds % 60 / 2)
  minutes := BitVec.ofNat 6 (seconds / 60 % 60)
  hours := BitVec.ofNat 5 (seconds / (60 * 60) % 24)

/-- `unix2dostime` in a zone of so many minutes west of Greenwich. -/
def unix2dostime (minuteswest tvSec : BitVec 32) (s : Statics) : (DosDate × DosTime) × Statics :=
  if s.lasttime = tvSec then ((s.lastddate, s.lastdtime), s)
  else
    let lasttime := tvSec - minuteswest * 60
    let lastdtime := dtime lasttime.toNat
    let days := lasttime.toNat / (24 * 60 * 60)
    let lastddate := if days = s.lastday then s.lastddate else ddate days
    ((lastddate, lastdtime), { s with lasttime, lastday := days, lastddate, lastdtime })

/-- `SECONDSTO1980`. -/
def secondsto1980 : ℕ := (8 * 365 + 2 * 366) * (24 * 60 * 60)

/-- The loop of `dos2unixtime` over the years. -/
def daysOfYears (ddYear : ℕ) : ℕ := ((List.range ddYear).map inc).sum

/-- `lastseconds` for a date, of which month 0 counts as month 1. -/
def dosseconds (ddp : DosDate) : BitVec 32 :=
  let ddMonth := if ddp.month = 0 then 1 else ddp.month.toNat
  let days := daysOfYears ddp.year.toNat + ((months ddp.year.toNat).take (ddMonth - 1)).sum
  (BitVec.ofNat 32 days + ddp.day.setWidth 32 - 1) * (24 * 60 * 60) + BitVec.ofNat 32 secondsto1980

/-- `dos2unixtime`, with what it leaves of the date. -/
def dos2unixtime (minuteswest : BitVec 32) (ddp : DosDate) (dtp : DosTime) (s : Statics) :
    (BitVec 32 × DosDate) × Statics :=
  let seconds := dtp.twoSeconds.toNat * 2 + dtp.minutes.toNat * 60 + dtp.hours.toNat * 60 * 60
  let cached := s.lastdosdate = ddp
  let lastseconds := if cached then s.lastseconds else dosseconds ddp
  ((BitVec.ofNat 32 seconds + lastseconds + minuteswest * 60,
      if ¬cached ∧ ddp.month = 0 then { ddp with month := 1 } else ddp),
    { s with lastdosdate := ddp, lastseconds })

/-- The calls. -/
inductive Call
  | unix2dostime (tvSec : BitVec 32)
  | dos2unixtime (ddp : DosDate) (dtp : DosTime)

/-- What the calls store. -/
inductive Answer
  | dos (ddp : DosDate) (dtp : DosTime)
  | unix (tvSec : BitVec 32) (ddp : DosDate)
  deriving DecidableEq

/-- A call. -/
def step (minuteswest : BitVec 32) (s : Statics) : Call → Answer × Statics
  | .unix2dostime tvSec =>
    let r := unix2dostime minuteswest tvSec s
    (.dos r.1.1 r.1.2, r.2)
  | .dos2unixtime ddp dtp =>
    let r := dos2unixtime minuteswest ddp dtp s
    (.unix r.1.1 r.1.2, r.2)

end Bsd386.Dosfs.Conv

/-!
# Conversions do not depend on earlier ones

From 1980 to 2099 both conversions agree with the calendar. What is remembered of the last date is
right, but the time of the last conversion is compared with one of another zone.
-/

namespace Bsd386.Dosfs.Conv

open Calendar Machine

variable {days seconds month year fuel yr : ℕ} {d : DosDate} {tm : DosTime}
  {minuteswest : BitVec 32}
  {s : Statics} {call : Call}

/-! ## The calendar of the source -/

theorem and_three (year : ℕ) : year &&& 0x03 = year % 4 := Nat.and_two_pow_sub_one_eq_mod year 2

theorem inc_eq (hfirst : 1901 ≤ year) (hlast : year ≤ 2099) : inc year = daysInYear year := by
  have hleap := isLeap_iff hfirst hlast
  rw [inc, and_three, daysInYear]
  by_cases hyear : year % 4 = 0
  · rw [if_neg (not_not_intro hyear), if_pos (hleap.mpr hyear)]
  · rw [if_pos hyear, if_neg (fun h ↦ hyear (hleap.mp h))]

theorem months_eq (hfirst : 1901 ≤ year) (hlast : year ≤ 2099) :
    months year = (List.range' 1 12).map (daysInMonth year) := by
  have hleap := isLeap_iff hfirst hlast
  rw [months, and_three, map_daysInMonth]
  by_cases hyear : year % 4 = 0
  · rw [if_neg (not_not_intro hyear), if_pos (hleap.mpr hyear)]
    rfl
  · rw [if_pos hyear, if_neg (fun h ↦ hyear (hleap.mp h))]
    rfl

/-- The years of DOS begin with a leap year. -/
theorem and_three_add (yr : ℕ) : 1980 + yr &&& 0x03 = yr &&& 0x03 := by
  rw [and_three, and_three]
  omega

theorem yearLoop_spec (hfuel : days < fuel) (hfirst : 1970 ≤ year)
    (hlast : daysFrom 1970 year + days < daysFrom 1970 2100) :
    daysFrom 1970 (yearLoop fuel year days).1 + (yearLoop fuel year days).2 =
        daysFrom 1970 year + days ∧
      (yearLoop fuel year days).2 < daysInYear (yearLoop fuel year days).1 ∧
      year ≤ (yearLoop fuel year days).1 ∧ (yearLoop fuel year days).1 ≤ 2099 := by
  induction fuel generalizing year days with
  | zero => omega
  | succ fuel ih =>
    have hyear : year ≤ 2099 := by
      by_contra hafter
      have hmono := daysFrom_mono (by decide : 1970 ≤ 2100) (Nat.lt_of_not_le hafter)
      omega
    have hinc : inc year = daysInYear year := inc_eq (by omega) hyear
    rw [yearLoop]
    by_cases hlt : days < inc year
    · rw [if_pos hlt]
      exact ⟨rfl, hinc ▸ hlt, Nat.le_refl year, hyear⟩
    · have hpos : 0 < inc year := by
        rw [inc]
        split_ifs <;> decide
      have hsucc := daysFrom_succ hfirst
      rw [if_neg hlt]
      obtain ⟨hsum, hrest, hle, hbound⟩ := ih (by omega : days - inc year < fuel)
        (by omega : 1970 ≤ year + 1) (by omega)
      exact ⟨by omega, hrest, by omega, hbound⟩

theorem monthLoop_spec {l : List ℕ} (hdays : days < l.sum) : ∃ j, ∃ hj : j < l.length,
    (monthLoop l month days).1 = month + j ∧ (monthLoop l month days).2 < l[j] ∧
      (l.take j).sum + (monthLoop l month days).2 = days := by
  induction l generalizing month days with
  | nil => exact absurd hdays (Nat.not_lt_zero _)
  | cons n ns ih =>
    rw [monthLoop]
    by_cases hlt : days < n
    · rw [if_pos hlt]
      exact ⟨0, Nat.succ_pos _, rfl, hlt, Nat.zero_add _⟩
    · rw [if_neg hlt]
      rw [List.sum_cons] at hdays
      obtain ⟨j, hj, hmonth, hday, hsum⟩ := @ih (days - n) (month + 1) (by omega)
      refine ⟨j + 1, Nat.succ_lt_succ hj, by omega, hday, ?_⟩
      rw [List.take_succ_cons, List.sum_cons]
      omega

/-! ## Dates -/

/-- A date from 1980 to 2099. -/
structure DosDate.Valid (d : DosDate) : Prop where
  year : d.year.toNat ≤ 119
  month_pos : 1 ≤ d.month.toNat
  month_le : d.month.toNat ≤ 12
  day_pos : 1 ≤ d.day.toNat
  day_le : d.day.toNat ≤ daysInMonth (1980 + d.year.toNat) d.month.toNat

/-- The number of the day of a date. -/
def DosDate.number (d : DosDate) : ℕ :=
  dayNumber (1980 + d.year.toNat) d.month.toNat d.day.toNat

theorem daysFrom_1980 : daysFrom 1970 1980 = 3652 := by decide

theorem daysFrom_2100 : daysFrom 1970 2100 = 47482 := by decide +kernel

theorem daysInMonth_le (year month : ℕ) : daysInMonth year month ≤ 31 := by
  rw [daysInMonth]
  split_ifs <;> decide

/-- The loops of `unix2dostime` find the date. -/
theorem ddate_spec (hfirst : 3652 ≤ days) (hlast : days < 47482) :
    (ddate days).Valid ∧ (ddate days).number = days := by
  obtain ⟨hsum, hrest, hyear, hbound⟩ := yearLoop_spec (Nat.lt_succ_self days) (Nat.le_refl 1970)
    (by rw [daysFrom_self, daysFrom_2100]; omega)
  rw [daysFrom_self, Nat.zero_add] at hsum
  generalize hyears : yearLoop (days + 1) 1970 days = years at hsum hrest hyear hbound
  have hafter : 1980 ≤ years.1 := by
    by_contra hbefore
    have hsucc := daysFrom_succ hyear
    have hmono : daysFrom 1970 (years.1 + 1) ≤ daysFrom 1970 1980 :=
      daysFrom_mono (Nat.le_succ_of_le hyear) (Nat.lt_of_not_le hbefore)
    rw [daysFrom_1980] at hmono
    omega
  have hmonths := months_eq (by omega) hbound
  have hsumMonths := sum_daysInMonth years.1
  rw [← hmonths] at hsumMonths
  obtain ⟨j, hj, hmonth, hday, htake⟩ :=
    @monthLoop_spec years.2 0 _ (hsumMonths ▸ hrest)
  generalize hmonthLoop : monthLoop (months years.1) 0 years.2 = found at hmonth hday htake
  have hlength : (months years.1).length = 12 := by
    rw [hmonths]
    rfl
  have hj12 : j < 12 := hlength ▸ hj
  have hlt : found.2 < daysInMonth years.1 (j + 1) := by
    simp only [hmonths, List.getElem_map, List.getElem_range'] at hday
    rw [Nat.one_mul, Nat.add_comm 1 j] at hday
    exact hday
  have hle := daysInMonth_le years.1 (j + 1)
  rw [hmonths, sum_take_daysInMonth years.1 (Nat.le_of_lt hj12)] at htake
  have hdd : ddate days = ⟨BitVec.ofNat 5 (found.2 + 1), BitVec.ofNat 4 (j + 1),
      BitVec.ofNat 7 (years.1 - 1980)⟩ := by
    rw [ddate, hyears, hmonthLoop, hmonth, if_neg (Nat.not_lt.mpr hafter), Nat.zero_add]
  have hddYear : (ddate days).year.toNat = years.1 - 1980 := by
    rw [hdd, BitVec.toNat_ofNat, Nat.mod_eq_of_lt (by omega)]
  have hddMonth : (ddate days).month.toNat = j + 1 := by
    rw [hdd, BitVec.toNat_ofNat, Nat.mod_eq_of_lt (by omega)]
  have hddDay : (ddate days).day.toNat = found.2 + 1 := by
    rw [hdd, BitVec.toNat_ofNat, Nat.mod_eq_of_lt (by omega)]
  constructor
  · refine ⟨by omega, by omega, by omega, by omega, ?_⟩
    rw [hddYear, hddMonth, hddDay, Nat.add_sub_cancel' hafter]
    exact hlt
  · rw [DosDate.number, dayNumber, hddYear, hddMonth, hddDay, Nat.add_sub_cancel' hafter,
      Nat.add_sub_cancel]
    omega

theorem daysOfYears_eq (hyear : yr ≤ 120) : 3652 + daysOfYears yr = daysFrom 1970 (1980 + yr) := by
  induction yr with
  | zero => exact daysFrom_1980.symm
  | succ yr ih =>
    have hinc : inc yr = daysInYear (1980 + yr) := by
      rw [← inc_eq (by omega) (by omega), inc, inc, and_three_add]
    rw [daysOfYears, List.range_succ, List.map_append, List.sum_append, ← daysOfYears,
      ← Nat.add_assoc 1980, daysFrom_succ (by omega), ← ih (by omega), Nat.add_assoc, List.map_cons,
      List.map_nil, List.sum_singleton, hinc]

/-- The loops of `dos2unixtime` find the number of the day. -/
theorem dosseconds_eq (hvalid : d.Valid) : dosseconds d = BitVec.ofNat 32 (d.number * 86400) := by
  obtain ⟨hyear, hmonth, hmonth', hday, hday'⟩ := hvalid
  have hmonths : months d.year.toNat =
      (List.range' 1 12).map (daysInMonth (1980 + d.year.toNat)) := by
    rw [← months_eq (by omega) (by omega), months, months, and_three_add]
  have hzero : d.month ≠ 0 := by
    rintro hzero
    rw [hzero] at hmonth
    exact absurd hmonth (by decide)
  have hyears := daysOfYears_eq (Nat.le_succ_of_le hyear)
  rw [dosseconds, if_neg hzero]
  rw [hmonths, sum_take_daysInMonth _ (by omega), Nat.sub_add_cancel hmonth]
  have hnumber : d.number = 3652 + (daysOfYears d.year.toNat +
      daysBeforeMonth (1980 + d.year.toNat) d.month.toNat) + (d.day.toNat - 1) := by
    rw [DosDate.number, dayNumber, ← hyears, Nat.add_assoc 3652]
  generalize daysOfYears d.year.toNat + daysBeforeMonth (1980 + d.year.toNat) d.month.toNat = n
    at hnumber ⊢
  have hday : BitVec.ofNat 32 n + d.day.setWidth 32 - 1 = BitVec.ofNat 32
    (n + (d.day.toNat - 1)) := by
    apply BitVec.eq_of_toNat_eq
    change (BitVec.ofNat 32 n + d.day.setWidth 32 - BitVec.ofNat 32 1).toNat = _
    simp only [BitVec.toNat_add, BitVec.toNat_sub, BitVec.toNat_ofNat, BitVec.toNat_setWidth]
    omega
  have hscale : (24 * 60 * 60 : BitVec 32) = BitVec.ofNat 32 86400 := rfl
  have hsum : (n + (d.day.toNat - 1)) * 86400 + secondsto1980 = d.number * 86400 := by
    rw [hnumber, secondsto1980]
    omega
  rw [hday, hscale, ← BitVec.ofNat_mul, ← BitVec.ofNat_add, hsum]

/-! ## Stamps -/

/-- A date and a time stand for a number of seconds in the local zone, except that an odd second
counts as the one before. -/
structure Denotes (d : DosDate) (tm : DosTime) (seconds : ℕ) : Prop where
  valid : d.Valid
  number : d.number = seconds / (24 * 60 * 60)
  hours : tm.hours.toNat = seconds / (60 * 60) % 24
  minutes : tm.minutes.toNat = seconds / 60 % 60
  twoSeconds : tm.twoSeconds.toNat = seconds % 60 / 2

/-- The seconds from 1980 to 2099. -/
def InRange (seconds : ℕ) : Prop := secondsto1980 ≤ seconds ∧ seconds < 47482 * (24 * 60 * 60)

theorem denotes_stamp (hrange : InRange seconds) :
    Denotes (ddate (seconds / (24 * 60 * 60))) (dtime seconds) seconds := by
  obtain ⟨hfirst, hlast⟩ := hrange
  rw [secondsto1980] at hfirst
  obtain ⟨hvalid, hnumber⟩ := ddate_spec (by omega : 3652 ≤ seconds / (24 * 60 * 60)) (by omega)
  refine ⟨hvalid, hnumber, ?_, ?_, ?_⟩
  · rw [dtime, BitVec.toNat_ofNat, Nat.mod_eq_of_lt (by omega)]
  · rw [dtime, BitVec.toNat_ofNat, Nat.mod_eq_of_lt (by omega)]
  · rw [dtime, BitVec.toNat_ofNat, Nat.mod_eq_of_lt (by omega)]

/-- The seconds of a stamp from DOS. -/
def dosLocal (d : DosDate) (tm : DosTime) : BitVec 32 :=
  BitVec.ofNat 32 (tm.twoSeconds.toNat * 2 + tm.minutes.toNat * 60 + tm.hours.toNat * 60 * 60) +
    dosseconds d

theorem Denotes.dosLocal_eq (hdenotes : Denotes d tm seconds) :
    dosLocal d tm = BitVec.ofNat 32 (seconds - seconds % 2) := by
  rw [dosLocal, dosseconds_eq hdenotes.valid, hdenotes.number, hdenotes.hours, hdenotes.minutes,
    hdenotes.twoSeconds, ← BitVec.ofNat_add]
  apply congrArg (BitVec.ofNat 32)
  omega

/-! ## Calls -/

/-- The seconds in the local zone. -/
def localTime (minuteswest tvSec : BitVec 32) : ℕ := (tvSec - minuteswest * 60).toNat

/-- The conversions of dates from 1980 to 2099. -/
def Call.InRange (minuteswest : BitVec 32) : Call → Prop
  | .unix2dostime tvSec => Conv.InRange (localTime minuteswest tvSec)
  | .dos2unixtime ddp _ => ddp.Valid

/-- The answer tells the calendar date and the time in the local zone, and its inverse is the time
without an odd second. -/
def Inverts (minuteswest : BitVec 32) (answer : Answer) : Call → Prop
  | .unix2dostime tvSec => ∃ d tm, answer = .dos d tm ∧ Denotes d tm (localTime minuteswest tvSec) ∧
      (dos2unixtime minuteswest d tm boot).1.1 =
        tvSec - BitVec.ofNat 32 (localTime minuteswest tvSec % 2)
  | .dos2unixtime _ _ => True

/-- What is to hold of a call: it answers as the first one does, and rightly. -/
def Right (minuteswest : BitVec 32) (s : Statics) (call : Call) : Prop :=
  (step minuteswest s call).1 = (step minuteswest boot call).1 ∧
    Inverts minuteswest (step minuteswest s call).1 call

/-- In a zone other than Greenwich, a time is not converted that the last one was adjusted to. -/
def Fresh (minuteswest : BitVec 32) (s : Statics) : Call → Prop
  | .unix2dostime tvSec => tvSec ≠ 0 ∧ (s.lasttime = tvSec → minuteswest * 60 = 0)
  | .dos2unixtime _ _ => True

/-- The static variables remember conversions. -/
structure Inv (s : Statics) : Prop where
  stamp : s.lasttime = 0 ∧ s.lastday = 0 ∧ s.lastddate = ⟨0, 0, 0⟩ ∨
    InRange s.lasttime.toNat ∧ s.lastday = s.lasttime.toNat / (24 * 60 * 60) ∧
      s.lastddate = ddate s.lastday ∧ s.lastdtime = dtime s.lasttime.toNat
  dos : s.lastdosdate = ⟨0, 0, 0⟩ ∨ s.lastseconds = dosseconds s.lastdosdate

theorem inv_boot : Inv boot := ⟨Or.inl ⟨rfl, rfl, rfl⟩, Or.inl rfl⟩

theorem not_valid_zero : ¬DosDate.Valid ⟨0, 0, 0⟩ := fun h ↦ absurd h.month_pos (by decide)

theorem DosDate.Valid.ne_zero (hvalid : d.Valid) : d ≠ ⟨0, 0, 0⟩ := fun h ↦
  not_valid_zero (h ▸ hvalid)

/-- A conversion to DOS that is computed. -/
theorem unix2dostime_computed (hinv : Inv s) {tvSec : BitVec 32} (hne : s.lasttime ≠ tvSec)
    (hrange : InRange (localTime minuteswest tvSec)) :
    (unix2dostime minuteswest tvSec s).1 = (ddate (localTime minuteswest tvSec / (24 * 60 * 60)),
        dtime (localTime minuteswest tvSec)) ∧
      Inv (unix2dostime minuteswest tvSec s).2 := by
  have hdate : (if localTime minuteswest tvSec / (24 * 60 * 60) = s.lastday then s.lastddate
      else ddate (localTime minuteswest tvSec / (24 * 60 * 60))) =
        ddate (localTime minuteswest tvSec / (24 * 60 * 60)) := by
    split_ifs with hday
    · rcases hinv.stamp with ⟨-, hzero, -⟩ | ⟨-, -, hddate, -⟩
      · have hfirst := hrange.1
        rw [secondsto1980] at hfirst
        omega
      · rw [hddate, hday]
    · rfl
  rw [unix2dostime, if_neg hne]
  refine ⟨Prod.ext hdate rfl, Or.inr ⟨hrange, rfl, hdate, rfl⟩, hinv.dos⟩

/-- A conversion from DOS. -/
theorem dos2unixtime_eq (hinv : Inv s) (hvalid : d.Valid) :
    (dos2unixtime minuteswest d tm s).1 = (dosLocal d tm + minuteswest * 60, d) ∧
      Inv (dos2unixtime minuteswest d tm s).2 := by
  have hmonth : d.month ≠ 0 := by
    rintro hzero
    have hpos := hvalid.month_pos
    rw [hzero] at hpos
    exact absurd hpos (by decide)
  have hseconds : (if s.lastdosdate = d then s.lastseconds else dosseconds d) = dosseconds d := by
    split_ifs with hsame
    · rcases hinv.dos with hzero | hlast
      · exact absurd (hsame.symm.trans hzero) hvalid.ne_zero
      · rw [hlast, hsame]
    · rfl
  rw [dos2unixtime]
  refine ⟨Prod.ext ?_ (if_neg fun h ↦ hmonth h.2), hinv.stamp, Or.inr hseconds⟩
  change _ + (if s.lastdosdate = d then s.lastseconds else dosseconds d) + _ = _
  rw [hseconds]
  rfl

/-- The inverse of a stamp. -/
theorem Denotes.inverse {tvSec : BitVec 32}
    (hdenotes : Denotes d tm (localTime minuteswest tvSec)) :
    (dos2unixtime minuteswest d tm boot).1.1 =
      tvSec - BitVec.ofNat 32 (localTime minuteswest tvSec % 2) := by
  rw [(dos2unixtime_eq inv_boot hdenotes.valid).1, hdenotes.dosLocal_eq, localTime]
  dsimp only
  generalize minuteswest * 60 = off
  have hround (x : BitVec 32) :
      BitVec.ofNat 32 (x.toNat - x.toNat % 2) = x - BitVec.ofNat 32 (x.toNat % 2) := by
    apply BitVec.eq_of_toNat_eq
    rw [BitVec.toNat_sub, BitVec.toNat_ofNat, BitVec.toNat_ofNat]
    omega
  rw [hround]
  grind

theorem zone_mod_four (minuteswest : BitVec 32) : (minuteswest * 60).toNat % 4 = 0 := by
  have hmul : (minuteswest * 60).toNat = minuteswest.toNat * 60 % 4294967296 :=
    BitVec.toNat_mul minuteswest 60
  omega

/-- Two times a multiple of four seconds apart are the same when their even seconds are. -/
theorem eq_zero_of_round_eq {a off : BitVec 32} (hfour : off.toNat % 4 = 0)
    (hround : BitVec.ofNat 32 (a.toNat - a.toNat % 2) =
      BitVec.ofNat 32 ((a - off).toNat - (a - off).toNat % 2)) : off = 0 := by
  have hnat := congrArg BitVec.toNat hround
  rw [BitVec.toNat_ofNat, BitVec.toNat_ofNat] at hnat
  have hsub : (a - off).toNat = (2 ^ 32 - off.toNat + a.toNat) % 2 ^ 32 := BitVec.toNat_sub a off
  have ha := a.isLt
  have hoff := off.isLt
  generalize (a - off).toNat = b at hnat hsub
  have heven : a.toNat - a.toNat % 2 = b - b % 2 := by omega
  apply BitVec.eq_of_toNat_eq
  change off.toNat = 0
  omega

/-- A time that is not fresh is converted wrongly. -/
theorem not_right_of_not_fresh (hinv : Inv s) {tvSec : BitVec 32}
    (hfresh : ¬Fresh minuteswest s (.unix2dostime tvSec)) :
    ¬Right minuteswest s (.unix2dostime tvSec) := by
  rintro ⟨hfirst, d, tm, hanswer, hdenotes, -⟩
  by_cases hzero : tvSec = 0
  · rw [hanswer, hzero] at hfirst
    have hd : d = ⟨0, 0, 0⟩ := by
      cases hfirst
      rfl
    exact not_valid_zero (hd ▸ hdenotes.valid)
  rw [Fresh, not_and] at hfresh
  have hcached := hfresh hzero
  rw [Classical.not_imp] at hcached
  obtain ⟨hlast, hzone⟩ := hcached
  rw [step, unix2dostime, if_pos hlast] at hanswer
  obtain ⟨rfl, rfl⟩ : s.lastddate = d ∧ s.lastdtime = tm := by
    cases hanswer
    exact ⟨rfl, rfl⟩
  rcases hinv.stamp with ⟨-, -, hddate⟩ | ⟨hrange', hday, hddate, hdtime⟩
  · exact not_valid_zero (hddate ▸ hdenotes.valid)
  · have hstamp := denotes_stamp hrange'
    rw [← hday, ← hddate, ← hdtime] at hstamp
    have hsame := hstamp.dosLocal_eq.symm.trans hdenotes.dosLocal_eq
    rw [hlast, localTime] at hsame
    exact hzone (eq_zero_of_round_eq (zone_mod_four minuteswest) hsame)

theorem unix2dostime_lasttime {tvSec : BitVec 32} (hlast : s.lasttime ≠ tvSec) :
    (unix2dostime minuteswest tvSec s).2.lasttime = tvSec - minuteswest * 60 := by
  rw [unix2dostime, if_neg hlast]

/-- Each call is as it is to be exactly when its time is fresh. -/
theorem right_iff (hinv : Inv s) (hrange : call.InRange minuteswest) :
    Right minuteswest s call ↔ Fresh minuteswest s call := by
  cases call with
  | unix2dostime tvSec =>
    refine ⟨fun hright ↦ by_contra fun hfresh ↦ not_right_of_not_fresh hinv hfresh hright,
      fun hfresh ↦ ?_⟩
    have hboot := (unix2dostime_computed inv_boot hfresh.1.symm hrange).1
    have hdenotes := denotes_stamp hrange
    have hanswer : (unix2dostime minuteswest tvSec s).1 =
        (ddate (localTime minuteswest tvSec / (24 * 60 * 60)),
          dtime (localTime minuteswest tvSec)) := by
      by_cases hlast : s.lasttime = tvSec
      · have htime : localTime minuteswest tvSec = s.lasttime.toNat := by
          have hzone : tvSec - 0 = tvSec := BitVec.sub_zero tvSec
          rw [localTime, hfresh.2 hlast, hzone, hlast]
        rw [unix2dostime, if_pos hlast, htime]
        rcases hinv.stamp with ⟨hzero, -⟩ | ⟨-, hday, hddate, hdtime⟩
        · exact absurd (hlast.symm.trans hzero) hfresh.1
        · rw [← hday, ← hddate, ← hdtime]
      · exact (unix2dostime_computed hinv hlast hrange).1
    refine ⟨?_, _, _, rfl, ?_, ?_⟩
    · rw [step, step, hanswer, hboot]
    · rw [hanswer]
      exact hdenotes
    · rw [hanswer]
      exact hdenotes.inverse
  | dos2unixtime ddp dtp =>
    refine iff_of_true ⟨?_, trivial⟩ trivial
    rw [step, step, (dos2unixtime_eq hinv hrange).1, (dos2unixtime_eq inv_boot hrange).1]

/-- A fresh call keeps the invariant. -/
theorem Inv.step (hinv : Inv s) (hrange : call.InRange minuteswest) :
    Inv (step minuteswest s call).2 := by
  cases call with
  | unix2dostime tvSec =>
    by_cases hlast : s.lasttime = tvSec
    · rw [Conv.step, unix2dostime, if_pos hlast]
      exact hinv
    · exact (unix2dostime_computed hinv hlast hrange).2
  | dos2unixtime ddp dtp =>
    have hkeeps : Inv (dos2unixtime minuteswest ddp dtp s).2 := (dos2unixtime_eq hinv hrange).2
    exact hkeeps

/-- In a run of conversions of dates from 1980 to 2099 all calls are as they are to be exactly when
all times are fresh. -/
theorem conversions_exact (minuteswest : BitVec 32) (calls : List Call)
    (hrange : ∀ call ∈ calls, call.InRange minuteswest) :
    Each (step minuteswest) (Right minuteswest) calls boot ↔
      Each (step minuteswest) (Fresh minuteswest) calls boot :=
  each_iff Inv (fun _ _ hinv hcall ↦ right_iff hinv hcall) (fun _ _ hinv hcall _ ↦ hinv.step hcall)
    calls inv_boot (each_of_mem (fun call hcall _ ↦ hrange call hcall) boot)

/-! ## Two times of a summer -/

/-- The first of July 1994 at noon in Greenwich. -/
def noon : BitVec 32 := 773064000

theorem inRange_noon : ∀ t ∈ [noon - 3600, noon + 3600], InRange (localTime 60 t) := by
  intro t ht
  rcases List.mem_pair.mp ht with rfl | rfl
  · exact ⟨by decide, by decide⟩
  · exact ⟨by decide, by decide⟩

theorem lasttime_noon : (step 60 boot (.unix2dostime (noon - 3600))).2.lasttime = noon - 7200 :=
  unix2dostime_lasttime (by decide)

/-- An hour earlier and an hour later, in a zone an hour west of Greenwich. -/
theorem conversions_exact_hour : Each (step 60) (Right 60)
    [.unix2dostime (noon - 3600), .unix2dostime (noon + 3600)] boot := by
  refine (conversions_exact 60 _ ?_).mpr ⟨⟨by decide, fun h ↦ absurd h (by decide)⟩,
    ⟨by decide, fun h ↦ absurd (lasttime_noon.symm.trans h) (by decide)⟩, trivial⟩
  intro call hcall
  rcases List.mem_pair.mp hcall with rfl | rfl
  · exact inRange_noon _ List.mem_cons_self
  · exact inRange_noon _ (List.mem_cons_of_mem _ List.mem_cons_self)

/-- A time an hour before the last one is given the stamp of the last one there. -/
theorem stale_stamp : ¬Each (step 60) (Right 60)
    [.unix2dostime noon, .unix2dostime (noon - 3600)] boot := by
  rintro ⟨-, ⟨hfirst, -⟩, -⟩
  exact absurd hfirst (by decide)

end Bsd386.Dosfs.Conv
