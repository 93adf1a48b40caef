import Bsd386.Lib.Machine
import Mathlib.Algebra.Ring.Int.Defs
import Mathlib.Data.Nat.Basic
import Mathlib.Tactic.SplitIfs

/-!
# User priorities

`schedcpu`, `updatepri` and `setpri` of `kern/synch.c` and the part of `hardclock` that charges a
tick to the running process, as far as they are about `p_cpu`, `p_slptime` and `p_usrpri`. The
estimator is a `u_int` and the nice value a signed `char`, and their sum is an unsigned number.
-/

namespace Bsd386.Kern.Sched

/-- The value that a `u_int` keeps. -/
def uint (i : ℤ) : ℕ := (i % 4294967296).toNat

/-- `FSCALE`. -/
def fscale : ℕ := 2048

/-- `PUSER`. -/
def puser : ℕ := 50

/-- `MAXPRI`. -/
def maxpri : ℕ := 127

/-- `UCHAR_MAX`. -/
def ucharMax : ℕ := 255

/-- The fields of `struct proc`, with whether `p_stat` is `SSLEEP` or `SSTOP`. -/
structure Proc where
  pCpu : ℕ
  pNice : ℤ
  pSlptime : ℕ
  pUsrpri : ℕ
  asleep : Bool
  deriving DecidableEq, Repr

/-- `loadfactor`. -/
def loadfactor (loadav : ℕ) : ℕ := uint (2 * loadav)

/-- `decay_cpu`. -/
def decayCpu (loadfac cpu : ℕ) : ℕ := uint (loadfac * cpu) / uint (loadfac + fscale)

/-- `newpri` of `setpri`. -/
def newpri (cpu : ℕ) (nice : ℤ) : ℕ := min (uint (puser + (cpu / 4 : ℕ) + 2 * nice)) maxpri

/-- `setpri`. -/
def Proc.setpri (p : Proc) : Proc := { p with pUsrpri := newpri p.pCpu p.pNice }

/-- The sleep time that `schedcpu` counts. -/
def Proc.slept (p : Proc) : ℕ := if p.asleep then uint (p.pSlptime + 1) else p.pSlptime

/-- `newcpu` of `schedcpu`. -/
def Proc.newcpu (p : Proc) (load : ℕ) : ℕ :=
  uint (decayCpu (loadfactor load) p.pCpu + p.pNice)

/-- The turn of `schedcpu` for a process. -/
def Proc.schedcpu (p : Proc) (load : ℕ) : Proc :=
  if 1 < p.slept then { p with pSlptime := p.slept }
  else Proc.setpri { p with pSlptime := p.slept, pCpu := min (p.newcpu load) ucharMax }

/-- The loop of `updatepri` with `p_slptime`. -/
def decayLoop (loadfac : ℕ) : ℕ → ℕ → ℕ
  | 0, newcpu => newcpu
  | slptime + 1, newcpu =>
    if newcpu = 0 ∨ slptime = 0 then newcpu
    else decayLoop loadfac slptime (decayCpu loadfac newcpu)

/-- `updatepri` for a process with a `p_slptime` of at least 2, which its callers set to 0. -/
def Proc.updatepri (p : Proc) (load : ℕ) : Proc :=
  if uint (5 * loadfactor load) < p.pSlptime then Proc.setpri { p with pCpu := 0 }
  else
    Proc.setpri
      { p with pCpu := min (decayLoop (loadfactor load) (p.pSlptime - 1) p.pCpu) ucharMax }

/-- `setrun`, and the part of `wakeup` that does the same. -/
def Proc.setrun (p : Proc) (load : ℕ) : Proc :=
  if 1 < p.pSlptime then { p.updatepri load with pSlptime := 0, asleep := false }
  else { p with pSlptime := 0, asleep := false }

/-- The estimator after a tick. -/
def ticked (cpu : ℕ) : ℕ := if uint (cpu + 1) = 0 then cpu else cpu + 1

/-- A tick of `hardclock` for the running process. -/
def Proc.hardclock (p : Proc) : Proc :=
  if ticked p.pCpu % 4 = 0 then Proc.setpri { p with pCpu := ticked p.pCpu }
  else { p with pCpu := ticked p.pCpu }

/-- What happens to a process. -/
inductive Event
  | hardclock
  | schedcpu (load : ℕ)
  | tsleep
  | stop
  | setrun (load : ℕ)
  | setpri

/-- One event. Ticks and calls of `tsleep` are those of a process that runs, and `setrun` is for one
that does not. -/
def Proc.exec (p : Proc) : Event → Proc
  | .hardclock => if p.asleep then p else p.hardclock
  | .schedcpu load => p.schedcpu load
  | .tsleep => if p.asleep then p else { p with pSlptime := 0, asleep := true }
  | .stop => { p with asleep := true }
  | .setrun load => if p.asleep then p.setrun load else p
  | .setpri => p.setpri

/-- A running process with an estimator and a nice value. -/
def Proc.start (cpu : ℕ) (nice : ℤ) : Proc := Proc.setpri ⟨cpu, nice, 0, 0, false⟩

/-- The events of two processes that have the same history. -/
def exec (s : Proc × Proc) (e : Event) : Unit × (Proc × Proc) :=
  ((), s.1.exec e, s.2.exec e)

/-- A process that keeps its range. -/
def Proc.InRange (p : Proc) (e : Event) : Prop :=
  p.pUsrpri ≤ maxpri ∧ ∀ load, e = .schedcpu load → p.pCpu ≤ ucharMax

/-- What is promised of the state behind an event. -/
def Fair (s : Proc × Proc) (e : Event) : Prop :=
  (exec s e).2.1.pUsrpri ≤ (exec s e).2.2.pUsrpri ∧
    (exec s e).2.1.InRange e ∧ (exec s e).2.2.InRange e

/-- A load with which the products of `decay_cpu` fit a `u_long`. -/
def Fits (load cpu : ℕ) : Prop :=
  2 * load + fscale < 4294967296 ∧ 2 * load * cpu < 4294967296

/-- The estimator has fallen below a negative nice value. -/
def Proc.Below (p : Proc) (load : ℕ) : Prop :=
  (decayCpu (loadfactor load) p.pCpu : ℤ) + p.pNice < 0

instance (p : Proc) (load : ℕ) : Decidable (p.Below load) :=
  inferInstanceAs (Decidable (_ < _))

/-- The condition on the steps: loads that fit, and no estimator of the first process alone that
falls below its nice value where `schedcpu` adds it. -/
def Regular (s : Proc × Proc) : Event → Prop
  | .schedcpu load =>
    Fits load s.1.pCpu ∧ Fits load s.2.pCpu ∧
      (s.1.slept ≤ 1 → s.1.Below load → s.2.Below load)
  | .setrun load => Fits load s.1.pCpu ∧ Fits load s.2.pCpu
  | _ => True

/-! ## The formulas -/

variable {p a b : Proc} {load cpu cpu' : ℕ} {nice nice' : ℤ}

theorem uint_eq {i : ℤ} (hlow : 0 ≤ i) (hhigh : i < 4294967296) : (uint i : ℤ) = i := by
  unfold uint
  omega

theorem uint_natCast {n : ℕ} (hlt : n < 4294967296) : uint n = n := by
  unfold uint
  omega

theorem newpri_le (cpu : ℕ) (nice : ℤ) : newpri cpu nice ≤ maxpri :=
  Nat.min_le_right _ _

/-- A higher estimator or nice value gives no better priority. -/
theorem newpri_mono (hcpu : cpu ≤ cpu') (hnice : nice ≤ nice') (hlow : -20 ≤ nice)
    (hhigh : nice' ≤ 20) (hlt : cpu' < 4294967296) : newpri cpu nice ≤ newpri cpu' nice' := by
  have hfirst : (uint (puser + (cpu / 4 : ℕ) + 2 * nice) : ℤ) = puser + (cpu / 4 : ℕ) + 2 * nice :=
    uint_eq (by unfold puser; omega) (by unfold puser; omega)
  have hsecond :
      (uint (puser + (cpu' / 4 : ℕ) + 2 * nice') : ℤ) = puser + (cpu' / 4 : ℕ) + 2 * nice' :=
    uint_eq (by unfold puser; omega) (by unfold puser; omega)
  unfold newpri
  omega

theorem loadfactor_eq (hfits : Fits load cpu) : loadfactor load = 2 * load := by
  have hsum := hfits.1
  exact uint_natCast (n := 2 * load) (by omega)

theorem Fits.mono (hfits : Fits load cpu') (hle : cpu ≤ cpu') : Fits load cpu :=
  ⟨hfits.1, Nat.lt_of_le_of_lt (Nat.mul_le_mul_left _ hle) hfits.2⟩

theorem decayCpu_eq (hfits : Fits load cpu) :
    decayCpu (loadfactor load) cpu = 2 * load * cpu / (2 * load + fscale) := by
  have hnum : uint ((2 * load : ℕ) * cpu : ℤ) = 2 * load * cpu := by
    rw [← Int.natCast_mul]
    exact uint_natCast hfits.2
  have hden : uint ((2 * load : ℕ) + (fscale : ℕ) : ℤ) = 2 * load + fscale := by
    rw [← Int.natCast_add]
    exact uint_natCast hfits.1
  unfold decayCpu
  rw [loadfactor_eq hfits, hnum, hden]

theorem decayCpu_mono (hfits : Fits load cpu') (hle : cpu ≤ cpu') :
    decayCpu (loadfactor load) cpu ≤ decayCpu (loadfactor load) cpu' := by
  rw [decayCpu_eq (hfits.mono hle), decayCpu_eq hfits]
  exact Nat.div_le_div_right (Nat.mul_le_mul_left _ hle)

theorem decayCpu_le (hfits : Fits load cpu) : decayCpu (loadfactor load) cpu ≤ cpu := by
  rw [decayCpu_eq hfits]
  apply Nat.div_le_of_le_mul
  exact Nat.mul_le_mul_right cpu (Nat.le_add_right _ _)

theorem decayCpu_lt (hfits : Fits load cpu) : decayCpu (loadfactor load) cpu < 4194304 := by
  have hproduct := hfits.2
  rw [decayCpu_eq hfits]
  calc 2 * load * cpu / (2 * load + fscale)
      ≤ 2 * load * cpu / fscale := Nat.div_le_div_left (Nat.le_add_left _ _) (by decide)
    _ < 4194304 := by unfold fscale; omega

/-- The loop keeps the order of two estimators and makes neither of them larger. -/
theorem decayLoop_mono (hfits : Fits load cpu') (hle : cpu ≤ cpu') (slptime : ℕ) :
    decayLoop (loadfactor load) slptime cpu ≤ decayLoop (loadfactor load) slptime cpu' := by
  induction slptime generalizing cpu cpu' with
  | zero => exact hle
  | succ slptime ih =>
    rw [decayLoop, decayLoop]
    by_cases hlast : slptime = 0
    · rw [if_pos (Or.inr hlast), if_pos (Or.inr hlast)]
      exact hle
    · by_cases hzero : cpu = 0
      · rw [if_pos (Or.inl hzero), hzero]
        exact Nat.zero_le _
      · rw [if_neg (by omega), if_neg (by omega)]
        exact ih (hfits.mono (decayCpu_le hfits)) (decayCpu_mono hfits hle)

theorem ticked_mono (hle : cpu ≤ cpu') (hlt : cpu' < 4294967296) :
    ticked cpu ≤ ticked cpu' ∧ ticked cpu' < 4294967296 := by
  unfold ticked uint
  split_ifs <;> omega

/-- The priority changes with every fourth tick only. -/
theorem newpri_ticked (hodd : ticked cpu % 4 ≠ 0) (nice : ℤ) :
    newpri (ticked cpu) nice = newpri cpu nice := by
  have hsame : ticked cpu / 4 = cpu / 4 := by
    unfold ticked uint at hodd ⊢
    split_ifs at hodd ⊢ <;> omega
  unfold newpri
  rw [hsame]

/-! ## One process -/

/-- A process whose priority belongs to its estimator, which is small while it sleeps. -/
structure Proc.Sound (p : Proc) : Prop where
  nice_low : -20 ≤ p.pNice
  nice_high : p.pNice ≤ 20
  cpu_lt : p.pCpu < 4294967296
  usrpri_eq : p.pUsrpri = newpri p.pCpu p.pNice
  awake : p.asleep = false → p.pSlptime = 0
  small : p.pSlptime ≠ 0 → p.pCpu ≤ ucharMax

theorem Proc.Sound.start (hlow : -20 ≤ nice) (hhigh : nice ≤ 20) (hlt : cpu < 4294967296) :
    (Proc.start cpu nice).Sound :=
  ⟨hlow, hhigh, hlt, rfl, fun _ ↦ rfl, fun hne ↦ absurd rfl hne⟩

theorem Proc.Sound.setpri (hsound : p.Sound) : p.setpri = p := by
  unfold Proc.setpri
  rw [← hsound.usrpri_eq]

theorem Proc.Sound.hardclock (hsound : p.Sound) (hawake : p.asleep = false) :
    p.hardclock.Sound := by
  have hlt := (ticked_mono (Nat.le_refl p.pCpu) hsound.cpu_lt).2
  have hnone := hsound.awake hawake
  unfold Proc.hardclock
  split_ifs with heven
  · exact ⟨hsound.nice_low, hsound.nice_high, hlt, rfl, hsound.awake,
      fun hne ↦ absurd hnone hne⟩
  · exact ⟨hsound.nice_low, hsound.nice_high, hlt,
      hsound.usrpri_eq.trans (newpri_ticked heven p.pNice).symm, hsound.awake,
      fun hne ↦ absurd hnone hne⟩

theorem ucharMax_lt : ucharMax < 4294967296 := by
  decide

theorem Proc.Sound.schedcpu (hsound : p.Sound) (load : ℕ) :
    (p.schedcpu load).Sound ∧ (p.schedcpu load).pCpu ≤ ucharMax := by
  have hawake : p.asleep = false → p.slept = 0 := by
    intro hrun
    unfold Proc.slept
    rw [hrun]
    exact hsound.awake hrun
  unfold Proc.schedcpu
  split_ifs with hlong
  · have hslept : p.pSlptime ≠ 0 := by
      intro hzero
      unfold Proc.slept at hlong
      rw [hzero] at hlong
      split_ifs at hlong
      · exact absurd hlong (by decide)
      · omega
    exact ⟨⟨hsound.nice_low, hsound.nice_high, hsound.cpu_lt, hsound.usrpri_eq, hawake,
      fun _ ↦ hsound.small hslept⟩, hsound.small hslept⟩
  · have hle : min (p.newcpu load) ucharMax ≤ ucharMax := Nat.min_le_right _ _
    exact ⟨⟨hsound.nice_low, hsound.nice_high, Nat.lt_of_le_of_lt hle ucharMax_lt, rfl, hawake,
      fun _ ↦ hle⟩, hle⟩

theorem Proc.Sound.setrun (hsound : p.Sound) (load : ℕ) : (p.setrun load).Sound := by
  unfold Proc.setrun Proc.updatepri
  split_ifs
  · exact ⟨hsound.nice_low, hsound.nice_high, Nat.lt_of_le_of_lt (Nat.zero_le _) ucharMax_lt, rfl,
      fun _ ↦ rfl, fun hne ↦ absurd rfl hne⟩
  · exact ⟨hsound.nice_low, hsound.nice_high,
      Nat.lt_of_le_of_lt (Nat.min_le_right _ _) ucharMax_lt, rfl, fun _ ↦ rfl,
      fun hne ↦ absurd rfl hne⟩
  · exact ⟨hsound.nice_low, hsound.nice_high, hsound.cpu_lt, hsound.usrpri_eq, fun _ ↦ rfl,
      fun hne ↦ absurd rfl hne⟩

/-- Every event keeps this. -/
theorem Proc.Sound.exec (hsound : p.Sound) (e : Event) : (p.exec e).Sound := by
  cases e with
  | hardclock =>
    rw [Proc.exec]
    split_ifs with hasleep
    · exact hsound
    · exact hsound.hardclock (Bool.eq_false_iff.mpr hasleep)
  | schedcpu load => exact (hsound.schedcpu load).1
  | tsleep =>
    rw [Proc.exec]
    split_ifs with hasleep
    · exact hsound
    · exact ⟨hsound.nice_low, hsound.nice_high, hsound.cpu_lt, hsound.usrpri_eq, fun _ ↦ rfl,
        fun hne ↦ absurd rfl hne⟩
  | stop =>
    exact ⟨hsound.nice_low, hsound.nice_high, hsound.cpu_lt, hsound.usrpri_eq,
      fun hawake ↦ absurd hawake.symm Bool.false_ne_true, hsound.small⟩
  | setrun load =>
    rw [Proc.exec]
    split_ifs with hasleep
    · exact hsound.setrun load
    · exact hsound
  | setpri =>
    rw [Proc.exec, hsound.setpri]
    exact hsound

theorem Proc.Sound.inRange (hsound : p.Sound) (e : Event) : (p.exec e).InRange e := by
  constructor
  · rw [(hsound.exec e).usrpri_eq]
    exact newpri_le _ _
  · intro load he
    rw [he]
    exact (hsound.schedcpu load).2

/-! ## Two processes -/

/-- Two processes with the same history, the first one with the better nice value. -/
structure Ordered (s : Proc × Proc) : Prop where
  first : s.1.Sound
  second : s.2.Sound
  cpu_le : s.1.pCpu ≤ s.2.pCpu
  nice_le : s.1.pNice ≤ s.2.pNice
  slptime_eq : s.1.pSlptime = s.2.pSlptime
  asleep_eq : s.1.asleep = s.2.asleep

variable {s : Proc × Proc}

theorem Ordered.usrpri_le (hordered : Ordered s) : s.1.pUsrpri ≤ s.2.pUsrpri := by
  rw [hordered.first.usrpri_eq, hordered.second.usrpri_eq]
  exact newpri_mono hordered.cpu_le hordered.nice_le hordered.first.nice_low
    hordered.second.nice_high hordered.second.cpu_lt

theorem Proc.setpri_fields (p : Proc) :
    p.setpri.pCpu = p.pCpu ∧ p.setpri.pNice = p.pNice ∧ p.setpri.pSlptime = p.pSlptime ∧
      p.setpri.asleep = p.asleep :=
  ⟨rfl, rfl, rfl, rfl⟩

theorem Proc.hardclock_fields (p : Proc) :
    p.hardclock.pCpu = ticked p.pCpu ∧ p.hardclock.pNice = p.pNice ∧
      p.hardclock.pSlptime = p.pSlptime ∧ p.hardclock.asleep = p.asleep := by
  unfold Proc.hardclock
  split_ifs
  · exact ⟨rfl, rfl, rfl, rfl⟩
  · exact ⟨rfl, rfl, rfl, rfl⟩

theorem Proc.schedcpu_fields (p : Proc) (load : ℕ) :
    (p.schedcpu load).pCpu = (if 1 < p.slept then p.pCpu else min (p.newcpu load) ucharMax) ∧
      (p.schedcpu load).pNice = p.pNice ∧ (p.schedcpu load).pSlptime = p.slept ∧
      (p.schedcpu load).asleep = p.asleep := by
  unfold Proc.schedcpu
  split_ifs
  · exact ⟨rfl, rfl, rfl, rfl⟩
  · exact ⟨rfl, rfl, rfl, rfl⟩

theorem Proc.setrun_fields (p : Proc) (load : ℕ) :
    (p.setrun load).pCpu =
        (if 1 < p.pSlptime then
          if uint (5 * loadfactor load) < p.pSlptime then 0
          else min (decayLoop (loadfactor load) (p.pSlptime - 1) p.pCpu) ucharMax
        else p.pCpu) ∧
      (p.setrun load).pNice = p.pNice ∧ (p.setrun load).pSlptime = 0 ∧
      (p.setrun load).asleep = false := by
  unfold Proc.setrun Proc.updatepri
  split_ifs
  · exact ⟨rfl, rfl, rfl, rfl⟩
  · exact ⟨rfl, rfl, rfl, rfl⟩
  · exact ⟨rfl, rfl, rfl, rfl⟩

/-- The estimators keep their order where `schedcpu` adds the nice values, unless only the first of
them falls below its nice value. -/
theorem Ordered.newcpu_le (hordered : Ordered s) (hfits : Fits load s.2.pCpu)
    (hbelow : s.1.Below load → s.2.Below load) :
    min (s.1.newcpu load) ucharMax ≤ min (s.2.newcpu load) ucharMax := by
  have hmono := decayCpu_mono hfits hordered.cpu_le
  have hlt := decayCpu_lt hfits
  have hnice := hordered.nice_le
  have hlow := hordered.first.nice_low
  have hlow' := hordered.second.nice_low
  have hhigh := hordered.second.nice_high
  unfold Proc.Below at hbelow
  unfold Proc.newcpu uint ucharMax
  by_cases hneg : (decayCpu (loadfactor load) s.1.pCpu : ℤ) + s.1.pNice < 0
  · have hneg' := hbelow hneg
    omega
  · omega

/-- Every event that meets the condition keeps the order. -/
theorem Ordered.exec (hordered : Ordered s) {e : Event} (hregular : Regular s e) :
    Ordered (exec s e).2 := by
  have hfirst := hordered.first.exec e
  have hsecond := hordered.second.exec e
  have hcpu := hordered.cpu_le
  have hnice := hordered.nice_le
  have hslptime := hordered.slptime_eq
  have hasleep := hordered.asleep_eq
  unfold Sched.exec
  cases e with
  | hardclock =>
    have hfields := s.1.hardclock_fields
    have hfields' := s.2.hardclock_fields
    refine ⟨hfirst, hsecond, ?_, ?_, ?_, ?_⟩
    all_goals
      dsimp only [Proc.exec]
      rw [hasleep]
    · split_ifs
      · exact hcpu
      · rw [hfields.1, hfields'.1]
        exact (ticked_mono hcpu hordered.second.cpu_lt).1
    · split_ifs
      · exact hnice
      · rw [hfields.2.1, hfields'.2.1]
        exact hnice
    · split_ifs
      · exact hslptime
      · rw [hfields.2.2.1, hfields'.2.2.1]
        exact hslptime
    · split_ifs
      · rw [hasleep]
      · rw [hfields.2.2.2, hfields'.2.2.2]
        exact hasleep
  | schedcpu load =>
    have hfields := s.1.schedcpu_fields load
    have hfields' := s.2.schedcpu_fields load
    have hslept : s.1.slept = s.2.slept := by
      unfold Proc.slept
      rw [hasleep, hslptime]
    refine ⟨hfirst, hsecond, ?_, ?_, ?_, ?_⟩
    all_goals dsimp only [Proc.exec]
    · rw [hfields.1, hfields'.1, ← hslept]
      split_ifs with hlong
      · exact hcpu
      · exact hordered.newcpu_le hregular.2.1 (hregular.2.2 (Nat.le_of_not_lt hlong))
    · rw [hfields.2.1, hfields'.2.1]
      exact hnice
    · rw [hfields.2.2.1, hfields'.2.2.1]
      exact hslept
    · rw [hfields.2.2.2, hfields'.2.2.2]
      exact hasleep
  | tsleep =>
    refine ⟨hfirst, hsecond, ?_, ?_, ?_, ?_⟩
    all_goals
      dsimp only [Proc.exec]
      rw [hasleep]
    · split_ifs <;> exact hcpu
    · split_ifs <;> exact hnice
    · split_ifs
      · exact hslptime
      · rfl
    · split_ifs
      · rw [hasleep]
      · rfl
  | stop => exact ⟨hfirst, hsecond, hcpu, hnice, hslptime, rfl⟩
  | setrun load =>
    have hfields := s.1.setrun_fields load
    have hfields' := s.2.setrun_fields load
    refine ⟨hfirst, hsecond, ?_, ?_, ?_, ?_⟩
    all_goals
      dsimp only [Proc.exec]
      rw [hasleep]
    · split_ifs
      · rw [hfields.1, hfields'.1, ← hslptime]
        split_ifs
        · exact Nat.le_refl 0
        · have hloop := decayLoop_mono hregular.2 hcpu (s.1.pSlptime - 1)
          omega
        · exact hcpu
      · exact hcpu
    · split_ifs
      · rw [hfields.2.1, hfields'.2.1]
        exact hnice
      · exact hnice
    · split_ifs
      · rw [hfields.2.2.1, hfields'.2.2.1]
      · exact hslptime
    · split_ifs
      · rw [hfields.2.2.2, hfields'.2.2.2]
      · exact hasleep
  | setpri => exact ⟨hfirst, hsecond, hcpu, hnice, hslptime, hasleep⟩

theorem Ordered.fair (hordered : Ordered s) {e : Event} (hregular : Regular s e) : Fair s e :=
  ⟨(hordered.exec hregular).usrpri_le, hordered.first.inRange e, hordered.second.inRange e⟩

/-- Of two processes with the same history, the one with the better nice value never has the worse
priority, in a run with loads that fit and in which its estimator does not alone fall below its nice
value. -/
theorem priorities_exact (cpu : ℕ) (hcpu : cpu < 4294967296) (hlow : -20 ≤ nice)
    (hle : nice ≤ nice') (hhigh : nice' ≤ 20) (es : List Event)
    (hregular : Machine.Each exec Regular es (.start cpu nice, .start cpu nice')) :
    Machine.Each exec Fair es (.start cpu nice, .start cpu nice') :=
  Machine.each_of_invariant Ordered (fun _ _ hordered hregular ↦ hordered.fair hregular)
    (fun _ _ hordered hregular ↦ hordered.exec hregular) es
    ⟨.start hlow (Int.le_trans hle hhigh) hcpu, .start (Int.le_trans hlow hle) hhigh hcpu,
      Nat.le_refl _, hle, rfl, rfl⟩ hregular

theorem priorities_exact_four :
    Machine.Each exec Fair [.hardclock, .schedcpu 2048, .tsleep, .schedcpu 2048]
      (.start 200 (-20), .start 200 4) :=
  priorities_exact 200 (by decide) (by decide) (by decide) (by decide)
    [.hardclock, .schedcpu 2048, .tsleep, .schedcpu 2048]
    ⟨trivial, ⟨⟨by decide, by decide⟩, ⟨by decide, by decide⟩, fun _ h ↦ absurd h (by decide)⟩,
      trivial, ⟨⟨by decide, by decide⟩, ⟨by decide, by decide⟩, fun _ h ↦ absurd h (by decide)⟩,
      trivial⟩

/-- Adding a nice value of -20 to an estimator of 0 gives the priority 73 instead of 50. -/
theorem priorities_reversed :
    ¬ ∀ (cpu : ℕ) (nice nice' : ℤ) (es : List Event), cpu < 4294967296 → -20 ≤ nice →
      nice ≤ nice' → nice' ≤ 20 →
        Machine.Each exec Fair es (.start cpu nice, .start cpu nice') := by
  intro hall
  have hfair :=
    (hall 0 (-20) 0 [.schedcpu 2048] (by decide) (by decide) (by decide) (by decide)).1.1
  exact absurd hfair (by decide)

end Bsd386.Kern.Sched
