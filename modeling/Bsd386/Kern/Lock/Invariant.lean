import Mathlib.Data.List.Count
import Bsd386.Kern.Lock.Basic

/-!
# Ownership of a sleep lock

The fields of a lock do not say which thread stands behind `want_write` and `want_upgrade`. The
invariant names them: `w` is the thread that has set `want_write`, whether it still waits for
readers to drain or holds the lock already, and `u` the one that has set `want_upgrade`. With
these two owners the counters and bits of the lock are determined by the holds, and every sleeper
sleeps on a condition that is still true. It is proved for every segment of every routine, as
long as the two bit fields do not overflow.
-/

namespace Bsd386.Kern.Lock

open Function

variable {Tid : Type*} [DecidableEq Tid]

/-- The condition on which a thread sleeps at a point. -/
@[grind]
def LockData.Blocked (l : LockData Tid) : Point → Prop
  | .writeReserve => l.wantWrite = true
  | .writeDrain => l.readCount ≠ 0 ∨ l.wantUpgrade = true
  | .read => l.wantWrite = true ∨ l.wantUpgrade = true
  | .upgrade | .tryUpgrade => l.readCount ≠ 0

omit [DecidableEq Tid] in
theorem LockData.Blocked.mono {l m : LockData Tid} {point : Point} (h : l.Blocked point)
    (hwrite : l.wantWrite = true → m.wantWrite = true)
    (hupgrade : l.wantUpgrade = true → m.wantUpgrade = true)
    (hread : l.readCount ≠ 0 → m.readCount ≠ 0) : m.Blocked point := by
  cases point with
  | writeReserve => exact hwrite h
  | writeDrain => exact h.imp hread hupgrade
  | read => exact h.imp hwrite hupgrade
  | upgrade => exact hread h
  | tryUpgrade => exact hread h

namespace Status

/-- In the second loop of `lock_write`, with `want_write` reserved. -/
def draining : Status → Bool
  | .asleep .writeDrain | .woken .writeDrain => true
  | _ => false

/-- In the loop of an upgrade, with `want_upgrade` set. -/
def upgrading : Status → Bool
  | .asleep .upgrade | .woken .upgrade | .asleep .tryUpgrade | .woken .tryUpgrade => true
  | _ => false

@[simp, grind =]
theorem draining_idle : idle.draining = false := rfl

@[simp, grind =]
theorem upgrading_idle : idle.upgrading = false := rfl

@[simp, grind =]
theorem draining_wake (status : Status) : status.wake.draining = status.draining := by
  cases status with
  | asleep point => cases point <;> rfl
  | _ => rfl

@[simp, grind =]
theorem upgrading_wake (status : Status) : status.wake.upgrading = status.upgrading := by
  cases status with
  | asleep point => cases point <;> rfl
  | _ => rfl

@[simp, grind .]
theorem wake_ne_asleep (status : Status) (point : Point) : status.wake ≠ .asleep point := by
  cases status <;> simp [wake]

@[simp, grind =]
theorem wake_eq_idle (status : Status) : status.wake = .idle ↔ status = .idle := by
  cases status <;> simp [wake]

end Status

/-- `t` holds the lock exclusively through `want_write`, whose owner is `w`. -/
@[grind]
def HeldWrite (status : Tid → Status) (w : Option Tid) (t : Tid) : Prop :=
  w = some t ∧ (status t).draining = false

/-- `t` holds the lock exclusively through `want_upgrade`, whose owner is `u`. -/
@[grind]
def HeldUpgrade (status : Tid → Status) (u : Option Tid) (t : Tid) : Prop :=
  u = some t ∧ (status t).upgrading = false

instance (status : Tid → Status) (w : Option Tid) (t : Tid) : Decidable (HeldWrite status w t) :=
  inferInstanceAs (Decidable (_ ∧ _))

instance (status : Tid → Status) (u : Option Tid) (t : Tid) :
    Decidable (HeldUpgrade status u t) :=
  inferInstanceAs (Decidable (_ ∧ _))

/-- `t` holds the lock exclusively other than by recursion. -/
@[grind]
def Base (status : Tid → Status) (w u : Option Tid) (t : Tid) : Prop :=
  HeldWrite status w t ∨ HeldUpgrade status u t

namespace System

/-- The outstanding holds fit the bit fields that count them: `read_count` has 16 bits, and
`recursion_depth`, with 8 bits, counts the exclusive holds after the first. -/
def Bounded (s : System Tid) : Prop := s.readers.length < 2 ^ 16 ∧ s.writers.length ≤ 2 ^ 8

omit [DecidableEq Tid] in
instance (s : System Tid) : Decidable s.Bounded := inferInstanceAs (Decidable (_ ∧ _))

/-- The fields agree with the holds, with `w` and `u` behind `want_write` and `want_upgrade`. -/
structure Owned (s : System Tid) (w u : Option Tid) : Prop where
  readCount_eq : s.lock.readCount = s.readers.length
  wantWrite_eq : s.lock.wantWrite = w.isSome
  wantUpgrade_eq : s.lock.wantUpgrade = u.isSome
  draining : ∀ t, (s.status t).draining = true → w = some t
  upgrading : ∀ t, (s.status t).upgrading = true → u = some t
  heldWrite : ∀ t, HeldWrite s.status w t → (∀ r ∈ s.readers, r = t) ∧ ∀ v, u = some v → v = t
  heldUpgrade : ∀ t, HeldUpgrade s.status u t → ∀ r ∈ s.readers, r = t
  writers_count : ∀ t, s.writers.count t = (if HeldWrite s.status w t then 1 else 0) +
    (if HeldUpgrade s.status u t then 1 else 0) +
    (if s.lock.thread = some t then s.lock.recursionDepth else 0)
  depth_eq : s.lock.thread = none → s.lock.recursionDepth = 0
  idle : ∀ t, s.lock.thread = some t → s.status t = .idle
  base : ∀ t, s.lock.thread = some t → 0 < s.lock.recursionDepth ∨ s.downgraded t = false →
    Base s.status w u t
  holds : ∀ t, s.lock.thread = some t → t ∈ s.readers ∨ t ∈ s.writers
  waiting : ∀ t point, s.status t = .asleep point → s.lock.waiting = true

/-- The invariant: moreover every sleeper sleeps on a condition that holds. -/
structure Inv (s : System Tid) (w u : Option Tid) : Prop extends Owned s w u where
  blocked : ∀ t point, s.status t = .asleep point → s.lock.Blocked point

theorem Inv.initial {s : System Tid} (h : s.Initial) : s.Inv none none := by
  obtain ⟨⟨l, hl⟩, hidle, hreaders, hwriters⟩ := h
  refine ⟨?_, fun t point ht ↦ by simp [hidle] at ht⟩
  constructor <;> simp [hl, LockData.lockInit, hidle, hreaders, hwriters, Status.draining,
    Status.upgrading, HeldWrite, HeldUpgrade]

variable {s : System Tid} {w u : Option Tid} {t : Tid}

/-- An exclusive holder owns `want_write` or `want_upgrade`. -/
theorem Owned.base_of_writer (h : s.Owned w u) (ht : t ∈ s.writers) :
    Base s.status w u t := by
  have hpos : 0 < s.writers.count t := List.count_pos_iff.2 ht
  have hcount := h.writers_count t
  by_cases hw : HeldWrite s.status w t
  · exact .inl hw
  by_cases hu : HeldUpgrade s.status u t
  · exact .inr hu
  rw [if_neg hw, if_neg hu] at hcount
  by_cases hthread : s.lock.thread = some t
  · rw [if_pos hthread] at hcount
    exact h.base t hthread (.inl (by omega))
  · rw [if_neg hthread] at hcount
    omega

/-- The two kinds of exclusive owner are one thread. -/
theorem Owned.base_unique (h : s.Owned w u) {v : Tid} (ht : Base s.status w u t)
    (hv : Base s.status w u v) : t = v := by
  rcases ht with ht | ht <;> rcases hv with hv | hv
  · exact Option.some.inj (ht.1.symm.trans hv.1)
  · exact ((h.heldWrite t ht).2 v hv.1).symm
  · exact (h.heldWrite v hv).2 t ht.1
  · exact Option.some.inj (ht.1.symm.trans hv.1)

theorem Owned.reader_eq (h : s.Owned w u) (ht : Base s.status w u t) {r : Tid}
    (hr : r ∈ s.readers) : r = t := by
  rcases ht with ht | ht
  · exact (h.heldWrite t ht).1 r hr
  · exact h.heldUpgrade t ht r hr

/-- The invariant excludes two exclusive holders, and readers beside one. -/
theorem Inv.exclusive (h : s.Inv w u) : s.Exclusive :=
  ⟨fun _ ht _ hv ↦ h.base_unique (h.base_of_writer ht) (h.base_of_writer hv),
    fun _ ht _ hr ↦ h.reader_eq (h.base_of_writer ht) hr⟩

/-- The invariant excludes a stranded sleeper: with no hold and no runnable thread, nobody can
stand behind the condition it sleeps on. -/
theorem Inv.not_stranded (h : s.Inv w u) : ¬ s.Stranded := by
  rintro ⟨hreaders, hwriters, hwoken, t, point, hasleep⟩
  have hcount : s.lock.readCount = 0 := by simp [h.readCount_eq, hreaders]
  have hnobase : ∀ v, ¬ (Base s.status w u v) := by
    intro v hv
    have hzero := h.writers_count v
    rw [hwriters, List.count_nil] at hzero
    rcases hv with hv | hv <;> rw [if_pos hv] at hzero <;> omega
  -- The owner of a bit would be inside a routine, hence asleep, on a condition that is false.
  have hasleepOf : ∀ v, s.status v ≠ .idle → ∃ p, s.status v = .asleep p := by
    intro v hv
    cases hstatus : s.status v with
    | idle => exact absurd hstatus hv
    | asleep p => exact ⟨p, rfl⟩
    | woken p => exact absurd hstatus (hwoken v p)
  have hupgrade : u = none := by
    cases hu : u with
    | none => rfl
    | some v =>
      exfalso
      have hv : (s.status v).upgrading = true := by
        by_contra hnot
        exact hnobase v (.inr ⟨hu, by simpa using hnot⟩)
      obtain ⟨p, hp⟩ := hasleepOf v (fun hidle ↦ by simp [hidle, Status.upgrading] at hv)
      have hblocked := h.blocked v p hp
      rw [hp] at hv
      cases p <;> simp_all [LockData.Blocked, Status.upgrading]
  have hwrite : w = none := by
    cases hw : w with
    | none => rfl
    | some v =>
      exfalso
      have hv : (s.status v).draining = true := by
        by_contra hnot
        exact hnobase v (.inl ⟨hw, by simpa using hnot⟩)
      obtain ⟨p, hp⟩ := hasleepOf v (fun hidle ↦ by simp [hidle, Status.draining] at hv)
      have hblocked := h.blocked v p hp
      have hbit := h.wantUpgrade_eq
      rw [hp] at hv
      cases p <;> simp_all [LockData.Blocked, Status.draining]
  have hblocked := h.blocked t point hasleep
  have hwriteBit := h.wantWrite_eq
  have hupgradeBit := h.wantUpgrade_eq
  cases point <;> simp_all [LockData.Blocked]

/-! ## What each segment does to the invariant -/

theorem Owned.readCountInc_eq (h : s.Owned w u) (hbound : s.readers.length + 1 < 2 ^ 16) :
    s.lock.readCountInc.readCount = s.readers.length + 1 := by
  unfold LockData.readCountInc
  simp only [h.readCount_eq]
  omega

theorem Owned.readCountDec_eq (h : s.Owned w u) (hreader : t ∈ s.readers)
:
    s.lock.readCountDec.readCount = (s.readers.erase t).length := by
  have hpos := List.length_pos_of_mem hreader
  rw [List.length_erase_of_mem hreader]
  simp only [LockData.readCountDec, h.readCount_eq]
  rw [if_neg (by omega)]

/-- Recursive write access: one more exclusive hold of the owner. -/
theorem Owned.recurse (h : s.Owned w u) (hthread : s.lock.thread = some t)
    (hdown : s.downgraded t = false) (hbound : s.writers.length + 1 ≤ 2 ^ 8) :
    Owned { s with lock := s.lock.depthInc, writers := t :: s.writers } w u := by
  have hbase := h.base t hthread (.inr hdown)
  have hcount := h.writers_count t
  have hle := List.count_le_length (a := t) (l := s.writers)
  have hdepth : s.lock.depthInc.recursionDepth = s.lock.recursionDepth + 1 := by
    have hpos : 0 < (if HeldWrite s.status w t then 1 else 0) +
        (if HeldUpgrade s.status u t then 1 else 0) := by
      rcases hbase with hb | hb <;> rw [if_pos hb] <;> omega
    rw [if_pos hthread] at hcount
    exact Nat.mod_eq_of_lt (by omega)
  obtain ⟨_, _, _, hdraining, hupgrading, hwrite, hupgrade, hwriters, hdepth, hidle, hbase, hholds,
    hwaiting⟩ := h
  constructor
  all_goals grind [LockData.depthInc]

/-- A shared hold is given up. Its owner must keep another hold if it is recursive. -/
theorem Owned.releaseRead (h : s.Owned w u) (hreader : t ∈ s.readers)
    (hkeep : s.lock.thread = some t → t ∈ s.readers.erase t ∨ t ∈ s.writers) :
    Owned { s with lock := s.lock.readCountDec, readers := s.readers.erase t } w u := by
  have hcount := h.readCountDec_eq hreader
  have hmem : ∀ r, r ∈ s.readers.erase t → r ∈ s.readers := fun r ↦ List.mem_of_mem_erase
  obtain ⟨_, _, _, hdraining, hupgrading, hwrite, hupgrade, hwriters, hdepth, hidle, hbase, hholds,
    hwaiting⟩ := h
  constructor
  case readCount_eq => exact hcount
  all_goals grind [LockData.readCountDec]

/-- An exclusive hold is given up, in the order the fields suggest: recursion, upgrade, write. -/
theorem Owned.releaseWrite (h : s.Owned w u) (hstatus : s.status t = .idle)
    (hwriter : t ∈ s.writers) (hkeep : s.lock.thread = some t →
      (s.downgraded t = true ∧ t ∈ s.readers) ∨ 2 ≤ s.writers.count t) :
    ∃ w' u', Owned { s with lock := s.lock.releaseWrite, writers := s.writers.erase t } w' u' := by
  have hbase := h.base_of_writer hwriter
  have hunique : ∀ v, Base s.status w u v → v = t := fun v hv ↦ h.base_unique hv hbase
  have hpos : 0 < s.writers.count t := List.count_pos_iff.2 hwriter
  have hcount : ∀ v, (s.writers.erase t).count v =
      s.writers.count v - if v = t then 1 else 0 := by
    intro v
    rw [List.count_erase]
    simp only [beq_iff_eq, @eq_comm Tid t v]
  have hheld : ∀ v, s.lock.thread = some v → v ∈ s.readers ∨ v ∈ s.writers.erase t := by
    intro v hv
    by_cases hvt : v = t
    · subst hvt
      refine (hkeep hv).imp And.right fun htwo ↦ List.count_pos_iff.1 ?_
      rw [hcount, if_pos rfl]
      omega
    · exact (h.holds v hv).imp id (List.mem_erase_of_ne hvt).2
  obtain ⟨_, hw, hu, hdraining, hupgrading, hwrite, hupgrade, hwriters, hdepth, hidle, hbases,
    hholds,
    hwaiting⟩ := h
  unfold LockData.releaseWrite
  split_ifs with hzero hup
  · have hthread : s.lock.thread = some t := by
      cases hthread : s.lock.thread with
      | none => exact absurd (hdepth hthread) hzero
      | some v => rw [hunique v (hbases v hthread (.inl (Nat.pos_of_ne_zero hzero)))]
    refine ⟨w, u, ?_⟩
    constructor
    all_goals grind [LockData.depthDec]
  · obtain ⟨v, rfl⟩ := Option.isSome_iff_exists.1 (hu.symm.trans hup)
    have hown : HeldUpgrade s.status (some v) t := by
      rcases hbase with hbase | hbase
      · exact ⟨congrArg some ((hwrite t hbase).2 v rfl), by rw [hstatus]; rfl⟩
      · exact hbase
    have hnot : ∀ v, ¬ HeldUpgrade s.status none v := fun v hv ↦ by simp [HeldUpgrade] at hv
    refine ⟨w, none, ?_⟩
    constructor
    case writers_count =>
      intro v
      have hv := hwriters v
      have hcountv := hcount v
      grind
    all_goals grind
  · have hown : HeldWrite s.status w t := by grind
    refine ⟨none, u, ?_⟩
    constructor
    all_goals grind

/-- A shared hold is granted while no other thread owns the lock exclusively. -/
theorem Inv.grantRead (h : s.Inv w u) (hdrain : (s.status t).draining = false)
    (hup : (s.status t).upgrading = false)
    (hfree : ∀ v, Base s.status w u v → v = t) (hbound : s.readers.length + 1 < 2 ^ 16) :
    Inv { s with
      lock := s.lock.readCountInc
      readers := t :: s.readers
      status := update s.status t .idle } w u := by
  have hcount := h.readCountInc_eq hbound
  obtain ⟨⟨_, _, _, hdraining, hupgrading, hwrite, hupgrade, hwriters, hdepth, hidle, hbase, hholds,
    hwaiting⟩, hblocked⟩ := h
  constructor
  case blocked =>
    intro v point hv
    have hne : v ≠ t := by grind [update_apply]
    simp only [update_of_ne hne] at hv
    exact (hblocked v point hv).mono id id (by grind)
  constructor
  all_goals grind [update_apply, LockData.readCountInc]

/-- Going to sleep on a condition that holds, without giving up or taking an ownership. -/
theorem Inv.sleep (h : s.Inv w u) (hthread : s.lock.thread ≠ some t) {point : Point}
    (hdrain : (Status.asleep point).draining = (s.status t).draining)
    (hup : (Status.asleep point).upgrading = (s.status t).upgrading)
    (hpoint : s.lock.Blocked point) :
    Inv { s with
      lock := { s.lock with waiting := true }
      status := update s.status t (.asleep point) } w u := by
  obtain ⟨⟨_, _, _, hdraining, hupgrading, hwrite, hupgrade, hwriters, hdepth, hidle, hbase, hholds,
    hwaiting⟩, hblocked⟩ := h
  constructor
  case blocked =>
    intro v other hv
    by_cases hvt : v = t
    · subst hvt
      simp only [update_self, Status.asleep.injEq] at hv
      exact hv ▸ hpoint.mono id id id
    · simp only [update_of_ne hvt] at hv
      exact (hblocked v other hv).mono id id id
  constructor
  all_goals grind [update_apply]

/-- The end of the first loop of `lock_write`: the write lock is reserved, not yet held. -/
theorem Inv.reserve (h : s.Inv w u) (hthread : s.lock.thread ≠ some t)
    (hfree : s.lock.wantWrite = false) (hup : (s.status t).upgrading = false) :
    Inv { s with
      lock := { s.lock with wantWrite := true }
      status := update s.status t (.woken .writeDrain) } (some t) u := by
  obtain ⟨⟨_, hw, _, hdraining, hupgrading, hwrite, hupgrade, hwriters, hdepth, hidle, hbase,
    hholds,
    hwaiting⟩, hblocked⟩ := h
  obtain rfl : w = none := by simpa [hfree] using hw
  constructor
  case blocked =>
    intro v point hv
    have hne : v ≠ t := by grind [update_apply]
    simp only [update_of_ne hne] at hv
    exact (hblocked v point hv).mono (fun _ ↦ rfl) id id
  constructor
  all_goals grind [update_apply, Status.draining, Status.upgrading]

/-- The end of the second loop of `lock_write`: the reserved lock becomes an exclusive hold. -/
theorem Inv.drained (h : s.Inv w u) (hstatus : s.status t = .woken .writeDrain)
    (hcount : s.lock.readCount = 0) (hfree : s.lock.wantUpgrade = false) :
    Inv { s with writers := t :: s.writers, status := update s.status t .idle } w u := by
  obtain ⟨⟨hreaders, hw, hu, hdraining, hupgrading, hwrite, hupgrade, hwriters, hdepth,
    hidle, hbase,
    hholds, hwaiting⟩, hblocked⟩ := h
  obtain rfl : u = none := by simpa [hfree] using hu
  have hnil : s.readers = [] := List.eq_nil_of_length_eq_zero (hreaders.symm.trans hcount)
  have hown : w = some t := hdraining t (by rw [hstatus]; rfl)
  constructor
  case blocked => grind [update_apply]
  constructor
  all_goals grind [update_apply, Status.draining, Status.upgrading]

/-- The first half of an upgrade: the shared hold is given up and `want_upgrade` is set. -/
theorem Inv.upgradeStart (h : s.Inv w u) (hthread : s.lock.thread ≠ some t)
    (hstatus : s.status t = .idle) (hreader : t ∈ s.readers)
    (hfree : s.lock.wantUpgrade = false) {point : Point}
    (hpoint : (Status.woken point).upgrading = true) :
    Inv { s with
      lock := { s.lock.readCountDec with wantUpgrade := true }
      readers := s.readers.erase t
      status := update s.status t (.woken point) } w (some t) := by
  have hcount := h.readCountDec_eq hreader
  have hdrain : (Status.woken point).draining = false := by
    cases point <;> simp_all [Status.draining, Status.upgrading]
  obtain ⟨⟨hreaders, hw, hu, hdraining, hupgrading, hwrite, hupgrade, hwriters, hdepth,
    hidle, hbase,
    hholds, hwaiting⟩, hblocked⟩ := h
  obtain rfl : u = none := by simpa [hfree] using hu
  have hmem : ∀ r, r ∈ s.readers.erase t → r ∈ s.readers := fun r ↦ List.mem_of_mem_erase
  constructor
  case blocked =>
    intro v other hv
    have hne : v ≠ t := by grind [update_apply]
    simp only [update_of_ne hne] at hv
    have hother := hblocked v other hv
    have hnot : (s.status v).upgrading = false := by grind
    cases other with
    | upgrade => simp [hv, Status.upgrading] at hnot
    | tryUpgrade => simp [hv, Status.upgrading] at hnot
    | writeReserve => exact hother
    | writeDrain => simp [LockData.Blocked]
    | read => simp [LockData.Blocked]
  constructor
  case readCount_eq => exact hcount
  all_goals grind [update_apply, LockData.readCountDec]

/-- The second half of an upgrade: the readers are gone. -/
theorem Inv.upgraded (h : s.Inv w u) (hstatus : (s.status t).upgrading = true)
    (hcount : s.lock.readCount = 0) :
    Inv { s with writers := t :: s.writers, status := update s.status t .idle } w u := by
  obtain ⟨⟨hreaders, hw, hu, hdraining, hupgrading, hwrite, hupgrade, hwriters, hdepth,
    hidle, hbase,
    hholds, hwaiting⟩, hblocked⟩ := h
  have hnil : s.readers = [] := List.eq_nil_of_length_eq_zero (hreaders.symm.trans hcount)
  have hown := hupgrading t hstatus
  have hdrain : (s.status t).draining = false := by
    cases hst : s.status t with
    | idle => rfl
    | asleep point => cases point <;> simp_all [Status.draining, Status.upgrading]
    | woken point => cases point <;> simp_all [Status.draining, Status.upgrading]
  constructor
  case blocked => grind [update_apply]
  constructor
  all_goals grind [update_apply]

/-- A recursive upgrade. It wakes nobody: its caller still owns the lock, so the bit that keeps a
draining writer asleep is set. -/
theorem Inv.upgradeRecursive (h : s.Inv w u) (hthread : s.lock.thread = some t)
    (hdown : s.downgraded t = false) (hreader : t ∈ s.readers)
    (hbound : s.writers.length + 1 ≤ 2 ^ 8) :
    Inv { s with
      lock := s.lock.readCountDec.depthInc
      readers := s.readers.erase t
      writers := t :: s.writers } w u := by
  have hbase := h.base t hthread (.inr hdown)
  have hidle := h.idle t hthread
  refine ⟨(h.toOwned.recurse hthread hdown hbound).releaseRead hreader
    (fun _ ↦ .inr (List.mem_cons_self ..)), ?_⟩
  intro v point hv
  have hblocked := h.blocked v point hv
  have hup : (s.status v).upgrading = true → False := by
    intro hup
    have hown := h.upgrading v hup
    obtain rfl : v = t := by
      rcases hbase with hbase | hbase
      · exact (h.heldWrite t hbase).2 v hown
      · exact Option.some.inj (hown.symm.trans hbase.1)
    simp [hidle] at hup
  cases point with
  | writeReserve => exact hblocked
  | read => exact hblocked
  | upgrade => exact (hup (by rw [hv]; rfl)).elim
  | tryUpgrade => exact (hup (by rw [hv]; rfl)).elim
  | writeDrain =>
    refine .inr ?_
    rcases hbase with hbase | hbase
    · have hown := h.draining v (by rw [hv]; rfl)
      obtain rfl : t = v := Option.some.inj (hbase.1.symm.trans hown)
      simp [hidle] at hv
    · exact h.wantUpgrade_eq.trans (by rw [hbase.1]; rfl)

/-- `wakeup` makes every sleeper runnable, whatever it slept on. -/
theorem Owned.wakeAll (h : s.Owned w u) :
    Inv { s with
      lock := { s.lock with waiting := false }
      status := fun x ↦ if s.lock.waiting then (s.status x).wake else s.status x } w u := by
  have hwake : (fun x ↦ if s.lock.waiting then (s.status x).wake else s.status x) =
      fun x ↦ (s.status x).wake := by
    funext x
    split_ifs with hwaiting
    · rfl
    · cases hx : s.status x with
      | asleep point => exact absurd (h.waiting x point hx) hwaiting
      | _ => rfl
  rw [hwake]
  obtain ⟨_, hw, hu, hdraining, hupgrading, hwrite, hupgrade, hwriters, hdepth, hidle, hbases,
    hholds,
    hwaiting⟩ := h
  constructor
  case blocked => exact fun v point hv ↦ absurd hv (Status.wake_ne_asleep _ _)
  constructor
  all_goals grind

/-- An exclusive holder sets recursion, for itself. -/
theorem Inv.setRecursive (h : s.Inv w u) (hstatus : s.status t = .idle) (hwriter : t ∈ s.writers)
    (hthread : s.lock.thread = some t ∨ s.lock.thread = none) :
    Inv { s with
      lock := { s.lock with thread := some t }
      downgraded := update s.downgraded t false } w u := by
  have hbase := h.base_of_writer hwriter
  obtain ⟨⟨_, hw, hu, hdraining, hupgrading, hwrite, hupgrade, hwriters, hdepth, hidle, hbases,
    hholds, hwaiting⟩, hblocked⟩ := h
  constructor
  case blocked => exact fun v point hv ↦ (hblocked v point hv).mono id id id
  constructor
  all_goals grind

/-- Recursion is cleared once its depth is zero. -/
theorem Inv.clearRecursive (h : s.Inv w u) (hdepth : s.lock.recursionDepth = 0) :
    Inv { s with lock := { s.lock with thread := none } } w u := by
  obtain ⟨⟨_, hw, hu, hdraining, hupgrading, hwrite, hupgrade, hwriters, hdepth, hidle, hbases,
    hholds, hwaiting⟩, hblocked⟩ := h
  constructor
  case blocked => exact fun v point hv ↦ (hblocked v point hv).mono id id id
  constructor
  all_goals grind

end System

end Bsd386.Kern.Lock
