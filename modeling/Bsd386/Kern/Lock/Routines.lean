import Bsd386.Kern.Lock.Invariant

/-!
# The routines keep the ownership invariant

One theorem for each routine of `kern/lock.c`, over its first segment, and one for the segments
after a `tsleep`. Each is assembled from the moves proved in `Invariant`: a grant, a release, the
reservation of a bit, a sleep or a wakeup.
-/

namespace Bsd386.Kern.Lock

open Function

variable {Tid : Type*} [DecidableEq Tid]

namespace System

variable {s : System Tid} {w u : Option Tid} {t : Tid}

/-! ## How a segment ends -/

theorem install_return (l : LockData Tid) (value : Bool) :
    s.install t (l.return_ value) = { s with lock := l, status := update s.status t .idle } := rfl

theorem install_sleep (l : LockData Tid) (point : Point) :
    s.install t (l.sleep point) =
      { s with
        lock := { l with waiting := true }
        status := update s.status t (.asleep point) } := rfl

theorem install_return_idle (hidle : s.status t = .idle) (l : LockData Tid) (value : Bool) :
    s.install t (l.return_ value) = { s with lock := l } := by
  rw [install_return, ← hidle, update_eq_self]

theorem install_wakeReturn (hidle : s.status t = .idle) (l : LockData Tid) (value : Bool) :
    s.install t (l.wakeReturn value) =
      { s with
        lock := { l with waiting := false }
        status := fun x ↦ if l.waiting then (s.status x).wake else s.status x } := by
  have hupdate : update (fun x ↦ if l.waiting then (s.status x).wake else s.status x) t .idle =
      fun x ↦ if l.waiting then (s.status x).wake else s.status x := by
    rw [update_eq_self_iff]
    simp [hidle, Status.wake]
  exact congrArg (fun status ↦ { s with lock := { l with waiting := false }, status := status })
    hupdate

/-- A segment that does not call `wakeup` may be run from a point inside the routine. -/
theorem install_inside (l : LockData Tid) (status : Status) (point : Point) {effect : Effect Tid}
    (hwoke : effect.woke = false) :
    (settleResumed { s with lock := l, status := update s.status t status } t point
      effect.outcome).install t effect =
      (s.settleResumed t point effect.outcome).install t effect := by
  obtain ⟨lock, woke, outcome⟩ := effect
  obtain rfl : woke = false := hwoke
  cases outcome with
  | sleeps other => simp [settleResumed, install]
  | returned value => cases point <;> simp [settleResumed, install]

omit [DecidableEq Tid] in
theorem lockWriteDrain_woke (l : LockData Tid) : l.lockWriteDrain.woke = false := by
  unfold LockData.lockWriteDrain
  split_ifs <;> rfl

/-! ## The routines -/

/-- A thread may be marked as having downgraded at any time. -/
theorem Owned.downgrade (h : s.Owned w u) (downgraded : Tid → Bool)
    (hmark : ∀ v, downgraded v = false → s.downgraded v = false) :
    Owned { s with downgraded } w u :=
  { h with base := fun v hv hcase ↦ h.base v hv (hcase.imp id (hmark v)) }

theorem Inv.lockWriteDrain (h : s.Inv w u) (hstatus : s.status t = .woken .writeDrain) :
    ∃ w' u', Inv ((s.settleResumed t .writeDrain s.lock.lockWriteDrain.outcome).install t
      s.lock.lockWriteDrain) w' u' := by
  have hthread : s.lock.thread ≠ some t := fun hthread ↦ by
    simp [h.idle t hthread] at hstatus
  unfold LockData.lockWriteDrain
  split_ifs with hwait
  · rw [install_sleep]
    exact ⟨w, u, h.sleep hthread (by rw [hstatus]; rfl) (by rw [hstatus]; rfl) hwait⟩
  · rw [install_return]
    push Not at hwait
    exact ⟨w, u, h.drained hstatus hwait.1 (by simpa using hwait.2)⟩

theorem Inv.lockWriteReserve (h : s.Inv w u) (hthread : s.lock.thread ≠ some t)
    (hdrain : (s.status t).draining = false) (hup : (s.status t).upgrading = false) :
    ∃ w' u', Inv ((s.settleResumed t .writeReserve s.lock.lockWriteReserve.outcome).install t
      s.lock.lockWriteReserve) w' u' := by
  unfold LockData.lockWriteReserve
  split_ifs with hwait
  · rw [install_sleep]
    exact ⟨w, u, h.sleep hthread (by rw [hdrain]; rfl) (by rw [hup]; rfl) hwait⟩
  · have hnext := (h.reserve hthread (by simpa using hwait) hup).lockWriteDrain (t := t)
      (update_self ..)
    rw [install_inside _ _ _ (lockWriteDrain_woke _)] at hnext
    have hsettle : s.settleResumed t .writeReserve = s.settleResumed t .writeDrain := by
      funext outcome
      cases outcome <;> rfl
    rw [hsettle]
    exact hnext

/-- While neither bit is set, nobody owns the lock exclusively. -/
theorem Owned.base_of_not_busy (h : s.Owned w u) (hfree : ¬ (s.lock.wantWrite ∨ s.lock.wantUpgrade))
    (v : Tid) (hv : Base s.status w u v) : v = t := by
  rw [h.wantWrite_eq, h.wantUpgrade_eq] at hfree
  rcases hv with hv | hv
  · simp [hv.1] at hfree
  · simp [hv.1] at hfree

theorem Inv.lockReadWait (h : s.Inv w u) (hthread : s.lock.thread ≠ some t)
    (hdrain : (s.status t).draining = false) (hup : (s.status t).upgrading = false)
    (hbound : Bounded ((s.settleResumed t .read s.lock.lockReadWait.outcome).install t
      s.lock.lockReadWait)) :
    ∃ w' u', Inv ((s.settleResumed t .read s.lock.lockReadWait.outcome).install t
      s.lock.lockReadWait) w' u' := by
  unfold LockData.lockReadWait at hbound ⊢
  split_ifs at hbound ⊢ with hwait
  · rw [install_sleep]
    exact ⟨w, u, h.sleep hthread (by rw [hdrain]; rfl) (by rw [hup]; rfl) hwait⟩
  · rw [install_return] at hbound ⊢
    exact ⟨w, u, h.grantRead hdrain hup (h.base_of_not_busy hwait) hbound.1⟩

/-- The loop of an upgrade, for either routine. -/
theorem Inv.upgradeWait (h : s.Inv w u) {point : Point} (hstatus : s.status t = .woken point)
    (hpoint : (Status.woken point).upgrading = true) {value : Bool} {effect : Effect Tid}
    (heffect : effect =
      if s.lock.readCount ≠ 0 then s.lock.sleep point else s.lock.return_ value) :
    ∃ w' u', Inv ((s.settleResumed t point effect.outcome).install t effect) w' u' := by
  subst heffect
  have hthread : s.lock.thread ≠ some t := fun hthread ↦ by
    simp [h.idle t hthread] at hstatus
  have hup : (s.status t).upgrading = true := by rw [hstatus, hpoint]
  split_ifs with hwait
  · rw [install_sleep]
    have hblocked : s.lock.Blocked point := by
      cases point <;> first | exact hwait | simp [Status.upgrading] at hpoint
    have hsettle : s.settleResumed t point (s.lock.sleep point).outcome = s := by
      cases point <;> rfl
    rw [hsettle]
    refine ⟨w, u, h.sleep hthread ?_ ?_ hblocked⟩
    · rw [hstatus]
      cases point <;> rfl
    · rw [hstatus]
      cases point <;> rfl
  · rw [install_return]
    have hsettle : s.settleResumed t point (s.lock.return_ value).outcome =
        { s with writers := t :: s.writers } := by
      cases point <;> first | rfl | simp [Status.upgrading] at hpoint
    rw [hsettle]
    exact ⟨w, u, h.upgraded hup (not_not.1 hwait)⟩

/-- Both halves of an upgrade in one segment, for either routine. -/
theorem Inv.upgradeBegin (h : s.Inv w u) (hthread : s.lock.thread ≠ some t)
    (hidle : s.status t = .idle) (hreader : t ∈ s.readers) (hfree : s.lock.wantUpgrade = false)
    {point : Point} (hpoint : (Status.woken point).upgrading = true) {value : Bool}
    {effect : Effect Tid} (heffect : effect =
      if s.lock.readCountDec.readCount ≠ 0
      then LockData.sleep { s.lock.readCountDec with wantUpgrade := true } point
      else LockData.return_ { s.lock.readCountDec with wantUpgrade := true } value) :
    ∃ w' u', Inv ((settleResumed { s with readers := s.readers.erase t } t point
      effect.outcome).install t effect) w' u' := by
  have hwoke : effect.woke = false := by
    subst heffect
    split_ifs <;> rfl
  have hnext := (h.upgradeStart hthread hidle hreader hfree hpoint).upgradeWait (update_self ..)
    hpoint heffect
  rwa [install_inside (s := { s with readers := s.readers.erase t }) _ _ _ hwoke] at hnext

theorem Inv.resume (h : s.Inv w u) {point : Point} (hstatus : s.status t = .woken point)
    (hbound : Bounded ((s.settleResumed t point (s.lock.resume point).outcome).install t
      (s.lock.resume point))) :
    ∃ w' u', Inv ((s.settleResumed t point (s.lock.resume point).outcome).install t
      (s.lock.resume point)) w' u' := by
  have hthread : s.lock.thread ≠ some t := fun hthread ↦ by
    simp [h.idle t hthread] at hstatus
  cases point with
  | writeReserve => exact h.lockWriteReserve hthread (by rw [hstatus]; rfl) (by rw [hstatus]; rfl)
  | writeDrain => exact h.lockWriteDrain hstatus
  | read => exact h.lockReadWait hthread (by rw [hstatus]; rfl) (by rw [hstatus]; rfl) hbound
  | upgrade => exact h.upgradeWait hstatus rfl rfl
  | tryUpgrade => exact h.upgradeWait hstatus rfl rfl

theorem Inv.lockWrite (h : s.Inv w u) (hidle : s.status t = .idle)
    (hallowed : s.Allowed t .write)
    (hbound : Bounded ((s.settle t .write (s.lock.lockWrite t).outcome).install t
      (s.lock.lockWrite t))) :
    ∃ w' u', Inv ((s.settle t .write (s.lock.lockWrite t).outcome).install t
      (s.lock.lockWrite t)) w' u' := by
  unfold LockData.lockWrite at hbound ⊢
  split_ifs at hbound ⊢ with hthread
  · refine ⟨w, u, ?_⟩
    rw [install_return_idle (by exact hidle)] at hbound ⊢
    exact ⟨h.recurse hthread (hallowed hthread) hbound.2,
      fun v point hv ↦ (h.blocked v point hv).mono id id id⟩
  · have hsettle : ∀ outcome, s.settle t .write outcome =
      s.settleResumed t .writeReserve outcome := by
      intro outcome
      cases outcome <;> rfl
    rw [hsettle]
    exact h.lockWriteReserve hthread (by rw [hidle]; rfl) (by rw [hidle]; rfl)

/-- A recursive thread is the only one that can own the lock exclusively. -/
theorem Owned.recursive_unique (h : s.Owned w u) (hthread : s.lock.thread = some t) {v : Tid}
    (hv : Base s.status w u v) : v = t := by
  rcases h.holds t hthread with ht | ht
  · exact (h.reader_eq hv ht).symm
  · exact h.base_unique hv (h.base_of_writer ht)

/-- A shared hold granted to a thread outside every routine. -/
theorem Inv.grantRead_idle (h : s.Inv w u) (hidle : s.status t = .idle)
    (hfree : ∀ v, Base s.status w u v → v = t) (hbound : s.readers.length + 1 < 2 ^ 16) :
    Inv { s with lock := s.lock.readCountInc, readers := t :: s.readers } w u := by
  have hnext := h.grantRead (by rw [hidle]; rfl) (by rw [hidle]; rfl) hfree hbound
  rwa [← hidle, update_eq_self] at hnext

theorem Inv.lockRead (h : s.Inv w u) (hidle : s.status t = .idle)
    (hbound : Bounded ((s.settle t .read (s.lock.lockRead t).outcome).install t
      (s.lock.lockRead t))) :
    ∃ w' u', Inv ((s.settle t .read (s.lock.lockRead t).outcome).install t
      (s.lock.lockRead t)) w' u' := by
  unfold LockData.lockRead at hbound ⊢
  split_ifs at hbound ⊢ with hthread
  · refine ⟨w, u, ?_⟩
    rw [install_return_idle (by exact hidle)] at hbound ⊢
    exact h.grantRead_idle hidle (fun v ↦ h.recursive_unique hthread) hbound.1
  · have hsettle : ∀ outcome, s.settle t .read outcome = s.settleResumed t .read outcome := by
      intro outcome
      cases outcome <;> rfl
    rw [hsettle] at hbound ⊢
    exact h.lockReadWait hthread (by rw [hidle]; rfl) (by rw [hidle]; rfl) hbound

theorem Inv.lockReadToWrite (h : s.Inv w u) (hidle : s.status t = .idle)
    (hallowed : s.Allowed t .readToWrite)
    (hbound : Bounded ((s.settle t .readToWrite (s.lock.lockReadToWrite t).outcome).install t
      (s.lock.lockReadToWrite t))) :
    ∃ w' u', Inv ((s.settle t .readToWrite (s.lock.lockReadToWrite t).outcome).install t
      (s.lock.lockReadToWrite t)) w' u' := by
  obtain ⟨hreader, hdown⟩ := hallowed
  unfold LockData.lockReadToWrite at hbound ⊢
  split_ifs at hbound ⊢ with hthread hlost
  · refine ⟨w, u, ?_⟩
    rw [install_return_idle (by exact hidle)] at hbound ⊢
    exact h.upgradeRecursive hthread (hdown hthread) hreader hbound.2
  · rw [install_wakeReturn (by exact hidle)]
    exact ⟨w, u, (h.releaseRead hreader (fun hself ↦ absurd hself hthread)).wakeAll⟩
  · have hsettle : (s.settle t .readToWrite
        (LockData.lockUpgradeWait { s.lock.readCountDec with wantUpgrade := true }).outcome) =
        settleResumed { s with readers := s.readers.erase t } t .upgrade
          (LockData.lockUpgradeWait { s.lock.readCountDec with wantUpgrade := true }).outcome := by
      unfold LockData.lockUpgradeWait
      split_ifs <;> rfl
    rw [hsettle]
    exact h.upgradeBegin hthread hidle hreader (by simpa using hlost) rfl rfl

theorem Inv.lockTryReadToWrite (h : s.Inv w u) (hidle : s.status t = .idle)
    (hallowed : s.Allowed t .tryReadToWrite)
    (hbound : Bounded ((s.settle t .tryReadToWrite (s.lock.lockTryReadToWrite t).outcome).install t
      (s.lock.lockTryReadToWrite t))) :
    ∃ w' u', Inv ((s.settle t .tryReadToWrite (s.lock.lockTryReadToWrite t).outcome).install t
      (s.lock.lockTryReadToWrite t)) w' u' := by
  obtain ⟨hreader, hdown⟩ := hallowed
  unfold LockData.lockTryReadToWrite at hbound ⊢
  split_ifs at hbound ⊢ with hthread hlost
  · refine ⟨w, u, ?_⟩
    rw [install_return_idle (by exact hidle)] at hbound ⊢
    exact h.upgradeRecursive hthread (hdown hthread) hreader hbound.2
  · rw [install_return_idle (by exact hidle)]
    exact ⟨w, u, h⟩
  · have hsettle : (s.settle t .tryReadToWrite
        (LockData.lockTryUpgradeWait { s.lock.readCountDec with wantUpgrade := true }).outcome) =
        settleResumed { s with readers := s.readers.erase t } t .tryUpgrade
          (LockData.lockTryUpgradeWait
            { s.lock.readCountDec with wantUpgrade := true }).outcome := by
      unfold LockData.lockTryUpgradeWait
      split_ifs <;> rfl
    rw [hsettle]
    exact h.upgradeBegin hthread hidle hreader (by simpa using hlost) rfl rfl

theorem Inv.lockTryWrite (h : s.Inv w u) (hidle : s.status t = .idle)
    (hallowed : s.Allowed t .tryWrite)
    (hbound : Bounded ((s.settle t .tryWrite (s.lock.lockTryWrite t).outcome).install t
      (s.lock.lockTryWrite t))) :
    ∃ w' u', Inv ((s.settle t .tryWrite (s.lock.lockTryWrite t).outcome).install t
      (s.lock.lockTryWrite t)) w' u' := by
  unfold LockData.lockTryWrite at hbound ⊢
  split_ifs at hbound ⊢ with hthread hbusy
  · refine ⟨w, u, ?_⟩
    rw [install_return_idle (by exact hidle)] at hbound ⊢
    exact ⟨h.recurse hthread (hallowed hthread) hbound.2,
      fun v point hv ↦ (h.blocked v point hv).mono id id id⟩
  · rw [install_return_idle (by exact hidle)]
    exact ⟨w, u, h⟩
  · push Not at hbusy
    obtain ⟨hwrite, hupgrade, hcount⟩ := hbusy
    refine ⟨some t, u, ?_⟩
    have hnext := (h.reserve hthread (by simpa using hwrite) (by rw [hidle]; rfl)).drained
      (update_self ..) hcount (by simpa using hupgrade)
    rw [install_return]
    simp only [update_idem] at hnext
    exact hnext

theorem Inv.lockTryRead (h : s.Inv w u) (hidle : s.status t = .idle)
    (hbound : Bounded ((s.settle t .tryRead (s.lock.lockTryRead t).outcome).install t
      (s.lock.lockTryRead t))) :
    ∃ w' u', Inv ((s.settle t .tryRead (s.lock.lockTryRead t).outcome).install t
      (s.lock.lockTryRead t)) w' u' := by
  unfold LockData.lockTryRead at hbound ⊢
  split_ifs at hbound ⊢ with hthread hbusy
  · refine ⟨w, u, ?_⟩
    rw [install_return_idle (by exact hidle)] at hbound ⊢
    exact h.grantRead_idle hidle (fun v ↦ h.recursive_unique hthread) hbound.1
  · rw [install_return_idle (by exact hidle)]
    exact ⟨w, u, h⟩
  · refine ⟨w, u, ?_⟩
    rw [install_return_idle (by exact hidle)] at hbound ⊢
    exact h.grantRead_idle hidle (h.base_of_not_busy hbusy) hbound.1

theorem settle_done_reader (hreader : t ∈ s.readers) (value : Bool) :
    s.settle t .done (.returned value) = { s with readers := s.readers.erase t } := if_pos hreader

theorem settle_done_writer (hreader : t ∉ s.readers) (value : Bool) :
    s.settle t .done (.returned value) = { s with writers := s.writers.erase t } := if_neg hreader

theorem Inv.lockDone (h : s.Inv w u) (hidle : s.status t = .idle) (hallowed : s.Allowed t .done) :
    ∃ w' u', Inv ((s.settle t .done s.lock.lockDone.outcome).install t s.lock.lockDone) w' u' := by
  obtain ⟨hheld, hlast⟩ := hallowed
  by_cases hreader : t ∈ s.readers
  · have hcount : s.lock.readCount ≠ 0 := by
      rw [h.readCount_eq]
      exact Nat.ne_of_gt (List.length_pos_of_mem hreader)
    rw [LockData.lockDone, if_pos hcount]
    change ∃ w' u', Inv ((s.settle t .done (.returned true)).install t _) w' u'
    rw [settle_done_reader hreader, install_wakeReturn (by exact hidle)]
    refine ⟨w, u, (h.releaseRead hreader fun hself ↦ ?_).wakeAll⟩
    by_contra hnone
    push Not at hnone
    have hone := List.count_pos_iff.2 hreader
    have hzero := List.count_eq_zero.2 hnone.2
    have herased := List.count_eq_zero.2 hnone.1
    rw [List.count_erase_self] at herased
    exact hlast (by omega) hself
  · have hwriter : t ∈ s.writers := hheld.resolve_left hreader
    have hcount : s.lock.readCount = 0 := by
      rw [h.readCount_eq, List.length_eq_zero_iff, List.eq_nil_iff_forall_not_mem]
      rintro r hr
      obtain rfl := h.reader_eq (h.base_of_writer hwriter) hr
      exact hreader hr
    rw [LockData.lockDone, if_neg (not_not.2 hcount)]
    change ∃ w' u', Inv ((s.settle t .done (.returned true)).install t _) w' u'
    rw [settle_done_writer hreader, install_wakeReturn (by exact hidle)]
    have hkeep : s.lock.thread = some t →
        (s.downgraded t = true ∧ t ∈ s.readers) ∨ 2 ≤ s.writers.count t := by
      intro hself
      have hone := List.count_pos_iff.2 hwriter
      have hzero := List.count_eq_zero.2 hreader
      have hnotlast : s.readers.count t + s.writers.count t ≠ 1 := fun hcount ↦ hlast hcount hself
      right
      omega
    obtain ⟨w', u', hnext⟩ := h.releaseWrite hidle hwriter hkeep
    exact ⟨w', u', hnext.wakeAll⟩

theorem Inv.lockWriteToRead (h : s.Inv w u) (hidle : s.status t = .idle)
    (hallowed : s.Allowed t .writeToRead)
    (hbound : Bounded ((s.settle t .writeToRead s.lock.lockWriteToRead.outcome).install t
      s.lock.lockWriteToRead)) :
    ∃ w' u', Inv ((s.settle t .writeToRead s.lock.lockWriteToRead.outcome).install t
      s.lock.lockWriteToRead) w' u' := by
  rw [LockData.lockWriteToRead, install_wakeReturn (by exact hidle)] at hbound ⊢
  have hown := h.base_of_writer hallowed
  have hread := h.grantRead_idle hidle (fun v hv ↦ h.base_unique hv hown) hbound.1
  have hmark := hread.toOwned.downgrade
    (if s.lock.thread = some t then update s.downgraded t true else s.downgraded) (by
      intro v hv
      split_ifs at hv with hthread
      · by_cases hvt : v = t
        · simp [hvt] at hv
        · rwa [update_of_ne hvt] at hv
      · exact hv)
  obtain ⟨w', u', hnext⟩ := hmark.releaseWrite hidle hallowed fun hthread ↦
    .inl ⟨by rw [if_pos (by exact hthread)]; exact update_self .., List.mem_cons_self ..⟩
  exact ⟨w', u', hnext.wakeAll⟩

theorem Inv.lockSetRecursive (h : s.Inv w u) (hidle : s.status t = .idle)
    (hallowed : s.Allowed t .setRecursive) {effect : Effect Tid}
    (heffect : s.lock.lockSetRecursive t = .ok effect) :
    ∃ w' u', Inv ((s.settle t .setRecursive effect.outcome).install t effect) w' u' := by
  unfold LockData.lockSetRecursive at heffect
  split_ifs at heffect with hwrite hother
  obtain rfl := Except.ok.inj heffect
  rw [install_return_idle (by exact hidle)]
  refine ⟨w, u, h.setRecursive hidle hallowed ?_⟩
  by_contra hnot
  push Not at hnot
  exact hother hnot

theorem Inv.lockClearRecursive (h : s.Inv w u) (hidle : s.status t = .idle) {effect : Effect Tid}
    (heffect : s.lock.lockClearRecursive t = .ok effect) :
    ∃ w' u', Inv ((s.settle t .clearRecursive effect.outcome).install t effect) w' u' := by
  unfold LockData.lockClearRecursive at heffect
  split_ifs at heffect with hthread hzero
  · obtain rfl := Except.ok.inj heffect
    rw [install_return_idle (by exact hidle)]
    exact ⟨w, u, h.clearRecursive hzero⟩
  · obtain rfl := Except.ok.inj heffect
    rw [install_return_idle (by exact hidle)]
    exact ⟨w, u, h⟩

theorem Inv.call (h : s.Inv w u) (hidle : s.status t = .idle) {call : Call} {effect : Effect Tid}
    (hallowed : s.Allowed t call) (heffect : s.lock.call t call = .ok effect)
    (hbound : Bounded ((s.settle t call effect.outcome).install t effect)) :
    ∃ w' u', Inv ((s.settle t call effect.outcome).install t effect) w' u' := by
  cases call with
  | write => cases heffect; exact h.lockWrite hidle hallowed hbound
  | read => cases heffect; exact h.lockRead hidle hbound
  | readToWrite => cases heffect; exact h.lockReadToWrite hidle hallowed hbound
  | writeToRead => cases heffect; exact h.lockWriteToRead hidle hallowed hbound
  | tryWrite => cases heffect; exact h.lockTryWrite hidle hallowed hbound
  | tryRead => cases heffect; exact h.lockTryRead hidle hbound
  | tryReadToWrite => cases heffect; exact h.lockTryReadToWrite hidle hallowed hbound
  | done => cases heffect; exact h.lockDone hidle hallowed
  | setRecursive => exact h.lockSetRecursive hidle hallowed heffect
  | clearRecursive => exact h.lockClearRecursive hidle heffect

/-- One segment keeps the invariant, as long as the bit fields do not overflow. -/
theorem Inv.step (h : s.Inv w u) {s' : System Tid} (hstep : s.Step s') (hbound : s'.Bounded) :
    ∃ w' u', s'.Inv w' u' := by
  cases hstep with
  | call t call effect hidle hallowed heffect => exact h.call hidle hallowed heffect hbound
  | resume t point hstatus => exact h.resume hstatus hbound

end System

end Bsd386.Kern.Lock

/-!
# Exclusion and wakeups of a sleep lock

The invariant holds in every state of every run in which the holds fit the bit fields, so such a
run never grants conflicting holds and never leaves a sleeper behind. Past the width of
`read_count` both fail.
-/

namespace Bsd386.Kern.Lock.System

open Function Relation

variable {Tid : Type*} [DecidableEq Tid] {s : System Tid}

/-! ## Runs -/

/-- The states of all runs in which the outstanding holds always fit the bit fields. -/
def BoundedReachable (s : System Tid) : Prop :=
  ∃ start, Initial start ∧ ReflTransGen (fun a b ↦ Step a b ∧ Bounded b) start s

theorem BoundedReachable.inv (h : s.BoundedReachable) : ∃ w u, s.Inv w u := by
  obtain ⟨start, hstart, hrun⟩ := h
  induction hrun with
  | refl => exact ⟨none, none, Inv.initial hstart⟩
  | tail _ hstep ih =>
    obtain ⟨w, u, hinv⟩ := ih
    exact hinv.step hstep.1 hstep.2

/-- At most one thread holds the lock exclusively, and while one does no other holds it shared. -/
theorem lock_exclusion (h : s.BoundedReachable) : s.Exclusive := by
  obtain ⟨w, u, hinv⟩ := h.inv
  exact hinv.exclusive

/-- No sleeper is left behind when every hold is gone and nobody is about to run. -/
theorem lock_no_lost_wakeup (h : s.BoundedReachable) : ¬ s.Stranded := by
  obtain ⟨w, u, hinv⟩ := h.inv
  exact hinv.not_stranded

/-! ## A run that stays within the fields -/

/-- A fresh lock. -/
def fresh : System ℕ where
  lock := LockData.lockInit ⟨0, 0, false, false, false, none⟩
  status _ := .idle
  readers := []
  writers := []
  downgraded _ := false

theorem fresh_initial : fresh.Initial := ⟨⟨_, rfl⟩, fun _ ↦ rfl, rfl, rfl⟩

/-- Thread 1 has taken the lock for writing and thread 2 sleeps in `lock_read`. -/
def contended : System ℕ :=
  { fresh with
    lock := ⟨0, 0, true, false, true, none⟩
    status := update fresh.status 2 (.asleep .read)
    writers := [1] }

theorem contended_reachable : contended.BoundedReachable := by
  refine ⟨fresh, fresh_initial, ?_⟩
  have hwrite := Step.call (s := fresh) 1 .write _ rfl (fun _ ↦ rfl) rfl
  have hread :=
    Step.call (s := { fresh with lock := ⟨0, 0, true, false, false, none⟩, writers := [1] })
    2 .read _ rfl trivial rfl
  rw [show fresh.lock.lockWrite 1 = LockData.return_ ⟨0, 0, true, false, false, none⟩ true from rfl,
    install_return_idle rfl] at hwrite
  exact (ReflTransGen.single ⟨hwrite, by decide⟩).tail ⟨hread, by decide⟩

theorem lock_exclusion_contended : contended.Exclusive ∧ contended.writers = [1] :=
  ⟨lock_exclusion contended_reachable, rfl⟩

/-- Thread 1 has released the lock, and thread 2 has been woken. -/
def released : System ℕ :=
  { fresh with
    status := fun t ↦ if contended.lock.waiting then (contended.status t).wake
      else contended.status t }

theorem released_reachable : released.BoundedReachable := by
  obtain ⟨start, hstart, hrun⟩ := contended_reachable
  have hdone := Step.call (s := contended) 1 .done _ rfl ⟨.inr (by decide), fun _ ↦ by decide⟩ rfl
  change Step contended ((contended.settle 1 .done (.returned true)).install 1
    (LockData.wakeReturn ⟨0, 0, false, false, true, none⟩ true)) at hdone
  rw [settle_done_writer (by decide), install_wakeReturn rfl] at hdone
  exact ⟨start, hstart, hrun.tail ⟨hdone, by decide⟩⟩

theorem lock_no_lost_wakeup_released : ¬ released.Stranded ∧ released.status 2 = .woken .read :=
  ⟨lock_no_lost_wakeup released_reachable, rfl⟩

/-! ## Past the width of `read_count` -/

/-- Thread 1 has taken the lock for reading `n` times. -/
def shared (n : ℕ) : System ℕ :=
  { fresh with
    lock := { fresh.lock with readCount := n % 2 ^ 16 }
    readers := List.replicate n 1 }

theorem shared_step (n : ℕ) : Step (shared n) (shared (n + 1)) := by
  have hstep := Step.call (s := shared n) 1 .read _ rfl trivial rfl
  rw [show (shared n).lock.lockRead 1 = (shared n).lock.readCountInc.return_ true from rfl,
    install_return_idle rfl] at hstep
  have hcount : (shared n).lock.readCountInc = (shared (n + 1)).lock := by
    simp [LockData.readCountInc, shared, Nat.add_mod]
  rwa [hcount] at hstep

theorem shared_reachable (n : ℕ) : (shared n).Reachable := by
  refine ⟨fresh, fresh_initial, ?_⟩
  induction n with
  | zero => exact .refl
  | succ n ih => exact ih.tail (shared_step n)

/-- After 65536 shared holds `read_count` is zero again, and `lock_write` is granted beside them. -/
theorem lock_exclusion_fails : ¬ ∀ s : System ℕ, s.Reachable → s.Exclusive := by
  intro hall
  have hcount : (shared (2 ^ 16)).lock = fresh.lock :=
    congrArg (fun count ↦ { fresh.lock with readCount := count }) (Nat.mod_self (2 ^ 16))
  have hwrite := Step.call (s := shared (2 ^ 16)) 2 .write _ rfl (fun _ ↦ rfl) rfl
  obtain ⟨start, hstart, hrun⟩ := shared_reachable (2 ^ 16)
  have hexclusive := hall _ ⟨start, hstart, hrun.tail hwrite⟩
  have heffect : (shared (2 ^ 16)).lock.lockWrite 2 =
      LockData.return_ { fresh.lock with wantWrite := true } true := by
    rw [hcount]
    rfl
  rw [heffect] at hexclusive
  have hreader : 1 ∈ List.replicate (2 ^ 16) 1 := List.mem_replicate.2 ⟨by decide, rfl⟩
  exact absurd (hexclusive.2 2 (List.mem_cons_self ..) 1 hreader) (by decide)

/-- Thread 1 has taken the lock for reading once, and thread 2 `n` times after it. -/
def mixed (n : ℕ) : System ℕ :=
  { fresh with
    lock := { fresh.lock with readCount := (n + 1) % 2 ^ 16 }
    readers := List.replicate n 2 ++ [1] }

theorem mixed_step (n : ℕ) : Step (mixed n) (mixed (n + 1)) := by
  have hstep := Step.call (s := mixed n) 2 .read _ rfl trivial rfl
  rw [show (mixed n).lock.lockRead 2 = (mixed n).lock.readCountInc.return_ true from rfl,
    install_return_idle rfl] at hstep
  have hcount : (mixed n).lock.readCountInc = (mixed (n + 1)).lock := by
    simp [LockData.readCountInc, mixed, Nat.add_mod]
  rwa [hcount] at hstep

theorem mixed_reachable (n : ℕ) : (mixed n).Reachable := by
  refine ⟨fresh, fresh_initial, ?_⟩
  induction n with
  | zero => exact .single (shared_step 0)
  | succ n ih => exact ih.tail (mixed_step n)

/-- Thread 1 is inside its upgrade while thread 2 still has `n` shared holds; one release too few
has been counted. -/
def waitingUpgrade (n : ℕ) (status : Status) (waiting : Bool) : System ℕ :=
  { fresh with
    lock := ⟨n + 1, 0, false, true, waiting, none⟩
    status := update fresh.status 1 status
    readers := List.replicate n 2 }

theorem waitingUpgrade_step (n : ℕ) (status : Status) (waiting : Bool) :
    Step (waitingUpgrade (n + 1) status waiting)
      (waitingUpgrade n (if waiting then status.wake else status) false) := by
  have hallowed : (waitingUpgrade (n + 1) status waiting).Allowed 2 .done :=
    ⟨.inl (List.mem_cons_self ..), fun _ ↦ by simp [waitingUpgrade]⟩
  have hstep := Step.call 2 .done _ rfl hallowed rfl
  have heffect : (waitingUpgrade (n + 1) status waiting).lock.lockDone =
      LockData.wakeReturn ⟨n + 1, 0, false, true, waiting, none⟩ true := rfl
  have hmem : 2 ∈ (waitingUpgrade (n + 1) status waiting).readers := List.mem_cons_self ..
  have herase : (waitingUpgrade (n + 1) status waiting).readers.erase 2 = List.replicate n 2 :=
    List.erase_cons_head ..
  have hstatus : update fresh.status 1 (if waiting then status.wake else status) =
      fun t ↦ if waiting then (update fresh.status 1 status t).wake
        else update fresh.status 1 status t := by
    funext t
    cases waiting <;> by_cases ht : t = 1 <;> simp [fresh, ht, Status.wake]
  rw [heffect] at hstep
  change Step _ ((settle _ 2 .done (.returned true)).install 2 _) at hstep
  rw [settle_done_reader hmem, herase, install_wakeReturn rfl] at hstep
  unfold waitingUpgrade at hstep ⊢
  rw [hstatus]
  exact hstep

/-- Thread 2 releases all its holds; the first release wakes thread 1. -/
theorem waitingUpgrade_run (n : ℕ) :
    ReflTransGen Step (waitingUpgrade n (.woken .upgrade) false)
      (waitingUpgrade 0 (.woken .upgrade) false) := by
  induction n with
  | zero => exact .refl
  | succ n ih => exact ih.head (waitingUpgrade_step n (.woken .upgrade) false)

/-- With `read_count` at zero, a release of a shared hold counts nothing. -/
theorem uncounted_step (n : ℕ) :
    Step { fresh with readers := List.replicate (n + 1) 2 ++ [1] }
      { fresh with readers := List.replicate n 2 ++ [1] } := by
  have hmem : 2 ∈ List.replicate (n + 1) 2 ++ [1] := List.mem_cons_self ..
  have hstep := Step.call (s := { fresh with readers := List.replicate (n + 1) 2 ++ [1] }) 2 .done _
    rfl ⟨.inl hmem, fun _ ↦ by simp [fresh, LockData.lockInit]⟩ rfl
  change Step _ ((settle _ 2 .done (.returned true)).install 2
    (fresh.lock.wakeReturn true)) at hstep
  rw [settle_done_reader (by exact hmem), install_wakeReturn rfl] at hstep
  exact hstep

/-- The upgrade then takes `read_count` below zero, and waits for the wrapped count. -/
theorem upgrade_step (n : ℕ) :
    Step { fresh with readers := List.replicate n 2 ++ [1] }
      { fresh with
        lock := ⟨2 ^ 16 - 1, 0, false, true, true, none⟩
        status := update fresh.status 1 (.asleep .upgrade)
        readers := List.replicate n 2 } := by
  have hmem : 1 ∈ List.replicate n 2 ++ [1] := by simp
  have hstep := Step.call (s := { fresh with readers := List.replicate n 2 ++ [1] }) 1
    .readToWrite _
    rfl ⟨hmem, fun _ ↦ rfl⟩ rfl
  have herase : (List.replicate n 2 ++ [1]).erase 1 = List.replicate n 2 := by
    rw [List.erase_append_right _ (by simp)]
    simp
  change Step _ { fresh with
    lock := ⟨2 ^ 16 - 1, 0, false, true, true, none⟩
    status := update fresh.status 1 (.asleep .upgrade)
    readers := (List.replicate n 2 ++ [1]).erase 1 } at hstep
  rwa [herase] at hstep

/-- Thread 1 wakes to a count that nobody will bring down, and sleeps again. -/
theorem resume_step :
    Step (waitingUpgrade 0 (.woken .upgrade) false) (waitingUpgrade 0 (.asleep .upgrade) true) := by
  have hstep := Step.resume (s := waitingUpgrade 0 (.woken .upgrade) false) 1 .upgrade rfl
  change Step _ { waitingUpgrade 0 (.woken .upgrade) false with
    lock := ⟨1, 0, false, true, true, none⟩
    status := update (update fresh.status 1 (.woken .upgrade)) 1 (.asleep .upgrade) } at hstep
  rwa [update_idem] at hstep

/-- After 65536 shared holds one release is not counted, and the last upgrade sleeps for ever. -/
theorem lock_no_lost_wakeup_fails : ¬ ∀ s : System ℕ, s.Reachable → ¬ s.Stranded := by
  intro hall
  obtain ⟨start, hstart, hrun⟩ := mixed_reachable (2 ^ 16 - 1)
  have hwrapped : mixed (2 ^ 16 - 1) =
      { fresh with readers := List.replicate (2 ^ 16 - 3 + 1 + 1) 2 ++ [1] } := rfl
  rw [hwrapped] at hrun
  have hasleep : ReflTransGen Step start
      (waitingUpgrade (2 ^ 16 - 3 + 1) (.asleep .upgrade) true) :=
    (hrun.tail (uncounted_step (2 ^ 16 - 3 + 1))).tail (upgrade_step (2 ^ 16 - 3 + 1))
  have hwoken := (hasleep.tail (waitingUpgrade_step (2 ^ 16 - 3) (.asleep .upgrade) true)).trans
    (waitingUpgrade_run _)
  refine hall _ ⟨start, hstart, hwoken.tail resume_step⟩ ⟨rfl, rfl, ?_, 1, .upgrade, rfl⟩
  intro t point
  by_cases ht : t = 1 <;> simp [waitingUpgrade, fresh, ht]

end Bsd386.Kern.Lock.System
