import Bsd386.Kern.Sleep.Alert

/-!
# Signals in all runs

Every event keeps what holds of the signals, unless `SIGCONT` puts a process back to sleep that has
another signal to be delivered.
-/

namespace Bsd386.Kern.Sleep

open Function

variable {P : Type} {s s' : System P} {p : P} {sig : Sig} {heeding : Prop}

/-- A process that does not sleep has no new signal pending. -/
theorem Alert.awake {q : Proc P} (h : Alert heeding s p) (hq : s'.proc p = q)
    (hpc : s'.pc p = s.pc p)
    (hstat : q.stat ≠ .ssleep) (hsig : ∀ sig, q.sig sig = true → (s.proc p).sig sig = true)
    (hrest : q.ssintr = (s.proc p).ssintr ∧ q.wchan = (s.proc p).wchan)
    (hcont : q.sigignore sigcont = true → q.swexit = true)
    (hexits : q.swexit = true → (∀ sig, q.sigignore sig = true) ∧ q.stat ≠ .sstop) :
    Alert heeding s' p := by
  refine ⟨fun _ hsleep ↦ ?_, fun sig hstop hpending ↦ ?_, fun hset ↦ ?_, fun hne ↦ ?_, ?_, ?_⟩
  · rw [hq] at hsleep
    exact absurd hsleep hstat
  · rw [hq] at hpending ⊢
    refine Bool.eq_false_iff.mpr fun hset ↦ ?_
    have hnot := h.exclusive sig hstop (hsig sig hpending)
    exact absurd (hnot.symm.trans (hsig sigcont hset)) Bool.false_ne_true
  · rw [hq, hrest.1] at hset
    exact hpc ▸ h.intr hset
  · rw [hq, hrest.2] at hne ⊢
    exact hpc ▸ h.chan hne
  · rw [hq]
    exact hcont
  · rw [hq]
    exact hexits

variable [DecidableEq P]

/-- A change of a process that does not sleep. -/
theorem alert_modify {f : Proc P → Proc P} (halert : ∀ r, Alert heeding s r)
    (hstat : (f (s.proc p)).stat ≠ .ssleep)
    (hsig : ∀ sig, (f (s.proc p)).sig sig = true → (s.proc p).sig sig = true)
    (hrest : (f (s.proc p)).ssintr = (s.proc p).ssintr ∧ (f (s.proc p)).wchan = (s.proc p).wchan)
    (hcont : (f (s.proc p)).sigignore sigcont = true → (f (s.proc p)).swexit = true)
    (hexits : (f (s.proc p)).swexit = true →
      (∀ sig, (f (s.proc p)).sigignore sig = true) ∧ (f (s.proc p)).stat ≠ .sstop) :
    ∀ r, Alert heeding (s.modify p f) r :=
  alert_own halert (.of_update (modify_proc s p f)) (fun _ _ ↦ rfl)
    ((halert p).awake (modify_self s p f) rfl hstat hsig hrest hcont hexits)

omit [DecidableEq P] in
/-- What `sigaction` leaves alone, and what it does to the signals. -/
theorem Proc.sigaction_signals (sig : Sig) (act : Action) (intr nocldstop : Bool) (q : Proc P) :
    (∀ k, (q.sigaction sig act intr nocldstop).sig k = true → q.sig k = true) ∧
      (q.sigaction sig act intr nocldstop).ssintr = q.ssintr ∧
      (q.sigaction sig act intr nocldstop).swexit = q.swexit ∧
      ((q.sigaction sig act intr nocldstop).sigignore sigcont = true → q.sigignore sigcont = true) ∧
      (q.swexit = true → q.sigaction sig act intr nocldstop = q) := by
  rw [Proc.sigaction]
  by_cases hnot : sig = nosig ∨ sigcantmask sig = true ∨ q.swexit = true
  · rw [if_pos hnot]
    exact ⟨fun _ h ↦ h, rfl, rfl, id, fun _ ↦ rfl⟩
  rw [if_neg hnot]
  have hexit : q.swexit ≠ true := fun h ↦ hnot (.inr (.inr h))
  by_cases hignore : act = .sigIgn ∨ sig.has saIgnore = true ∧ act = .sigDfl
  · rw [if_pos hignore]
    refine ⟨fun k hk ↦ ?_, rfl, rfl, fun h ↦ ?_, fun h ↦ absurd h hexit⟩
    · change update q.sig sig false k = true at hk
      by_cases hks : k = sig
      · rw [hks, update_self] at hk
        cases hk
      · rwa [update_of_ne hks] at hk
    · change (if sig ≠ sigcont then update q.sigignore sig true else q.sigignore) sigcont =
        true at h
      by_cases hsig : sig ≠ sigcont
      · rwa [if_pos hsig, update_of_ne hsig.symm] at h
      · rwa [if_neg hsig] at h
  · rw [if_neg hignore]
    refine ⟨fun _ h ↦ h, rfl, rfl, fun h ↦ ?_, fun h ↦ absurd h hexit⟩
    change update q.sigignore sig false sigcont = true at h
    by_cases hsig : sigcont = sig
    · rw [hsig, update_self] at h
      cases h
    · rwa [update_of_ne hsig] at h

/-- An event keeps what holds of the signals. -/
theorem alert_exec [Fintype P] {e : Event P} (hsound : Sound s) (halert : ∀ r, Alert heeding s r)
    (hheeding : heeding → e.Heeding s) (h : s.exec e = .ok s') : ∀ r, Alert heeding s' r := by
  -- The process that runs changes its own signals.
  have hchange : ∀ {f : Proc P → Proc P}, s.change f = .ok s' →
      (∀ p, s.outside = some p → (s.proc p).stat = .srun →
        (f (s.proc p)).stat = .srun ∧ (∀ sig, (f (s.proc p)).sig sig = true →
          (s.proc p).sig sig = true) ∧
        ((f (s.proc p)).ssintr = (s.proc p).ssintr ∧ (f (s.proc p)).wchan = (s.proc p).wchan) ∧
        ((f (s.proc p)).sigignore sigcont = true → (f (s.proc p)).swexit = true) ∧
        ((f (s.proc p)).swexit = true → ∀ sig, (f (s.proc p)).sigignore sig = true)) →
      ∀ r, Alert heeding s' r := by
    intro f h hf
    rw [System.change] at h
    cases hout : s.outside with
    | none =>
      rw [hout] at h
      cases h
      exact halert
    | some p =>
      rw [hout] at h
      cases h
      obtain ⟨hcur, hpc⟩ := outside_eq_some hout
      have hstat := ((hsound.current p hcur).running.resolve_right (by rw [hpc]; exact id)).1
      obtain ⟨hstat', hsig, hrest, hcont, hexits⟩ := hf p hout hstat
      exact alert_modify halert (by rw [hstat']; decide) hsig hrest hcont fun hexit ↦
        ⟨hexits hexit, by rw [hstat']; decide⟩
  cases e with
  | tsleep chan pri pcatch timo =>
    rw [System.exec] at h
    cases hout : s.outside with
    | none =>
      rw [hout] at h
      cases h
      exact halert
    | some p =>
      rw [hout] at h
      exact alert_tsleep hsound (outside_eq_some hout).1 (outside_eq_some hout).2 halert h
  | step =>
    rw [System.exec] at h
    cases hcur : s.curproc with
    | none =>
      rw [hcur] at h
      cases h
      exact halert
    | some p =>
      rw [hcur] at h
      exact alert_step hsound hcur halert h
  | cursig =>
    rw [System.exec] at h
    cases hout : s.outside with
    | none =>
      rw [hout] at h
      cases h
      exact halert
    | some p =>
      rw [hout] at h
      cases h
      obtain ⟨hcur, hpc⟩ := outside_eq_some hout
      refine alert_goto halert (hsound.current p hcur).wchan _ fun hintr ↦ ?_
      rw [hpc] at hintr
      exact hintr.elim
  | psig sig catchmask =>
    refine hchange h fun p _ hstat ↦ ⟨hstat, fun k hk ↦ ?_, ⟨rfl, rfl⟩, (halert p).cont, fun hexit ↦
      ((halert p).exits hexit).1⟩
    change update (s.proc p).sig sig false k = true at hk
    by_cases hks : k = sig
    · rw [hks, update_self] at hk
      cases hk
    · rwa [update_of_ne hks] at hk
  | sigaction sig act intr nocldstop =>
    refine hchange h fun p _ hstat ↦ ?_
    obtain ⟨hsig, hintr, hexit, hcont, hsame⟩ :=
      (s.proc p).sigaction_signals sig act intr nocldstop
    obtain ⟨hstat', hwchan, -⟩ := Proc.sigaction_rest sig act intr nocldstop (s.proc p)
    refine ⟨hstat'.trans hstat, hsig, ⟨hintr, hwchan⟩, fun h ↦ ?_, fun h ↦ ?_⟩
    · rw [hexit]
      exact (halert p).cont (hcont h)
    · rw [hexit] at h
      rw [hsame h]
      exact ((halert p).exits h).1
  | sigprocmask how mask =>
    exact hchange h fun p _ hstat ↦ ⟨hstat, fun _ h ↦ h, ⟨rfl, rfl⟩, (halert p).cont, fun hexit ↦
      ((halert p).exits hexit).1⟩
  | sigsuspend mask =>
    exact hchange h fun p _ hstat ↦ ⟨hstat, fun _ h ↦ h, ⟨rfl, rfl⟩, (halert p).cont, fun hexit ↦
      ((halert p).exits hexit).1⟩
  | qswtch usrpri =>
    rw [System.exec] at h
    cases hout : s.outside with
    | none =>
      rw [hout] at h
      cases h
      exact halert
    | some p =>
      rw [hout] at h
      obtain ⟨t, ht, h⟩ := bind_eq_ok h
      cases h
      obtain ⟨hproc, hpc, hcur⟩ := setrq_proc ht
      have hpri : (s.proc p).Tame { s.proc p with pri := usrpri } :=
        ⟨⟨rfl, rfl, rfl, rfl, rfl, rfl, rfl, id, fun _ ↦ rfl, .inl⟩,
        fun hstat _ ↦ ⟨hstat, fun _ h ↦ h⟩⟩
      have halertt :=
        alert_tame halert (Tamely.of_update ⟨hproc.trans (modify_proc s p _), hpc, hcur⟩ hpri)
      exact fun r ↦ (halertt r).congr rfl rfl
  | exiting =>
    exact hchange h fun p _ hstat ↦ ⟨hstat, fun _ h ↦ absurd h Bool.false_ne_true, ⟨rfl, rfl⟩,
      fun _ ↦ rfl, fun _ _ ↦ rfl⟩
  | exit =>
    rw [System.exec] at h
    cases hout : s.outside with
    | none =>
      rw [hout] at h
      cases h
      exact halert
    | some p =>
      rw [hout] at h
      cases h
      have hzomb := alert_modify (f := fun q ↦ { q with stat := .szomb }) (p := p) halert
        (fun h ↦ by cases h) (fun _ h ↦ h) ⟨rfl, rfl⟩ (halert p).cont fun hexit ↦
          ⟨((halert p).exits hexit).1, fun h ↦ by cases h⟩
      exact fun r ↦ (hzomb r).congr rfl rfl
  | swtch =>
    rw [System.exec] at h
    split_ifs at h
    · obtain ⟨t, ht, -, hproc, -, hpc, -⟩ := hsound.queued.swtch
      rw [ht] at h
      cases h
      exact fun r ↦ (halert r).congr (congrFun hproc r) (congrFun hpc r)
    · cases h
      exact halert
  | wakeup chan => exact alert_tame halert (wakeup_tame h)
  | psignal p sig =>
    rcases psignal_tame h with htame | ⟨rfl, hcontinued⟩
    · exact alert_tame halert htame
    · exact alert_continued halert hcontinued fun hyes ↦ hheeding hyes p rfl
  | setrun p => exact alert_tame halert (setrun_proc h).1
  | unsleep p => exact alert_tame halert (Tamely.of_update (unsleep_proc h) (Proc.tame_unsleep _))
  | endtsleep p =>
    rw [System.exec] at h
    split_ifs at h
    · have halert' : ∀ r, Alert heeding ({ s with callouts := s.callouts.erase p } : System P) r :=
        fun r ↦ (halert r).congr rfl rfl
      exact alert_tame halert' (endtsleep_tame h)
    · cases h
      exact halert
  | relate p pptr pgrp =>
    rw [System.exec] at h
    split_ifs at h
    · cases h
      exact halert
    · cases h
      exact alert_tame halert
        (tamely_modify ⟨⟨rfl, rfl, rfl, rfl, rfl, rfl, rfl, id, fun _ ↦ rfl, .inl⟩,
        fun hstat _ ↦ ⟨hstat, fun _ h ↦ h⟩⟩)
  | vfork p =>
    rw [System.exec] at h
    split_ifs at h with hidl
    · cases h
      refine alert_modify halert ?_ (fun _ h ↦ h) ⟨rfl, rfl⟩ (halert p).cont fun hexit ↦
        (halert p).exits hexit
      exact fun h ↦ absurd (hidl.symm.trans h) (by decide)
    · cases h
      exact halert
  | release =>
    exact hchange h fun p _ hstat ↦ ⟨hstat, fun _ h ↦ h, ⟨rfl, rfl⟩, (halert p).cont, fun hexit ↦
      ((halert p).exits hexit).1⟩
  | setJobc pgrp n =>
    cases h
    exact fun r ↦ (halert r).congr rfl rfl

/-! ### Runs -/

variable [Fintype P]

theorem Reach.alert {allowed : System P → Event P → Prop} (hreach : Reach allowed s)
    (hheeding : heeding → ∀ s e, allowed s e → e.Heeding s) (r : P) : Alert heeding s r := by
  induction hreach generalizing r with
  | start hinit => exact hinit.alert r
  | step hprev hallowed hexec ih =>
    exact alert_exec hprev.sound ih (fun hyes ↦ hheeding hyes _ _ hallowed) hexec r

theorem Reach.any {allowed : System P → Event P → Prop} (hreach : Reach allowed s) :
    Reach (fun _ _ ↦ True) s := by
  induction hreach with
  | start hinit => exact .start hinit
  | step _ _ hexec ih => exact ih.step trivial hexec

/-- The process can run, and is on a run queue if it is in memory. -/
def Runnable (s : System P) (p : P) : Prop :=
  (s.proc p).stat = .srun ∧ ((s.proc p).sload = true →
    ∃ i, ∃ l : List P, s.links.Ring (.header i) (l.map .proc) ∧ p ∈ l)

/-- A stopped process is made to run. -/
theorem Queued.setrun_runnable (hq : Queued s) (hstop : (s.proc p).stat = .sstop) :
    ∃ s', s.setrun p = .ok s' ∧ Runnable s' p := by
  obtain ⟨s', hrun, ⟨sl, rl, hq'⟩, hquiet, hproc⟩ := hq.setrun (p := p) (.inl (.inr hstop))
  have hstat : (s'.proc p).stat = .srun := by rw [hproc, update_self]
  refine ⟨s', hrun, hstat, fun hload ↦ ?_⟩
  have hprev := (hquiet.ready p id hstat hload).resolve_left (by rw [hstop]; decide)
  obtain ⟨i, hi⟩ := (hq'.ready p).mpr hprev
  exact ⟨i, rl i, hq'.runners i, hi⟩

/-- `SIGCONT` makes a stopped process run, or puts it back to sleep where it slept. -/
theorem Sound.continued (hsound : Sound s) (halert : ∀ r, Alert heeding s r)
    (hstop : (s.proc p).stat = .sstop) :
    ∃ s', s.psignal p sigcont = .ok s' ∧ (Runnable s' p ∨ (s'.proc p).stat = .ssleep ∧
      (s'.proc p).wchan = (s.pc p).chan ∧ ∃ l, s'.Asleep (hash (s.pc p).chan) l ∧ p ∈ l) := by
  have hignore : ¬(s.proc p).sigignore sigcont = true := fun h ↦
    ((halert p).exits ((halert p).cont h)).2 hstop
  have horphan : ¬s.Orphaned p sigcont := fun h ↦ absurd h.1 (by decide)
  have hhold : ¬((s.proc p).reaction sigcont = .sigHold ∧
      (sigcont.has saCont = false ∨ (s.proc p).stat ≠ .sstop)) := by
    rintro ⟨-, h | h⟩
    · exact absurd h (by decide)
    · exact h hstop
  rw [System.psignal, psignalWith_eq, if_neg (by decide), if_neg hignore, if_neg horphan,
    if_neg hhold]
  obtain ⟨u, hu⟩ : ∃ u, s.modify p (fun q ↦ q.posted sigcont) = u := ⟨_, rfl⟩
  have hself : u.proc p = (s.proc p).posted sigcont := by rw [← hu, modify_self]
  have hqu : Queued u := hu ▸ hsound.queued.modify_same rfl rfl rfl
  have hustat : (u.proc p).stat = .sstop := by
    rw [hself]
    exact hstop
  have huwchan : (u.proc p).wchan = (s.proc p).wchan := by
    rw [hself]
    rfl
  rw [hu, System.react, hustat]
  dsimp only
  rw [if_neg (by decide), if_pos (by decide)]
  -- The signal is taken again if its action is the default one.
  obtain ⟨t, ht, hqt, htstat, htwchan⟩ : ∃ t, (if (s.proc p).reaction sigcont = .sigDfl then
      u.clear p sigcont else u) = t ∧ Queued t ∧ (t.proc p).stat = .sstop ∧
        (t.proc p).wchan = (s.proc p).wchan := by
    by_cases hdfl : (s.proc p).reaction sigcont = .sigDfl
    · rw [if_pos hdfl]
      refine ⟨_, rfl, hqu.modify_same rfl rfl rfl, ?_⟩
      rw [System.clear, modify_self]
      exact ⟨hustat, huwchan⟩
    · rw [if_neg hdfl]
      exact ⟨u, rfl, hqu, hustat, huwchan⟩
  rw [ht]
  by_cases hcaught : (s.proc p).reaction sigcont = .sigCatch
  · rw [if_pos hcaught, System.runfast]
    have hprev : t.links.prev (.proc p) = none := hqt.prev_eq_none (.inl (by rw [htstat]; decide))
    obtain ⟨s', hrun, hthis⟩ := Queued.setrun_runnable (p := p)
      (hqt.modify (f := fun q ↦ { q with pri := min q.pri puser }) rfl fun h ↦ absurd hprev h)
      (by rw [modify_self]; exact htstat)
    exact ⟨s', hrun, .inl hthis⟩
  rw [if_neg hcaught]
  by_cases hzero : (t.proc p).wchan = 0
  · rw [if_pos hzero]
    obtain ⟨s', hrun, hthis⟩ := hqt.setrun_runnable htstat
    exact ⟨s', hrun, .inl hthis⟩
  · rw [if_neg hzero]
    have hprev : t.links.prev (.proc p) = none := hqt.prev_eq_none (.inr hzero)
    obtain ⟨sl, rl, hq'⟩ := hqt.modify (f := fun q ↦ { q with stat := .ssleep }) (p := p) rfl
      fun h ↦ absurd hprev h
    have hchan : (t.proc p).wchan = (s.pc p).chan :=
      htwchan.trans ((halert p).chan (htwchan ▸ hzero))
    refine ⟨_, rfl, .inr ⟨?_, ?_, sl (hash (s.pc p).chan), hq'.sleepers _, (hq'.asleep p _).mpr ?_⟩⟩
    · rw [modify_self]
    · rw [modify_self]
      exact hchan
    · rw [modify_self, ← hchan]
      exact ⟨hzero, rfl⟩

/-- What several events do, one after another. -/
def System.execAll (s : System P) (events : List (Event P)) : Except Fault (System P) :=
  events.foldlM System.exec s

theorem Reach.execAll {events : List (Event P)} (hreach : Reach (fun _ _ ↦ True) s)
    (h : s.execAll events = .ok s') : Reach (fun _ _ ↦ True) s' := by
  induction events generalizing s with
  | nil =>
    cases h
    exact hreach
  | cons e events ih =>
    rw [System.execAll, List.foldlM_cons] at h
    obtain ⟨t, ht, h⟩ := bind_eq_ok h
    exact ih (hreach.step trivial ht) h

end Bsd386.Kern.Sleep
