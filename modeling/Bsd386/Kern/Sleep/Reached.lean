import Bsd386.Kern.Sleep.Integrity

/-!
# All events

Every event that is called as it may be comes to its end, and every state that is reached is in
order.
-/

namespace Bsd386.Kern.Sleep

open Function

variable {P : Type} [DecidableEq P] {s s' : System P} {p : P}

/-- The event is called as it may be: on a channel, with a signal, for a process that can be made to
run. -/
def Event.Proper (s : System P) : Event P → Prop
  | .tsleep chan _ _ _ => chan ≠ 0
  | .psignal _ sig => sig ≠ nosig
  | .setrun p => (s.proc p).stat ≠ .srun ∧ (s.proc p).stat ≠ .szomb
  | _ => True

omit [DecidableEq P] in
theorem outside_eq_some (h : s.outside = some p) : s.curproc = some p ∧ s.pc p = .out := by
  rw [System.outside] at h
  cases hcur : s.curproc with
  | none =>
    rw [hcur] at h
    cases h
  | some q =>
    rw [hcur] at h
    dsimp only at h
    split at h
    · cases h
      exact ⟨rfl, ‹_›⟩
    · cases h

/-- A change of the process that runs outside `tsleep`, of what the queues do not depend on. -/
theorem Sound.change {f : Proc P → Proc P} (hsound : Sound s)
    (hf : ∀ q, (f q).stat = q.stat ∧ (f q).wchan = q.wchan ∧ (f q).stimo = q.stimo ∧
      (f q).pptr = q.pptr ∧ (f q).pri = q.pri) : ∃ s', s.change f = .ok s' ∧ Sound s' := by
  rw [System.change]
  cases s.outside with
  | none => exact ⟨s, rfl, hsound⟩
  | some p =>
    obtain ⟨hstat, hwchan, hstimo, hpptr, hpri⟩ := hf (s.proc p)
    exact ⟨_, rfl, hsound.calm (hsound.queued.modify_same hstat hwchan hpri)
      (calm_modify s p hstat hwchan hstimo hpptr)⟩

omit [DecidableEq P] in
/-- `sigaction` changes what the signals do only. -/
theorem Proc.sigaction_rest (sig : Sig) (act : Action) (intr nocldstop : Bool) (q : Proc P) :
    (q.sigaction sig act intr nocldstop).stat = q.stat ∧
      (q.sigaction sig act intr nocldstop).wchan = q.wchan ∧
      (q.sigaction sig act intr nocldstop).stimo = q.stimo ∧
      (q.sigaction sig act intr nocldstop).pptr = q.pptr ∧
      (q.sigaction sig act intr nocldstop).pri = q.pri := by
  rw [Proc.sigaction]
  split_ifs <;> exact ⟨rfl, rfl, rfl, rfl, rfl⟩

omit [DecidableEq P] in
/-- A process that can be made to run sleeps, is stopped, or is new. -/
theorem Sound.startable (hsound : Sound s)
    (hstat : (s.proc p).stat ≠ .srun ∧ (s.proc p).stat ≠ .szomb) :
    (s.proc p).Waits ∨ (s.proc p).stat = .sidl ∧ (s.proc p).wchan = 0 := by
  by_cases hzero : (s.proc p).wchan = 0
  · cases h : (s.proc p).stat with
    | ssleep => exact .inl (.inl h)
    | sstop => exact .inl (.inr h)
    | sidl => exact .inr ⟨rfl, hzero⟩
    | srun => exact absurd h hstat.1
    | szomb => exact absurd h hstat.2
  · exact .inl (hsound.waits p hzero)

omit [DecidableEq P] in
/-- A process that can run is on no sleep queue. -/
theorem Sound.running_or (hsound : Sound s) (p : P) : (s.proc p).stat ≠ .srun ∨
    (s.proc p).wchan = 0 := by
  by_cases hzero : (s.proc p).wchan = 0
  · exact .inr hzero
  · refine .inl fun h ↦ ?_
    rcases hsound.waits p hzero with h' | h' <;> rw [h] at h' <;> cases h'

/-- `qswtch`. -/
theorem Sound.qswtch (hsound : Sound s) (hcur : s.curproc = some p) (hpc : s.pc p = .out)
    (usrpri : Fin 128) :
    ∃ s', s.qswtch p usrpri = .ok s' ∧ Sound s' := by
  have hruns := hsound.current p hcur
  have hold := hsound.proc p
  obtain ⟨hstat, hprev⟩ := hruns.running.resolve_right (by rw [hpc]; exact id)
  obtain ⟨t, ht⟩ : ∃ t, s.modify p (fun q ↦ { q with pri := usrpri }) = t := ⟨_, rfl⟩
  have hself : t.proc p = { s.proc p with pri := usrpri } := by rw [← ht, modify_self]
  obtain ⟨sl, rl, hq⟩ : Queued t := ht ▸ hsound.queued.modify rfl fun h ↦ absurd hprev h
  have htprev : t.links.prev (.proc p) = none := by
    rw [← ht]
    exact hprev
  obtain ⟨u, hrun, hproc, hsame, hqu, -⟩ := hq.setrq (p := p) htprev (by rw [hself]; exact hstat)
    (by rw [hself]; exact hruns.wchan)
  have helse : Elsewhere p s t := ht ▸ elsewhere_modify s p rfl
  have hcallouts : u.callouts = s.callouts := by
    rw [hsame.callouts, ← ht]
    rfl
  have huself : u.proc p = { s.proc p with pri := usrpri } := by rw [hproc, hself]
  have hupc : u.pc p = s.pc p := by
    rw [hsame.pc, ← ht]
    rfl
  rw [System.qswtch, ht, hrun]
  refine ⟨_, rfl, hsound.own (p := p) (Queued.congr ⟨sl, _, hqu⟩ rfl rfl rfl rfl rfl)
    ⟨fun r hr ↦ ?_, fun r hr ↦ ?_, fun r hr ↦ ?_, fun r hr hmem ↦ ?_, fun r ↦ ?_⟩ ?_ (fun h ↦ ?_)
    (fun h ↦ ?_) (fun h ↦ ?_) (.inl rfl)⟩
  · rw [hproc]
    exact helse.wchan r hr
  · rw [hproc]
    exact helse.stimo r hr
  · exact (congrFun hsame.pc r).trans (helse.pc r hr)
  · exact hcallouts ▸ hmem
  · rw [hproc]
    exact helse.pptr r
  · exact hcallouts ▸ hsound.once
  · rw [huself] at h
    exact absurd hruns.wchan h
  · rw [hupc, huself]
    exact hold.pending (hcallouts ▸ h)
  · rw [huself] at h
    rw [hupc]
    exact hold.expired h

/-- `exit`. -/
theorem Sound.exit (hsound : Sound s) (hcur : s.curproc = some p) (hpc : s.pc p = .out) :
    Sound { s.modify p fun q ↦ { q with stat := .szomb } with curproc := none } := by
  have hruns := hsound.current p hcur
  have hold := hsound.proc p
  have hprev := (hruns.running.resolve_right (by rw [hpc]; exact id)).2
  have helse := elsewhere_modify s p (f := fun q ↦ { q with stat := .szomb }) rfl
  have hq : Queued (s.modify p fun q ↦ { q with stat := .szomb }) :=
    hsound.queued.modify rfl fun h ↦ absurd hprev h
  refine hsound.own (p := p) (hq.congr rfl rfl rfl rfl rfl)
    ⟨helse.wchan, helse.stimo, helse.pc, helse.callouts, helse.pptr⟩ hsound.once (fun h ↦ ?_)
    (fun h ↦ ?_) (fun h ↦ ?_) (.inl rfl)
  · rw [modify_self] at h
    exact absurd hruns.wchan h
  · rw [modify_self]
    exact hold.pending h
  · rw [modify_self] at h
    exact hold.expired h

/-- `swtch`. -/
theorem Sound.swtch (hsound : Sound s) : ∃ s', s.swtch = .ok s' ∧ Sound s' := by
  obtain ⟨s', hrun, hq, hproc, hcallouts, hpc, -, -, -, hcases⟩ := hsound.queued.swtch
  refine ⟨s', hrun, ?_⟩
  rcases hcases with rfl | ⟨p, hcur, hstat, hzero, hprev⟩
  · exact hsound
  refine ⟨hq, fun r ↦ ?_, hcallouts ▸ hsound.once, fun r hr ↦ ?_⟩
  · obtain ⟨hwaits, hsleeping, hpending, hexpired, hparent⟩ := hsound.proc r
    constructor
    · rwa [hproc]
    · rwa [hproc, hpc]
    · rwa [hproc, hpc, hcallouts]
    · rwa [hproc, hpc]
    · rwa [hproc]
  · rw [hcur] at hr
    cases hr
    exact ⟨by rwa [hproc], .inl ⟨by rwa [hproc], hprev⟩⟩

/-- A process gets another parent or another group. -/
theorem Sound.relate {pptr : P} {pgrp : ℕ} (hsound : Sound s) (hne : p ≠ pptr) :
    Sound (s.modify p fun q ↦ { q with pptr := pptr, pgrp := pgrp }) := by
  refine ⟨hsound.queued.modify_same rfl rfl rfl, fun r ↦ ?_, hsound.once, fun r hr ↦ ?_⟩
  · obtain ⟨hwaits, hsleeping, hpending, hexpired, hparent⟩ := hsound.proc r
    by_cases hrp : r = p
    · subst hrp
      constructor
      · rwa [modify_self]
      · rwa [modify_self]
      · rwa [modify_self]
      · rwa [modify_self]
      · rw [modify_self]
        exact hne.symm
    · constructor
      · rwa [modify_of_ne hrp]
      · rwa [modify_of_ne hrp]
      · rwa [modify_of_ne hrp]
      · rwa [modify_of_ne hrp]
      · rwa [modify_of_ne hrp]
  · obtain ⟨hzero, hrunning⟩ := hsound.current r hr
    by_cases hrp : r = p
    · subst hrp
      constructor
      · rwa [modify_self]
      · rwa [modify_self]
    · constructor
      · rwa [modify_of_ne hrp]
      · rwa [modify_of_ne hrp]

variable [Fintype P]

/-- A timeout expires. -/
theorem Sound.endtsleep (hsound : Sound s) :
    ∃ s', ({ s with callouts := s.callouts.erase p } : System P).endtsleep p = .ok s' ∧
    Sound s' := by
  obtain ⟨t, ht⟩ : ∃ t : System P, { s with callouts := s.callouts.erase p } = t := ⟨_, rfl⟩
  have hproct : t.proc = s.proc := by rw [← ht]
  have hcallouts : t.callouts = s.callouts.erase p := by rw [← ht]
  have hpct : t.pc = s.pc := by rw [← ht]
  have hqt : Queued t := by
    rw [← ht]
    exact hsound.queued.congr rfl rfl rfl rfl rfl
  obtain ⟨u, hrun, hqu, hquiet, hproc⟩ := hqt.endtsleep (p := p) (by
    rw [hproct]
    exact hsound.waits)
  rw [hproct] at hproc
  have hother : ∀ r, r ≠ p → u.proc r = s.proc r := fun r hr ↦ by
    rw [hproc]
    by_cases hzero : (s.proc p).wchan = 0
    · rw [if_pos hzero]
    · rw [if_neg hzero, update_of_ne hr]
  have hself : (s.proc p).wchan = 0 ∧ u.proc p = s.proc p ∨
      (s.proc p).wchan ≠ 0 ∧ (u.proc p).wchan = 0 ∧ (u.proc p).pptr = (s.proc p).pptr := by
    rw [hproc]
    by_cases hzero : (s.proc p).wchan = 0
    · rw [if_pos hzero]
      exact .inl ⟨hzero, rfl⟩
    · rw [if_neg hzero, update_self]
      exact .inr ⟨hzero, rfl, rfl⟩
  have hcurrent : ∀ r, u.curproc = some r → Runs u r := fun r hr ↦ by
    have hcur : s.curproc = some r := by
      rw [← hr, hquiet.same.curproc, ← ht]
    obtain ⟨hzero, hrunning⟩ := hsound.current r hcur
    have hsame : u.proc r = s.proc r := by
      by_cases hrp : r = p
      · subst hrp
        rw [hproc, if_pos hzero]
      · exact hother r hrp
    refine ⟨by rwa [hsame], hrunning.imp (fun h ↦ ⟨by rw [hsame, h.1], ?_⟩) fun h ↦ ?_⟩
    · rw [(hquiet.runs r id (by rw [hproct, h.1])).2.2, ← ht]
      exact h.2
    · rwa [hquiet.same.pc, hpct]
  have honly : p ∉ u.callouts := by
    rw [hquiet.same.callouts, hcallouts]
    exact hsound.once.not_mem_erase
  refine ⟨u, by rw [ht]; exact hrun, hsound.elsewhere (p := p) hqu ⟨fun r hr ↦ ?_, fun r hr ↦ ?_,
    fun r _ ↦ ?_,
    fun r _ hmem ↦ ?_, fun r ↦ ?_⟩ ?_ (fun h ↦ ?_) (fun h ↦ absurd h honly) (fun h ↦ ?_) hcurrent⟩
  · rw [hother r hr]
    exact fun _ ↦ ⟨rfl, id⟩
  · rw [hother r hr]
  · rw [hquiet.same.pc, hpct]
  · rw [hquiet.same.callouts, hcallouts] at hmem
    exact List.mem_of_mem_erase hmem
  · by_cases hrp : r = p
    · subst hrp
      rcases hself with ⟨-, heq⟩ | ⟨-, -, heq⟩
      · rw [heq]
      · exact heq
    · rw [hother r hrp]
  · rw [hquiet.same.callouts, hcallouts]
    exact hsound.once.erase p
  · rcases hself with ⟨hzero, heq⟩ | ⟨-, hzero, -⟩
    · exact absurd (heq ▸ hzero) h
    · exact absurd hzero h
  · rw [hquiet.same.pc, hpct]
    rcases hself with ⟨-, heq⟩ | ⟨hne, -, -⟩
    · rw [heq] at h
      exact (hsound.proc p).expired h
    · have hsleeping := (hsound.proc p).sleeping hne
      revert hsleeping
      cases s.pc p with
      | before i f => exact fun _ ↦ trivial
      | woken f => exact fun _ ↦ trivial
      | _ => exact False.elim

/-! ### Runs -/

/-- An event that is called as it may be comes to its end, and leaves all in order. -/
theorem Sound.exec {e : Event P} (hsound : Sound s) (hproper : e.Proper s) :
    ∃ s', s.exec e = .ok s' ∧ Sound s' := by
  have hcalm : ∀ {r : Except Fault (System P)},
    (∃ s', r = .ok s' ∧ Queued s' ∧ Calm (fun _ ↦ False) s s') →
      ∃ s', r = .ok s' ∧ Sound s' := by
    rintro r ⟨s', hrun, hq, hcalm⟩
    exact ⟨s', hrun, hsound.calm hq hcalm⟩
  cases e with
  | tsleep chan pri pcatch timo =>
    rw [System.exec]
    cases hout : s.outside with
    | none => exact ⟨s, rfl, hsound⟩
    | some p => exact hsound.tsleep (outside_eq_some hout).1 (outside_eq_some hout).2 hproper
  | step =>
    rw [System.exec]
    cases hcur : s.curproc with
    | none => exact ⟨s, rfl, hsound⟩
    | some p => exact hsound.step hcur
  | cursig =>
    rw [System.exec]
    cases hout : s.outside with
    | none => exact ⟨s, rfl, hsound⟩
    | some p =>
      obtain ⟨hcur, hpc⟩ := outside_eq_some hout
      have hrunning := (hsound.current p hcur).running.resolve_right (by rw [hpc]; exact id)
      refine ⟨_, rfl, hsound.goto hcur (fun h ↦ ?_) (fun h ↦ ?_) (.inl hrunning)⟩
      · have hthis := ((hsound.proc p).pending h).1
        rw [hpc] at hthis
        exact hthis
      · have hthis := (hsound.proc p).expired h
        rw [hpc] at hthis
        exact hthis
  | psig sig catchmask => exact hsound.change fun q ↦ ⟨rfl, rfl, rfl, rfl, rfl⟩
  | sigaction sig act intr nocldstop =>
      exact hsound.change (Proc.sigaction_rest sig act intr nocldstop)
  | sigprocmask how mask => exact hsound.change fun q ↦ ⟨rfl, rfl, rfl, rfl, rfl⟩
  | sigsuspend mask => exact hsound.change fun q ↦ ⟨rfl, rfl, rfl, rfl, rfl⟩
  | qswtch usrpri =>
    rw [System.exec]
    cases hout : s.outside with
    | none => exact ⟨s, rfl, hsound⟩
    | some p => exact hsound.qswtch (outside_eq_some hout).1 (outside_eq_some hout).2 usrpri
  | exiting => exact hsound.change fun q ↦ ⟨rfl, rfl, rfl, rfl, rfl⟩
  | exit =>
    rw [System.exec]
    cases hout : s.outside with
    | none => exact ⟨s, rfl, hsound⟩
    | some p => exact ⟨_, rfl, hsound.exit (outside_eq_some hout).1 (outside_eq_some hout).2⟩
  | swtch =>
    rw [System.exec]
    by_cases hcur : s.curproc = none
    · rw [if_pos hcur]
      exact hsound.swtch
    · rw [if_neg hcur]
      exact ⟨s, rfl, hsound⟩
  | wakeup chan =>
    obtain ⟨s', hrun, hq, hcalm', -⟩ := hsound.queued.wakeup_calm chan hsound.waits
    exact hcalm ⟨s', hrun, hq, hcalm'⟩
  | psignal p sig => exact hcalm (hsound.queued.psignal hproper (hsound.proc p).parent hsound.waits)
  | setrun p =>
    obtain ⟨s', hrun, hq, hcalm', -⟩ :=
      hsound.queued.setrun_calm (p := p) (hsound.startable hproper)
    exact hcalm ⟨s', hrun, hq, hcalm'⟩
  | unsleep p =>
    obtain ⟨s', hrun, hq, hcalm', -⟩ := hsound.queued.unsleep_calm (p := p) (hsound.running_or p)
    exact hcalm ⟨s', hrun, hq, hcalm'⟩
  | endtsleep p =>
    rw [System.exec]
    by_cases hmem : p ∈ s.callouts
    · rw [if_pos hmem]
      exact hsound.endtsleep
    · rw [if_neg hmem]
      exact ⟨s, rfl, hsound⟩
  | relate p pptr pgrp =>
    rw [System.exec]
    by_cases hp : p = pptr
    · rw [if_pos hp]
      exact ⟨s, rfl, hsound⟩
    · rw [if_neg hp]
      exact ⟨_, rfl, hsound.relate hp⟩
  | vfork p =>
    rw [System.exec]
    split_ifs
    · exact ⟨_, rfl, hsound.calm (hsound.queued.modify_same rfl rfl rfl)
        (calm_modify s p rfl rfl rfl rfl)⟩
    · exact ⟨s, rfl, hsound⟩
  | release => exact hsound.change fun q ↦ ⟨rfl, rfl, rfl, rfl, rfl⟩
  | setJobc pgrp n =>
    exact ⟨_, rfl, hsound.queued.congr rfl rfl rfl rfl rfl,
      fun r ↦ ⟨(hsound.proc r).waits, (hsound.proc r).sleeping, (hsound.proc r).pending,
        (hsound.proc r).expired, (hsound.proc r).parent⟩,
      hsound.once, fun r hr ↦ ⟨(hsound.current r hr).wchan, (hsound.current r hr).running⟩⟩

/-- An event that is not called as it may be comes to a panic, or does nothing. -/
theorem exec_of_not_proper {e : Event P} (hproper : ¬e.Proper s) (hexec : s.exec e = .ok s') :
    s' = s := by
  cases e with
  | tsleep chan pri pcatch timo =>
    rw [System.exec] at hexec
    cases hout : s.outside with
    | none =>
      rw [hout] at hexec
      exact (Except.ok.inj hexec).symm
    | some p =>
      rw [hout] at hexec
      dsimp only at hexec
      rw [System.tsleep, if_pos (.inl (not_not.mp hproper))] at hexec
      cases hexec
  | psignal p sig =>
    rw [System.exec, System.psignal, psignalWith_eq, if_pos (not_not.mp hproper)] at hexec
    cases hexec
  | setrun p =>
    rw [System.exec, System.setrun] at hexec
    rw [Event.Proper] at hproper
    cases hstat : (s.proc p).stat with
    | srun =>
      rw [hstat] at hexec
      cases hexec
    | szomb =>
      rw [hstat] at hexec
      cases hexec
    | _ =>
      rw [hstat] at hproper
      exact absurd ⟨by decide, by decide⟩ hproper
  | _ => exact absurd trivial hproper

/-- An event leaves all in order. -/
theorem Sound.exec_ok {e : Event P} (hsound : Sound s) (hexec : s.exec e = .ok s') : Sound s' := by
  by_cases hproper : e.Proper s
  · obtain ⟨t, hrun, ht⟩ := hsound.exec hproper
    rw [hrun] at hexec
    exact Except.ok.inj hexec ▸ ht
  · rw [exec_of_not_proper hproper hexec]
    exact hsound

/-- Every state that is reached is in order. -/
theorem Reach.sound {allowed : System P → Event P → Prop} (hreach : Reach allowed s) : Sound s := by
  induction hreach with
  | start hinit => exact hinit.sound
  | step _ _ hexec ih => exact ih.exec_ok hexec

/-- In every state that is reached, each sleep queue is one list with its tail, and holds the
processes that sleep there and no others; `wakeup` leaves no process on its channel, and those that
slept there can run; a process that has returned from `tsleep` has no timeout pending and none that
has expired; and every event that is called as it may be comes to its end. -/
theorem sleep_queues_hold {s : System P} (hreach : Reach (fun _ _ ↦ True) s) :
    (∃ sl : Fin 64 → List P, ∃ rl : Fin 32 → List P,
      (∀ h, s.Asleep h (sl h) ∧ (sl h).Nodup) ∧
      (∀ i, s.links.Ring (.header i) ((rl i).map .proc)) ∧
      (∀ p h, p ∈ sl h ↔ (s.proc p).wchan ≠ 0 ∧ hash (s.proc p).wchan = h) ∧
      (∀ p h i, p ∈ sl h → p ∉ rl i) ∧
      ∀ h, s.sqTailp h = some (endCell Cell.link (.head h) (sl h)) ∨
      sl h = [] ∧ s.sqTailp h = none) ∧
    (∀ chan, chan ≠ 0 → ∃ s', s.wakeup chan = .ok s' ∧ ∃ rl : Fin 32 → List P,
      (∀ i, s'.links.Ring (.header i) ((rl i).map .proc)) ∧ ∀ p, (s'.proc p).wchan ≠ chan ∧
        ((s.proc p).wchan = chan → (s.proc p).stat = .ssleep →
          (s'.proc p).stat = .srun ∧ ((s'.proc p).sload = true → ∃ i, p ∈ rl i))) ∧
    (∀ p, s.pc p = .out → p ∉ s.callouts ∧ (s.proc p).stimo = false) ∧
    ∀ e : Event P, e.Proper s → ∃ s', s.exec e = .ok s' := by
  have hsound := hreach.sound
  refine ⟨?_, fun chan hchan ↦ ?_, fun p hpc ↦ ⟨fun hmem ↦ ?_, ?_⟩, fun e hproper ↦ ?_⟩
  · obtain ⟨sl, rl, hq⟩ := hsound.queued
    exact ⟨sl, rl, fun h ↦ ⟨hq.sleepers h, hq.once h⟩, hq.runners, hq.asleep,
      fun p h i hsl hrl ↦ hq.notMem_sl hrl hsl, hq.tail⟩
  · obtain ⟨s', hrun, ⟨sl, rl, hq⟩, hquiet, hproc⟩ := hsound.queued.wakeup chan hsound.waits
    refine ⟨s', hrun, rl, hq.runners, fun p ↦ ⟨fun heq ↦ ?_, fun hwchan hstat ↦ ?_⟩⟩
    · rw [congrFun hproc p, Proc.woken] at heq
      by_cases hthis : (s.proc p).wchan = chan ∧ chan ≠ 0
      · rw [if_pos hthis] at heq
        exact hchan heq.symm
      · rw [if_neg hthis] at heq
        exact hthis ⟨heq, hchan⟩
    · have hrunning : (s'.proc p).stat = .srun := by
        rw [congrFun hproc p, Proc.woken, if_pos ⟨hwchan, hchan⟩, if_pos hstat]
      refine ⟨hrunning, fun hload ↦ (hq.ready p).mpr ?_⟩
      refine (hquiet.ready p id hrunning hload).resolve_left fun h ↦ ?_
      rw [hstat] at h
      cases h
  · have hthis := ((hsound.proc p).pending hmem).1
    rw [hpc] at hthis
    exact hthis
  · refine Bool.eq_false_iff.mpr fun hset ↦ ?_
    have hthis := (hsound.proc p).expired hset
    rw [hpc] at hthis
    exact hthis
  · obtain ⟨s', hrun, -⟩ := hsound.exec hproper
    exact ⟨s', hrun⟩

/-- Two processes, of which one runs. -/
def twoProcesses : System Bool where
  proc p :=
    { stat := if p then .srun else .sidl, wchan := 0, pri := puser, nice := 0, sload := true, ssys := false
      ssintr := false, sppwait := false, swexit := false, stimo := false, snocldstop :=
        false, sig := fun _ ↦ false
      sigmask := fun _ ↦ false, sigignore := fun _ ↦ false, sigcatch := fun _ ↦ false
      sigact := fun _ ↦ .sigDfl, sigintr := fun _ ↦ false, stopsig := nosig, pptr := !p, pgrp := 0 }
  links :=
    { next := fun n ↦ match n with | .proc _ => none | .header i => some (.header i)
      prev := fun n ↦ match n with | .proc _ => none | .header i => some (.header i) }
  sqHead _ := none
  sqTailp _ := none
  whichqs _ := false
  callouts := []
  curproc := some true
  pc _ := .out
  value _ := .zero
  addr p := if p then 64 else 128
  jobc _ := 1

theorem twoProcesses_initial : Initial twoProcesses := by
  refine ⟨fun _ ↦ rfl, fun _ ↦ rfl, fun _ ↦ ⟨rfl, rfl⟩, fun _ ↦ rfl, fun _ ↦ rfl, rfl, fun _ ↦ rfl,
    fun p ↦ ⟨rfl, rfl, rfl, Bool.not_ne_self p⟩, fun _ ↦ ⟨fun _ ↦ rfl, rfl, rfl⟩, fun p hp ↦ ?_,
    fun p hp ↦ ?_⟩
  · cases hp
    rfl
  · refine if_neg fun heq : p = true ↦ hp ?_
    rw [heq]
    rfl

/-- The process that runs goes to sleep and is woken. -/
theorem twoProcesses_sleep : ∃ s s' : System Bool,
    twoProcesses.exec (.tsleep 32 20 false true) = .ok s ∧ (s.proc true).wchan = 32 ∧
      s.wakeup 32 = .ok s' ∧ (s'.proc true).wchan ≠ 32 ∧ (s'.proc true).stat = .srun := by
  obtain ⟨s, hs, hwchan, hstat⟩ : ∃ s, twoProcesses.exec (.tsleep 32 20 false true) = .ok s ∧
      (s.proc true).wchan = 32 ∧ (s.proc true).stat = .ssleep := ⟨_, rfl, rfl, rfl⟩
  have hreach : Reach (fun _ _ ↦ True) s := (Reach.start twoProcesses_initial).step trivial hs
  obtain ⟨-, hwakeup, -⟩ := sleep_queues_hold hreach
  obtain ⟨s', hrun, rl, -, hall⟩ := hwakeup 32 (by decide)
  exact ⟨s, s', hs, hwchan, hrun, (hall true).1, ((hall true).2 hwchan hstat).1⟩

end Bsd386.Kern.Sleep
