import Bsd386.Kern.Sleep.Tame

/-!
# Channels

No event puts a process on a channel but `tsleep`, and none that happens at interrupt level takes
the processor away.
-/

namespace Bsd386.Kern.Sleep

open Function

variable {P : Type} {s s' t : System P} {p : P}

/-- No process comes to a channel. -/
def Stays (s s' : System P) : Prop :=
  ∀ r, (s'.proc r).wchan ≠ 0 → (s'.proc r).wchan = (s.proc r).wchan

theorem Stays.refl (s : System P) : Stays s s := fun _ _ ↦ rfl

theorem Stays.trans (h : Stays s s') (h' : Stays s' t) : Stays s t := fun r hne ↦ by
  have hwchan := h' r hne
  exact hwchan.trans (h r (hwchan ▸ hne))

theorem Stays.of_proc (hproc : s'.proc = s.proc) : Stays s s' := fun r _ ↦ by rw [hproc]

theorem Tamely.stays (h : Tamely s s') : Stays s s' := fun r ↦ (h.proc r).wchan

/-- What happens at interrupt level, or to other processes. -/
def Event.Interrupt : Event P → Prop
  | .wakeup _ | .psignal _ _ | .setrun _ | .unsleep _ | .endtsleep _ | .relate _ _ _ | .vfork _
  | .setJobc _ _ => True
  | _ => False

variable [DecidableEq P]

theorem stays_modify {f : Proc P → Proc P} (hwchan : (f (s.proc p)).wchan = (s.proc p).wchan) :
    Stays s (s.modify p f) := fun r _ ↦ by
  by_cases hrp : r = p
  · rw [hrp, modify_self, hwchan]
  · rw [modify_of_ne hrp]

variable [Fintype P]

/-- What the interrupted process finds when it goes on. -/
theorem exec_interrupt {e : Event P} (he : e.Interrupt) (h : s.exec e = .ok s') :
    Stays s s' ∧ s'.curproc = s.curproc ∧ s'.pc = s.pc := by
  have htamely : ∀ {t}, Tamely s t → Stays s t ∧ t.curproc = s.curproc ∧ t.pc = s.pc :=
    fun htame ↦ ⟨htame.stays, htame.curproc, htame.pc⟩
  cases e with
  | wakeup chan => exact htamely (wakeup_tame h)
  | psignal p sig =>
    rcases psignal_tame h with htame | ⟨-, hcontinued⟩
    · exact htamely htame
    · refine ⟨fun r hne ↦ ?_, hcontinued.curproc, hcontinued.pc⟩
      by_cases hrp : r = p
      · exact hrp ▸ hcontinued.mild.wchan (hrp ▸ hne)
      · rw [hcontinued.others r hrp]
  | setrun p => exact htamely (setrun_proc h).1
  | unsleep p => exact htamely (Tamely.of_update (unsleep_proc h) (Proc.tame_unsleep _))
  | endtsleep p =>
    rw [System.exec] at h
    split_ifs at h
    · have htame := endtsleep_tame h
      exact ⟨(Stays.of_proc rfl).trans htame.stays, htame.curproc, htame.pc⟩
    · cases h
      exact ⟨Stays.refl _, rfl, rfl⟩
  | relate p pptr pgrp =>
    rw [System.exec] at h
    split_ifs at h
    · cases h
      exact ⟨Stays.refl _, rfl, rfl⟩
    · cases h
      exact ⟨stays_modify rfl, rfl, rfl⟩
  | vfork p =>
    rw [System.exec] at h
    split_ifs at h
    · cases h
      exact ⟨stays_modify rfl, rfl, rfl⟩
    · cases h
      exact ⟨Stays.refl _, rfl, rfl⟩
  | setJobc pgrp n =>
    cases h
    exact ⟨Stays.of_proc rfl, rfl, rfl⟩
  | _ => exact he.elim

theorem checked_stays {f : Frame} {sig : Option Sig} (h : s.checked p f sig = .ok s') :
    Stays s s' := by
  cases sig with
  | none =>
    rw [System.checked] at h
    split_ifs at h
    · cases h
      exact Stays.of_proc rfl
    · cases h
      exact (stays_modify (p := p) (f := fun q ↦ { q with stat := .ssleep }) rfl).trans
        (Stays.of_proc rfl)
  | some sig =>
    rw [System.checked] at h
    obtain ⟨t, ht, h⟩ := bind_eq_ok h
    cases h
    have hunsleep := (Tamely.of_update (unsleep_proc ht) (Proc.tame_unsleep _)).stays
    exact hunsleep.trans ((stays_modify (p := p) (f := fun q ↦ { q with stat := .srun }) rfl).trans
      (Stays.of_proc rfl))

theorem issigStep_stays {pc : Issig → Pc} {i : Issig}
    {returned : Option Sig → System P → Except Fault (System P)}
    (hreturned : ∀ sig t, returned sig t = .ok s' → Stays t s')
    (h : s.issigStep p pc i returned = .ok s') : Stays s s' := by
  cases i with
  | top =>
    rw [System.issigStep] at h
    obtain ⟨⟨turn, t⟩, ht, h⟩ := bind_eq_ok h
    have htame := (issigTurn_tame ht).1.stays
    cases turn with
    | again =>
      cases h
      exact htame
    | done sig => exact htame.trans (hreturned sig t h)
    | stopped sig =>
      cases h
      exact htame.trans (Stays.of_proc rfl)
  | swtch sig =>
    rw [System.issigStep] at h
    cases h
    exact Stays.of_proc rfl
  | clear sig =>
    rw [System.issigStep] at h
    cases h
    exact (tamely_clear s p sig).stays.trans (Stays.of_proc rfl)

theorem step_stays (h : s.step p = .ok s') : Stays s s' := by
  rw [System.step] at h
  cases hpc : s.pc p with
  | out =>
    rw [hpc] at h
    cases h
    exact Stays.refl _
  | user i =>
    rw [hpc] at h
    refine issigStep_stays (fun sig t hret ↦ ?_) h
    cases hret
    exact Stays.of_proc rfl
  | before i f =>
    rw [hpc] at h
    exact issigStep_stays (fun _ _ ↦ checked_stays) h
  | woken f =>
    rw [hpc] at h
    cases h
    exact (stays_modify (p := p) (f := fun q ↦ { q with ssintr := false }) rfl).trans
      (Stays.of_proc rfl)
  | timed f =>
    rw [hpc] at h
    have hclear : Stays s (s.modify p fun q ↦ { q with stimo := false }) := stays_modify rfl
    dsimp only at h
    split_ifs at h
    · cases h
      exact hclear.trans (Stays.of_proc rfl)
    · cases h
      exact hclear.trans (Stays.of_proc rfl)
    · cases h
      exact Stays.of_proc rfl
    · cases h
      exact Stays.of_proc rfl
  | cancel f =>
    rw [hpc] at h
    cases h
    exact Stays.of_proc rfl
  | last f =>
    rw [hpc] at h
    dsimp only at h
    by_cases hcatch : f.pcatch = true
    · rw [if_pos hcatch] at h
      cases hsig : f.sig with
      | none =>
        rw [hsig] at h
        cases h
        exact Stays.of_proc rfl
      | some sig =>
        rw [hsig] at h
        cases h
        exact Stays.of_proc rfl
    · rw [if_neg hcatch] at h
      cases h
      exact Stays.of_proc rfl
  | after i f =>
    rw [hpc] at h
    refine issigStep_stays (fun sig t hret ↦ ?_) h
    cases hret
    exact Stays.of_proc rfl

/-- `tsleep` puts the process on its channel, and no other one. -/
theorem tsleep_stays {chan : ℕ} {pri : Fin 128} {pcatch timo : Bool}
    (h : s.tsleep p chan pri pcatch timo = .ok s') (r : P) (hne : (s'.proc r).wchan ≠ 0) :
    (s'.proc r).wchan = (s.proc r).wchan ∨ r = p ∧ (s'.proc r).wchan = chan := by
  rw [System.tsleep] at h
  by_cases hbad : chan = 0 ∨ (s.proc p).stat ≠ .srun ∨ s.links.prev (.proc p) ≠ none
  · rw [if_pos hbad] at h
    cases h
  rw [if_neg hbad] at h
  obtain ⟨t, henqueue, h⟩ := bind_eq_ok h
  obtain ⟨u, hu⟩ : ∃ u, (if timo then { t with callouts := p :: t.callouts } else t) = u := ⟨_, rfl⟩
  have huproc : u.proc = update s.proc p { s.proc p with wchan := chan, pri := pri } := by
    rw [← modify_proc s p fun q ↦ { q with wchan := chan, pri := pri },
      ← (enqueue_proc henqueue).1, ← hu]
    split_ifs <;> rfl
  rw [hu] at h
  have hstays : Stays u s' := by
    by_cases hcatch : pcatch = true
    · rw [if_pos hcatch] at h
      have hintr : Stays u (u.modify p fun q ↦ { q with ssintr := true }) := stays_modify rfl
      obtain ⟨⟨turn, w⟩, hhigh, h⟩ := bind_eq_ok h
      have hw := hintr.trans (issigHigh_tame 33 hhigh).1.stays
      cases turn with
      | again =>
        cases h
        exact hw
      | stopped sig =>
        cases h
        exact hw.trans (Stays.of_proc rfl)
      | done sig => exact hw.trans (checked_stays h)
    · rw [if_neg hcatch] at h
      cases h
      exact (stays_modify (p := p) (f := fun q ↦ { q with stat := .ssleep }) rfl).trans
        (Stays.of_proc rfl)
  have hwchan := hstays r hne
  rw [huproc] at hwchan
  by_cases hrp : r = p
  · rw [hrp, update_self] at hwchan
    exact .inr ⟨hrp, hrp ▸ hwchan⟩
  · rw [update_of_ne hrp] at hwchan
    exact .inl hwchan

/-- No event but `tsleep` puts a process on a channel. -/
theorem exec_stays {e : Event P} (hsound : Sound s) (h : s.exec e = .ok s')
    (he : ∀ chan pri pcatch timo, e ≠ .tsleep chan pri pcatch timo) : Stays s s' := by
  have hchange : ∀ {f : Proc P → Proc P}, s.change f = .ok s' → (∀ q, (f q).wchan = q.wchan) →
      Stays s s' := by
    intro f h hf
    rw [System.change] at h
    cases hout : s.outside with
    | none =>
      rw [hout] at h
      cases h
      exact Stays.refl _
    | some p =>
      rw [hout] at h
      cases h
      exact stays_modify (hf _)
  cases e with
  | tsleep chan pri pcatch timo => exact absurd rfl (he chan pri pcatch timo)
  | step =>
    rw [System.exec] at h
    cases hcur : s.curproc with
    | none =>
      rw [hcur] at h
      cases h
      exact Stays.refl _
    | some p =>
      rw [hcur] at h
      exact step_stays h
  | cursig =>
    rw [System.exec] at h
    cases hout : s.outside with
    | none =>
      rw [hout] at h
      cases h
      exact Stays.refl _
    | some p =>
      rw [hout] at h
      cases h
      exact Stays.of_proc rfl
  | psig sig catchmask => exact hchange h fun _ ↦ rfl
  | sigaction sig act intr nocldstop =>
    exact hchange h fun q ↦ (Proc.sigaction_rest sig act intr nocldstop q).2.1
  | sigprocmask how mask => exact hchange h fun _ ↦ rfl
  | sigsuspend mask => exact hchange h fun _ ↦ rfl
  | qswtch usrpri =>
    rw [System.exec] at h
    cases hout : s.outside with
    | none =>
      rw [hout] at h
      cases h
      exact Stays.refl _
    | some p =>
      rw [hout] at h
      obtain ⟨t, ht, h⟩ := bind_eq_ok h
      cases h
      have hpri : Stays s (s.modify p fun q ↦ { q with pri := usrpri }) := stays_modify rfl
      exact hpri.trans (Stays.of_proc (setrq_proc ht).1)
  | exiting => exact hchange h fun _ ↦ rfl
  | exit =>
    rw [System.exec] at h
    cases hout : s.outside with
    | none =>
      rw [hout] at h
      cases h
      exact Stays.refl _
    | some p =>
      rw [hout] at h
      cases h
      exact (stays_modify (p := p) (f := fun q ↦ { q with stat := .szomb }) rfl).trans
        (Stays.of_proc rfl)
  | release => exact hchange h fun _ ↦ rfl
  | swtch =>
    rw [System.exec] at h
    split_ifs at h
    · obtain ⟨t, ht, -, hproc, -⟩ := hsound.queued.swtch
      rw [ht] at h
      cases h
      exact Stays.of_proc hproc
    · cases h
      exact Stays.refl _
  | wakeup chan => exact (exec_interrupt (e := .wakeup chan) trivial h).1
  | psignal p sig => exact (exec_interrupt (e := .psignal p sig) trivial h).1
  | setrun p => exact (exec_interrupt (e := .setrun p) trivial h).1
  | unsleep p => exact (exec_interrupt (e := .unsleep p) trivial h).1
  | endtsleep p => exact (exec_interrupt (e := .endtsleep p) trivial h).1
  | relate p pptr pgrp => exact (exec_interrupt (e := .relate p pptr pgrp) trivial h).1
  | vfork p => exact (exec_interrupt (e := .vfork p) trivial h).1
  | setJobc pgrp n => exact (exec_interrupt (e := .setJobc pgrp n) trivial h).1

end Bsd386.Kern.Sleep
