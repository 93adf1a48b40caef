import Bsd386.Kern.Sleep.Reached

/-!
# What is pending

No routine leaves a process asleep in a sleep that signals interrupt with a signal that would end
the sleep, and no stop signal is left pending together with `SIGCONT`. This is shown for what the
routines return, process by process.
-/

namespace Bsd386.Kern.Sleep

open Function

variable {P : Type} {q q' q'' : Proc P} {sig k : Sig}

theorem has_saStop : ∀ sig : Sig, sig.has saStop = stopsigmask sig := by decide

theorem has_saCont : ∀ sig : Sig, sig.has saCont = decide (sig = sigcont) := by decide

namespace Proc

/-- The signal is pending, not masked and not ignored, and is to be caught or to terminate the
process. -/
def Urgent (q : Proc P) (sig : Sig) : Prop :=
  q.sig sig = true ∧ q.sigmask sig = false ∧ q.sigignore sig = false ∧
    (q.sigact sig = .handler ∨
      q.sigact sig = .sigDfl ∧ q.ssys = false ∧ sig.has saStop = false ∧ sig.has saIgnore = false)

/-- `issig` returns the signal, unless there is one before it. While a parent waits for its child to
release it, the child does not look at stop signals. -/
def Deliverable (q : Proc P) (sig : Sig) : Prop :=
  q.Urgent sig ∧ (q.sppwait = true → stopsigmask sig = false)

/-- No stop signal is pending together with `SIGCONT`. -/
def Exclusive (q : Proc P) : Prop :=
  ∀ sig, stopsigmask sig = true → q.sig sig = true → q.sig sigcont = false

/-- What signals do is left alone, and so is the channel, unless the process is woken. A process
that ignores all signals is not stopped. -/
structure Mild (q q' : Proc P) : Prop where
  ssintr : q'.ssintr = q.ssintr
  sigmask : q'.sigmask = q.sigmask
  sigignore : q'.sigignore = q.sigignore
  sigact : q'.sigact = q.sigact
  ssys : q'.ssys = q.ssys
  sppwait : q'.sppwait = q.sppwait
  swexit : q'.swexit = q.swexit
  exclusive : q.Exclusive → q'.Exclusive
  wchan : q'.wchan ≠ 0 → q'.wchan = q.wchan
  stopped : q'.stat = .sstop → q.stat = .sstop ∨ ∃ sig, q.sigignore sig = false

/-- Moreover, no process falls asleep, and none that sleeps gets a signal that is to be delivered.
-/
structure Tame (q q' : Proc P) : Prop extends Mild q q' where
  asleep : q'.stat = .ssleep → q'.ssintr = true →
    q.stat = .ssleep ∧ ∀ sig, q'.Deliverable sig → q.Deliverable sig

theorem Mild.refl (q : Proc P) : Mild q q :=
  ⟨rfl, rfl, rfl, rfl, rfl, rfl, rfl, id, fun _ ↦ rfl, .inl⟩

theorem Mild.trans (h : Mild q q') (h' : Mild q' q'') : Mild q q'' := by
  refine ⟨h'.ssintr.trans h.ssintr, h'.sigmask.trans h.sigmask, h'.sigignore.trans h.sigignore,
    h'.sigact.trans h.sigact, h'.ssys.trans h.ssys, h'.sppwait.trans h.sppwait,
    h'.swexit.trans h.swexit,
    fun hq ↦ h'.exclusive (h.exclusive hq), fun hne ↦ ?_, fun hstat ↦ ?_⟩
  · have hwchan := h'.wchan hne
    exact hwchan.trans (h.wchan (hwchan ▸ hne))
  · rcases h'.stopped hstat with hstat | ⟨sig, hsig⟩
    · exact h.stopped hstat
    · exact .inr ⟨sig, h.sigignore ▸ hsig⟩

theorem Tame.refl (q : Proc P) : Tame q q :=
  ⟨Mild.refl q, fun hstat _ ↦ ⟨hstat, fun _ h ↦ h⟩⟩

theorem Tame.trans (h : Tame q q') (h' : Tame q' q'') : Tame q q'' := by
  refine ⟨h.toMild.trans h'.toMild, fun hstat hintr ↦ ?_⟩
  obtain ⟨hstat', hdeliver'⟩ := h'.asleep hstat hintr
  obtain ⟨hstat, hdeliver⟩ := h.asleep hstat' (h'.ssintr ▸ hintr)
  exact ⟨hstat, fun sig hsig ↦ hdeliver sig (hdeliver' sig hsig)⟩

/-- A process that does not sleep. -/
theorem Mild.tame (h : Mild q q') (hstat : q'.stat ≠ .ssleep) : Tame q q' :=
  ⟨h, fun hsleep _ ↦ absurd hsleep hstat⟩

/-- With fewer signals pending, fewer are to be delivered. -/
theorem Mild.deliverable (h : Mild q q') (hpending : q'.sig sig = true → q.sig sig = true)
    (hsig : q'.Deliverable sig) : q.Deliverable sig := by
  obtain ⟨⟨hsig, hmask, hignore, haction⟩, hvfork⟩ := hsig
  rw [h.sigmask] at hmask
  rw [h.sigignore] at hignore
  rw [h.sigact, h.ssys] at haction
  rw [h.sppwait] at hvfork
  exact ⟨⟨hpending hsig, hmask, hignore, haction⟩, hvfork⟩

/-- A change of neither the state nor what signals do, with no more signals pending. -/
theorem Tame.of_pending {m : Sigset} (hm : ∀ sig, m sig = true → q.sig sig = true) (nice : ℤ) :
    Tame q { q with sig := m, nice := nice } := by
  have hmild : Mild q { q with sig := m, nice := nice } := by
    refine ⟨rfl, rfl, rfl, rfl, rfl, rfl, rfl, fun hq sig hstop hpending ↦ ?_, fun _ ↦ rfl, .inl⟩
    refine Bool.eq_false_iff.mpr fun hcont ↦ ?_
    exact absurd ((hq sig hstop (hm sig hpending)).symm.trans (hm sigcont hcont)) Bool.false_ne_true
  exact ⟨hmild, fun hstat _ ↦ ⟨hstat, fun sig ↦ hmild.deliverable (hm sig)⟩⟩

/-- The process is taken off its sleep queue. -/
theorem tame_unsleep (q : Proc P) : Tame q { q with wchan := 0 } :=
  ⟨⟨rfl, rfl, rfl, rfl, rfl, rfl, rfl, id, fun h ↦ absurd rfl h, .inl⟩,
    fun hstat _ ↦ ⟨hstat, fun _ h ↦ h⟩⟩

/-- The process is made to run. -/
theorem tame_run (q : Proc P) : Tame q { q with stat := .srun } :=
  Mild.tame ⟨rfl, rfl, rfl, rfl, rfl, rfl, rfl, id, fun _ ↦ rfl,
    fun h ↦ by cases h⟩ fun h ↦ by cases h

/-- The process falls asleep. -/
theorem Mild.asleep (q : Proc P) : Mild q { q with stat := .ssleep } :=
  ⟨rfl, rfl, rfl, rfl, rfl, rfl, rfl, id, fun _ ↦ rfl, fun h ↦ by cases h⟩

/-! ### Posting -/

/-- What else is pending was pending before, and is no opposite of the signal. -/
theorem post_of_ne (hne : k ≠ sig) (hpost : q.post sig k = true) :
    q.sig k = true ∧ (sig = sigcont → stopsigmask k = false) ∧ (stopsigmask sig = true →
      k ≠ sigcont) := by
  rw [post, has_saCont, has_saStop, update_of_ne hne] at hpost
  by_cases hstop : stopsigmask sig = true
  · have hcont : sig ≠ sigcont := fun heq ↦ by
      rw [heq] at hstop
      exact absurd hstop (by decide)
    rw [if_pos hstop, if_neg (by simpa using hcont)] at hpost
    obtain ⟨hpending, hnot⟩ := Bool.and_eq_true_iff.mp hpost
    exact ⟨hpending, fun h ↦ absurd h hcont, fun _ ↦ by simpa [contsigmask] using hnot⟩
  · rw [if_neg hstop] at hpost
    by_cases hcont : sig = sigcont
    · rw [if_pos (decide_eq_true hcont)] at hpost
      obtain ⟨hpending, hnot⟩ := Bool.and_eq_true_iff.mp hpost
      exact ⟨hpending, fun _ ↦ by simpa using hnot, fun h ↦ absurd h hstop⟩
    · rw [if_neg (by simpa using hcont)] at hpost
      exact ⟨hpost, fun h ↦ absurd h hcont, fun h ↦ absurd h hstop⟩

/-- A stop signal takes `SIGCONT` away, and `SIGCONT` takes the stop signals away. -/
theorem Exclusive.posted (hq : q.Exclusive) (sig : Sig) : (q.posted sig).Exclusive := by
  intro k hstop hpending
  refine Bool.eq_false_iff.mpr fun hcont ↦ ?_
  change q.post sig k = true at hpending
  change q.post sig sigcont = true at hcont
  by_cases hk : k = sig
  · subst hk
    have hne : sigcont ≠ k := fun heq ↦ by
      rw [← heq] at hstop
      exact absurd hstop (by decide)
    exact (post_of_ne hne hcont).2.2 hstop rfl
  · by_cases hsig : sigcont = sig
    · have hnot := (post_of_ne hk hpending).2.1 hsig.symm
      exact absurd (hnot.symm.trans hstop) Bool.false_ne_true
    · have hold := hq k hstop (post_of_ne hk hpending).1
      exact absurd (hold.symm.trans (post_of_ne hsig hcont).1) Bool.false_ne_true

theorem Mild.posted (q : Proc P) (sig : Sig) : Mild q (q.posted sig) :=
  ⟨rfl, rfl, rfl, rfl, rfl, rfl, rfl, fun hq ↦ hq.posted sig, fun _ ↦ rfl, .inl⟩

/-- A masked signal is not to be delivered. -/
theorem Tame.posted_of_mask (hmask : q.sigmask sig = true) : Tame q (q.posted sig) := by
  refine ⟨Mild.posted q sig, fun hstat _ ↦ ⟨hstat, fun k hk ↦ ?_⟩⟩
  have hne : k ≠ sig := fun heq ↦ by
    have hnot : (q.posted sig).sigmask k = false := hk.1.2.1
    rw [heq] at hnot
    exact absurd (hmask.symm.trans hnot) Bool.noConfusion
  exact (Mild.posted q sig).deliverable (fun hpost ↦ (post_of_ne hne hpost).1) hk

/-- The signal is posted and taken again. -/
theorem Tame.posted_clear (q : Proc P) (sig : Sig) :
    Tame q { q.posted sig with sig := update (q.posted sig).sig sig false } := by
  refine Tame.of_pending (fun k hk ↦ ?_) (q.renice sig)
  have hne : k ≠ sig := fun heq ↦ by
    rw [heq, update_self] at hk
    exact Bool.false_ne_true hk
  rw [update_of_ne hne] at hk
  exact (post_of_ne hne hk).1

end Proc

/-! ### The routines -/

variable {s s' t : System P} {p : P}

/-- Every process is changed as above, and stays where it is. -/
structure Tamely (s s' : System P) : Prop where
  pc : s'.pc = s.pc
  curproc : s'.curproc = s.curproc
  proc : ∀ r, (s.proc r).Tame (s'.proc r)

theorem Tamely.refl (s : System P) : Tamely s s := ⟨rfl, rfl, fun r ↦ Proc.Tame.refl (s.proc r)⟩

theorem Tamely.trans (h : Tamely s s') (h' : Tamely s' t) : Tamely s t :=
  ⟨h'.pc.trans h.pc, h'.curproc.trans h.curproc, fun r ↦ (h.proc r).trans (h'.proc r)⟩

/-- What a computation does not fail with. -/
theorem bind_eq_ok {A B : Type} {x : Except Fault A} {f : A → Except Fault B} {b : B}
    (h : (x >>= f) = .ok b) : ∃ a, x = .ok a ∧ f a = .ok b := by
  cases x with
  | error e => cases h
  | ok a => exact ⟨a, rfl, h⟩

variable [DecidableEq P]

theorem Tamely.of_update {q : Proc P}
    (hproc : s'.proc = update s.proc p q ∧ s'.pc = s.pc ∧ s'.curproc = s.curproc)
    (hq : (s.proc p).Tame q) : Tamely s s' := by
  refine ⟨hproc.2.1, hproc.2.2, fun r ↦ ?_⟩
  rw [hproc.1]
  by_cases hrp : r = p
  · rw [hrp, update_self]
    exact hq
  · rw [update_of_ne hrp]
    exact Proc.Tame.refl (s.proc r)

theorem tamely_modify {f : Proc P → Proc P} (hf : (s.proc p).Tame (f (s.proc p))) :
    Tamely s (s.modify p f) :=
  Tamely.of_update ⟨modify_proc s p f, rfl, rfl⟩ hf

/-- A pending signal is taken. -/
theorem tamely_clear (s : System P) (p : P) (sig : Sig) : Tamely s (s.clear p sig) := by
  refine tamely_modify (Proc.Tame.of_pending (fun k hk ↦ ?_) (s.proc p).nice)
  by_cases hks : k = sig
  · rw [hks, update_self] at hk
    cases hk
  · rwa [update_of_ne hks] at hk

theorem setrq_proc (h : s.setrq p = .ok s') :
    s'.proc = s.proc ∧ s'.pc = s.pc ∧ s'.curproc = s.curproc := by
  rw [System.setrq] at h
  split_ifs at h
  obtain ⟨last, -, h⟩ := bind_eq_ok h
  cases h
  exact ⟨rfl, rfl, rfl⟩

theorem enqueue_proc {h : Fin 64} (hrun : s.enqueue p h = .ok s') :
    s'.proc = s.proc ∧ s'.pc = s.pc := by
  rw [System.enqueue] at hrun
  split_ifs at hrun
  · cases hrun
    exact ⟨rfl, rfl⟩
  · obtain ⟨cell, -, hrun⟩ := bind_eq_ok hrun
    cases hrun
    exact ⟨(store_rest s cell _).1, (store_rest s cell _).2.2.2.pc⟩

variable [Fintype P]

theorem unsleep_proc (h : s.unsleep p = .ok s') :
    s'.proc = update s.proc p { s.proc p with wchan := 0 } ∧ s'.pc = s.pc ∧
    s'.curproc = s.curproc := by
  rw [System.unsleep] at h
  by_cases hzero : (s.proc p).wchan = 0
  · rw [if_pos hzero] at h
    cases h
    rw [eq_update_iff]
    refine ⟨⟨?_, fun _ _ ↦ rfl⟩, rfl, rfl⟩
    rw [← hzero]
  · rw [if_neg hzero] at h
    obtain ⟨cell, -, h⟩ := bind_eq_ok h
    cases h
    obtain ⟨hproc, -, hsame⟩ := dequeue_rest s p (hash (s.proc p).wchan) cell
    exact ⟨hproc, hsame.pc, hsame.curproc⟩

omit [Fintype P] in
theorem run_proc (h : s.run p = .ok s') :
    s'.proc = update s.proc p { s.proc p with stat := .srun } ∧ s'.pc = s.pc ∧
      s'.curproc = s.curproc := by
  rw [System.run] at h
  split_ifs at h
  · exact setrq_proc h
  · cases h
    exact ⟨rfl, rfl, rfl⟩

/-- `setrun` makes the process run and leaves the others alone. -/
theorem setrun_proc (h : s.setrun p = .ok s') : Tamely s s' ∧ Others p s s' ∧
    (s'.proc p).stat = .srun := by
  -- The process is taken off its sleep queue before, or it is on none.
  have hrun : ∀ t, Tamely s t → Others p s t → t.run p = .ok s' →
      Tamely s s' ∧ Others p s s' ∧ (s'.proc p).stat = .srun := by
    intro t hts hother hrun
    have hproc := run_proc hrun
    refine ⟨hts.trans (Tamely.of_update hproc (Proc.tame_run _)),
      hother.trans (.of_update hproc.1), ?_⟩
    rw [hproc.1, update_self]
  rw [System.setrun] at h
  cases hstat : (s.proc p).stat with
  | sidl =>
    rw [hstat] at h
    exact hrun s (Tamely.refl s) (Others.refl p s) h
  | srun =>
    rw [hstat] at h
    cases h
  | szomb =>
    rw [hstat] at h
    cases h
  | _ =>
    rw [hstat] at h
    obtain ⟨t, ht, h⟩ := bind_eq_ok h
    have hproc := unsleep_proc ht
    exact hrun t (Tamely.of_update hproc (Proc.tame_unsleep _)) (.of_update hproc.1) h

omit [Fintype P] in
theorem wakeupLoop_tame {chan : ℕ} (fuel : ℕ) {cell : Cell P}
    (h : System.wakeupLoop chan fuel cell s = .ok s') : Tamely s s' := by
  induction fuel generalizing s cell with
  | zero =>
    rw [System.wakeupLoop] at h
    cases h
  | succ fuel ih =>
    rw [System.wakeupLoop] at h
    cases hload : s.load cell with
    | none =>
      rw [hload] at h
      cases h
      exact Tamely.refl _
    | some n =>
      rw [hload] at h
      cases n with
      | header i => cases h
      | proc p =>
        dsimp only at h
        have hdequeue : Tamely s (s.dequeue p (hash chan) cell) := by
          obtain ⟨hproc, -, hsame⟩ := dequeue_rest s p (hash chan) cell
          exact Tamely.of_update ⟨hproc, hsame.pc, hsame.curproc⟩ (Proc.tame_unsleep _)
        split_ifs at h
        · obtain ⟨t, ht, h⟩ := bind_eq_ok h
          exact hdequeue.trans ((Tamely.of_update (run_proc ht) (Proc.tame_run _)).trans (ih h))
        · exact hdequeue.trans (ih h)
        · exact ih h

theorem wakeup_tame {chan : ℕ} (h : s.wakeup chan = .ok s') : Tamely s s' := wakeupLoop_tame _ h

theorem runfast_proc (h : s.runfast p = .ok s') :
    Tamely s s' ∧ Others p s s' ∧ (s'.proc p).stat = .srun := by
  obtain ⟨htame, hother, hstat⟩ := setrun_proc h
  have hpri : (s.proc p).Tame { s.proc p with pri := min (s.proc p).pri puser } :=
    ⟨⟨rfl, rfl, rfl, rfl, rfl, rfl, rfl, id, fun _ ↦ rfl, .inl⟩, fun hstat _ ↦ ⟨hstat, fun _ h ↦ h⟩⟩
  exact ⟨(tamely_modify hpri).trans htame,
    (Others.of_update (modify_proc s p _)).trans hother, hstat⟩

theorem endtsleep_tame (h : s.endtsleep p = .ok s') : Tamely s s' := by
  have hflag : ∀ t : System P, Tamely t (t.modify p fun q ↦ { q with stimo := true }) := fun t ↦
    tamely_modify ⟨⟨rfl, rfl, rfl, rfl, rfl, rfl, rfl, id, fun _ ↦ rfl, .inl⟩,
      fun hstat _ ↦ ⟨hstat, fun _ h ↦ h⟩⟩
  rw [System.endtsleep] at h
  by_cases hzero : (s.proc p).wchan = 0
  · rw [if_pos hzero] at h
    cases h
    exact Tamely.refl _
  rw [if_neg hzero] at h
  by_cases hsleep : (s.proc p).stat = .ssleep
  · rw [if_pos hsleep] at h
    obtain ⟨t, ht, h⟩ := bind_eq_ok h
    cases h
    exact (setrun_proc ht).1.trans (hflag t)
  · rw [if_neg hsleep] at h
    obtain ⟨t, ht, h⟩ := bind_eq_ok h
    cases h
    exact (Tamely.of_update (unsleep_proc ht) (Proc.tame_unsleep _)).trans (hflag t)

/-- The stopped process is continued where it sleeps. -/
structure Continued (p : P) (s s' : System P) : Prop where
  stat : (s.proc p).stat = .sstop
  wchan : (s.proc p).wchan ≠ 0
  uncaught : (s.proc p).reaction sigcont ≠ .sigCatch
  others : Others p s s'
  mild : (s.proc p).Mild (s'.proc p)
  asleep : (s'.proc p).stat = .ssleep
  pc : s'.pc = s.pc
  curproc : s'.curproc = s.curproc
  deliverable : ∀ k, (s'.proc p).Deliverable k →
    (s.proc p).Deliverable k ∧ k ≠ sigcont ∧ stopsigmask k = false

/-- The `switch` of `psignal` on the process with the signal posted. -/
theorem react_tame {stop : P → Sig → System P → Except Fault (System P)}
    (hstop : ∀ t t', (∃ k, (t.proc p).sigignore k = false) → stop p sig t = .ok t' → Tamely t t')
    (hignore : (s.proc p).sigignore sig = false)
    (h : System.react stop p sig ((s.proc p).reaction sig) (s.modify p fun q ↦ q.posted sig) =
    .ok s') :
    Tamely s s' ∨ sig = sigcont ∧ Continued p s s' := by
  obtain ⟨u, hu⟩ : ∃ u, s.modify p (fun q ↦ q.posted sig) = u := ⟨_, rfl⟩
  have hself : u.proc p = (s.proc p).posted sig := by rw [← hu, modify_self]
  have hother : Others p s u := hu ▸ Others.of_update (modify_proc s p _)
  have hmild : (s.proc p).Mild (u.proc p) := hself ▸ Proc.Mild.posted (s.proc p) sig
  have hstat : (u.proc p).stat = (s.proc p).stat := by rw [hself]; rfl
  have hclear : Tamely s (u.clear p sig) := by
    refine Tamely.of_update (p := p) ⟨?_, ?_, ?_⟩ (Proc.Tame.posted_clear (s.proc p) sig)
    · rw [← hu, System.clear, modify_modify, modify_proc]
    · rw [← hu]
      rfl
    · rw [← hu]
      rfl
  -- A process that does not sleep any more.
  have hawake : ∀ t, Tamely u t → Others p u t → (t.proc p).stat ≠ .ssleep → Tamely s t := by
    intro t htame hothers hnot
    refine ⟨htame.pc.trans (by rw [← hu]; rfl), htame.curproc.trans (by rw [← hu]; rfl), fun r ↦ ?_⟩
    by_cases hrp : r = p
    · rw [hrp]
      exact (hmild.trans (htame.proc p).toMild).tame hnot
    · rw [(hother.trans hothers) r hrp]
      exact Proc.Tame.refl (s.proc r)
  have hfast : ∀ t, Tamely u t → Others p u t → t.runfast p = .ok s' → Tamely s s' := by
    intro t htame hothers hrun
    obtain ⟨htame', hothers', hstat'⟩ := runfast_proc hrun
    refine hawake s' (htame.trans htame') (hothers.trans hothers') ?_
    rw [hstat']
    exact fun heq ↦ by cases heq
  rw [hu, System.react, hstat] at h
  cases hs : (s.proc p).stat with
  | ssleep =>
    rw [hs] at h
    dsimp only at h
    by_cases hintr : (u.proc p).ssintr = false
    · rw [if_pos hintr] at h
      cases h
      refine .inl ⟨by rw [← hu]; rfl, by rw [← hu]; rfl, fun r ↦ ?_⟩
      by_cases hrp : r = p
      · rw [hrp]
        exact ⟨hmild, fun _ h ↦ absurd (hintr.symm.trans h) Bool.false_ne_true⟩
      · rw [hother r hrp]
        exact Proc.Tame.refl (s.proc r)
    rw [if_neg hintr] at h
    by_cases hcont : sig.has saCont = true ∧ (s.proc p).reaction sig = .sigDfl
    · rw [if_pos hcont] at h
      cases h
      exact .inl hclear
    rw [if_neg hcont] at h
    by_cases hdfl : sig.has saStop = true ∧ (s.proc p).reaction sig = .sigDfl
    · rw [if_pos hdfl] at h
      refine .inl (hclear.trans (hstop _ s' ⟨sig, ?_⟩ h))
      rw [(hclear.proc p).sigignore]
      exact hignore
    · rw [if_neg hdfl] at h
      exact .inl (hfast u (Tamely.refl u) (Others.refl p u) h)
  | sstop =>
    rw [hs] at h hstat
    dsimp only at h
    by_cases hkill : sig = sigkill
    · rw [if_pos hkill] at h
      exact .inl (hfast u (Tamely.refl u) (Others.refl p u) h)
    rw [if_neg hkill] at h
    by_cases hcont : sig.has saCont = true
    · rw [if_pos hcont] at h
      have hsig : sig = sigcont := by simpa [has_saCont] using hcont
      obtain ⟨t, ht, htame, hothers, htstat⟩ : ∃ t, (if (s.proc p).reaction sig = .sigDfl then
            u.clear p sig else u) = t ∧ Tamely u t ∧ Others p u t ∧ (t.proc p).stat = .sstop := by
        by_cases hdfl : (s.proc p).reaction sig = .sigDfl
        · rw [if_pos hdfl]
          refine ⟨_, rfl, tamely_clear u p sig, .of_update (modify_proc u p _), ?_⟩
          rw [System.clear, modify_self]
          exact hstat
        · rw [if_neg hdfl]
          exact ⟨u, rfl, Tamely.refl u, Others.refl p u, hstat⟩
      have htcont : ((s.proc p).reaction sig = .sigDfl → (t.proc p).sig sig = false) := by
        intro hdfl
        rw [← ht, if_pos hdfl, clear_pending, update_self]
      rw [ht] at h
      by_cases hcaught : (s.proc p).reaction sig = .sigCatch
      · rw [if_pos hcaught] at h
        exact .inl (hfast t htame hothers h)
      rw [if_neg hcaught] at h
      by_cases hzero : (t.proc p).wchan = 0
      · rw [if_pos hzero] at h
        obtain ⟨htame', hothers', hstat'⟩ := setrun_proc h
        refine .inl (hawake s' (htame.trans htame') (hothers.trans hothers') ?_)
        rw [hstat']
        exact fun heq ↦ by cases heq
      · rw [if_neg hzero] at h
        cases h
        have hmildt : (s.proc p).Mild (t.proc p) := hmild.trans (htame.proc p).toMild
        have hsleep := Proc.Mild.asleep (t.proc p)
        refine .inr ⟨hsig, hs, ?_, hsig ▸ hcaught, ?_, ?_, ?_, htame.pc.trans (by rw [← hu]; rfl),
          htame.curproc.trans (by rw [← hu]; rfl), fun k hk ↦ ?_⟩
        · rw [← hmildt.wchan hzero]
          exact hzero
        · exact (hother.trans hothers).trans (.of_update (modify_proc t p _))
        · rw [modify_self]
          exact hmildt.trans hsleep
        · rw [modify_self]
        · rw [modify_self] at hk
          have hpending : (t.proc p).sig k = true := hk.1.1
          have hmask : (s.proc p).sigmask k = false := hmildt.sigmask ▸ hk.1.2.1
          -- `SIGCONT` itself has been taken, or is masked.
          have hne : k ≠ sig := by
            rintro rfl
            by_cases hdfl : (s.proc p).reaction k = .sigDfl
            · exact absurd ((htcont hdfl).symm.trans hpending) Bool.false_ne_true
            · rw [Proc.reaction, hmask] at hdfl hcaught
              by_cases hcatch : (s.proc p).sigcatch k = true
              · exact hcaught (by rw [if_neg Bool.false_ne_true, if_pos hcatch])
              · exact hdfl (by rw [if_neg Bool.false_ne_true, if_neg hcatch])
          have hpost : (s.proc p).post sig k = true := by
            have hthis : (u.proc p).sig k = true := by
              by_cases hdfl : (s.proc p).reaction sig = .sigDfl
              · rw [← ht, if_pos hdfl, clear_pending, update_of_ne hne] at hpending
                exact hpending
              · rw [← ht, if_neg hdfl] at hpending
                exact hpending
            rw [hself] at hthis
            exact hthis
          obtain ⟨hold, hnot, -⟩ := Proc.post_of_ne hne hpost
          exact ⟨(hmildt.trans hsleep).deliverable (fun _ ↦ hold) hk, hsig ▸ hne, hnot hsig⟩
    rw [if_neg hcont] at h
    by_cases hstopped : sig.has saStop = true
    · rw [if_pos hstopped] at h
      cases h
      exact .inl hclear
    rw [if_neg hstopped] at h
    by_cases hintr : (u.proc p).wchan ≠ 0 ∧ (u.proc p).ssintr = true
    · rw [if_pos hintr] at h
      have hproc := unsleep_proc h
      refine .inl (hawake s' (Tamely.of_update hproc (Proc.tame_unsleep _)) (.of_update hproc.1) ?_)
      rw [hproc.1, update_self]
      exact fun heq ↦ by rw [hstat] at heq; cases heq
    · rw [if_neg hintr] at h
      cases h
      refine .inl (hawake _ (Tamely.refl _) (Others.refl p _) ?_)
      rw [hstat]
      exact fun heq ↦ by cases heq
  | _ =>
    rw [hs] at h hstat
    cases h
    refine .inl (hawake _ (Tamely.refl _) (Others.refl p _) ?_)
    rw [hstat]
    exact fun heq ↦ by cases heq

/-- `psignal`, given what stops a process. -/
theorem psignalWith_tame {stop : P → Sig → System P → Except Fault (System P)}
    (hstop : ∀ t t', (∃ k, (t.proc p).sigignore k = false) → stop p sig t = .ok t' → Tamely t t')
    (h : System.psignalWith stop p sig s = .ok s') : Tamely s s' ∨ sig = sigcont ∧
    Continued p s s' := by
  rw [psignalWith_eq] at h
  by_cases hsig : sig = nosig
  · rw [if_pos hsig] at h
    cases h
  rw [if_neg hsig] at h
  by_cases hignore : (s.proc p).sigignore sig = true
  · rw [if_pos hignore] at h
    cases h
    exact .inl (Tamely.refl _)
  rw [if_neg hignore] at h
  by_cases horphan : s.Orphaned p sig
  · rw [if_pos horphan] at h
    cases h
    refine .inl (tamely_modify (Proc.Tame.of_pending (fun k hk ↦ ?_) _))
    split_ifs at hk
    · exact (Bool.and_eq_true_iff.mp hk).1
    · exact hk
  rw [if_neg horphan] at h
  by_cases hhold : (s.proc p).reaction sig = .sigHold ∧
    (sig.has saCont = false ∨ (s.proc p).stat ≠ .sstop)
  · rw [if_pos hhold] at h
    cases h
    refine .inl (tamely_modify (Proc.Tame.posted_of_mask ?_))
    by_contra hmask
    have hreaction := hhold.1
    rw [Proc.reaction, if_neg hmask] at hreaction
    split_ifs at hreaction
  · rw [if_neg hhold] at h
    exact react_tame hstop (Bool.eq_false_iff.mpr hignore) h

/-- `stop` of a process that does not ignore all signals. -/
theorem stop_tame (hignore : ∃ k, (s.proc p).sigignore k = false) (h : s.stop p sig = .ok s') :
    Tamely s s' := by
  rw [System.stop] at h
  by_cases hvfork : (s.proc p).sppwait = true
  · rw [if_pos hvfork] at h
    cases h
    exact Tamely.refl _
  rw [if_neg hvfork] at h
  obtain ⟨t, ht, h⟩ := bind_eq_ok h
  obtain ⟨v, hv, h⟩ := bind_eq_ok h
  cases h
  have htame : Tamely s t := by
    rw [System.signalParent] at ht
    split_ifs at ht
    · cases ht
      exact Tamely.refl _
    · exact (psignalWith_tame (fun _ _ _ h ↦ by cases h) ht).resolve_right fun h ↦
        absurd h.1 (by decide)
  have hstopped : (t.proc p).Tame { t.proc p with stat := .sstop } := by
    refine Proc.Mild.tame ⟨rfl, rfl, rfl, rfl, rfl, rfl, rfl, id, fun _ ↦ rfl,
      fun _ ↦ .inr ?_⟩ fun h ↦ by
      cases h
    rw [(htame.proc p).sigignore]
    exact hignore
  have hlast : (v.proc p).Tame { v.proc p with stopsig := sig } :=
    ⟨⟨rfl, rfl, rfl, rfl, rfl, rfl, rfl, id, fun _ ↦ rfl, .inl⟩, fun hstat _ ↦ ⟨hstat, fun _ h ↦ h⟩⟩
  exact htame.trans ((tamely_modify hstopped).trans ((wakeup_tame hv).trans (tamely_modify hlast)))

/-- `psignal`. -/
theorem psignal_tame (h : s.psignal p sig = .ok s') : Tamely s s' ∨ sig = sigcont ∧
    Continued p s s' :=
  psignalWith_tame (fun _ _ hignore hstop ↦ stop_tame hignore hstop) h

/-! ### Looking at the signals -/

/-- A turn of the loop of `issig`. It returns no signal only where none is to be delivered. -/
theorem issigTurn_tame {turn : System.Turn} (h : s.issigTurn p = .ok (turn, s')) :
    Tamely s s' ∧ (turn = .done none → ∀ sig, ¬(s'.proc p).Deliverable sig) := by
  rw [System.issigTurn] at h
  cases hffs : ffs (s.proc p).mask with
  | none =>
    rw [hffs] at h
    cases h
    refine ⟨Tamely.refl _, fun _ sig hsig ↦ ?_⟩
    have hnone := List.find?_eq_none.mp hffs sig (List.mem_finRange sig)
    obtain ⟨⟨hpending, hmask, -, -⟩, hvfork⟩ := hsig
    refine hnone ?_
    rw [Proc.mask]
    split_ifs with hwait
    · simp [Sigset.without, hpending, hmask, hvfork hwait]
    · simp [Sigset.without, hpending, hmask]
  | some sig =>
    rw [hffs] at h
    dsimp only at h
    have hagain : ∀ turn, (Except.ok (System.Turn.again, s.clear p sig) : Except Fault _) =
      .ok (turn, s') →
        Tamely s s' ∧ (turn = .done none → ∀ sig, ¬(s'.proc p).Deliverable sig) := by
      intro turn h
      cases h
      exact ⟨tamely_clear s p sig, fun h ↦ by cases h⟩
    by_cases hignore : (s.proc p).sigignore sig = true
    · rw [if_pos hignore] at h
      exact hagain turn h
    rw [if_neg hignore] at h
    cases hact : (s.proc p).sigact sig with
    | sigIgn =>
      rw [hact] at h
      exact hagain turn h
    | handler =>
      rw [hact] at h
      cases h
      exact ⟨Tamely.refl _, fun h ↦ by cases h⟩
    | sigDfl =>
      rw [hact] at h
      dsimp only at h
      split_ifs at h
      · exact hagain turn h
      · exact hagain turn h
      · exact hagain turn h
      · obtain ⟨t, ht, h⟩ := bind_eq_ok h
        cases h
        exact ⟨stop_tame ⟨sig, Bool.eq_false_iff.mpr hignore⟩ ht, fun h ↦ by cases h⟩
      · exact hagain turn h
      · cases h
        exact ⟨Tamely.refl _, fun h ↦ by cases h⟩

theorem issigHigh_tame {turn : System.Turn} (fuel : ℕ) (h : s.issigHigh p fuel = .ok (turn, s')) :
    Tamely s s' ∧ turn ≠ .again ∧ (turn = .done none → ∀ sig, ¬(s'.proc p).Deliverable sig) := by
  induction fuel generalizing s with
  | zero =>
    rw [System.issigHigh] at h
    cases h
  | succ fuel ih =>
    rw [System.issigHigh] at h
    obtain ⟨⟨first, t⟩, ht, h⟩ := bind_eq_ok h
    obtain ⟨htame, hnone⟩ := issigTurn_tame ht
    cases first with
    | again =>
      obtain ⟨htame', hnone'⟩ := ih h
      exact ⟨htame.trans htame', hnone'⟩
    | done r =>
      cases h
      refine ⟨htame, ?_, hnone⟩
      intro heq
      cases heq
    | stopped k =>
      cases h
      refine ⟨htame, ?_, hnone⟩
      intro heq
      cases heq

end Bsd386.Kern.Sleep
