import Bsd386.Kern.Sleep.Runs

/-!
# Integrity of the queues

Each event leaves the queues and the processes in order, and no event comes to a fault unless it is
called where it may not be.
-/

namespace Bsd386.Kern.Sleep

open Function

variable {P : Type} {s s' t u : System P} {p : P}

/-! ### Steps -/

/-- What leaves the processes that run alone. -/
theorem Sound.calm (hsound : Sound s) (hq : Queued s') (hcalm : Calm (fun _ ↦ False) s s') :
    Sound s' := by
  obtain ⟨hsame, hruns, hstimo, hpptr, hwchan⟩ := hcalm
  refine ⟨hq, fun r ↦ ?_, ?_, fun r hr ↦ ?_⟩
  · obtain ⟨hwaits, hsleeping, hpending, hexpired, hparent⟩ := hsound.proc r
    refine ⟨fun h ↦ ?_, fun h ↦ ?_, fun h ↦ ?_, fun h ↦ ?_, ?_⟩
    · obtain ⟨heq, hthis⟩ := hwchan r h
      exact hthis (hwaits (heq ▸ h))
    · rw [hsame.pc]
      exact hsleeping ((hwchan r h).1 ▸ h)
    · rw [hsame.callouts] at h
      rw [hsame.pc, hstimo]
      exact hpending h
    · rw [hsame.pc]
      exact hexpired (hstimo r ▸ h)
    · rw [hpptr]
      exact hparent
  · rw [hsame.callouts]
    exact hsound.once
  · rw [hsame.curproc] at hr
    obtain ⟨hzero, hrunning⟩ := hsound.current r hr
    constructor
    · by_contra hne
      exact hne ((hwchan r hne).1.trans hzero)
    · rcases hrunning with ⟨hstat, hprev⟩ | hstopping
      · obtain ⟨hstat', -, hprev'⟩ := hruns r id hstat
        exact .inl ⟨hstat', hprev'.trans hprev⟩
      · rw [hsame.pc]
        exact .inr hstopping

/-- The process `p` may come to be elsewhere; the others are as calm as before. -/
structure Elsewhere (p : P) (s s' : System P) : Prop where
  wchan : ∀ r, r ≠ p → (s'.proc r).wchan ≠ 0 → (s'.proc r).wchan = (s.proc r).wchan ∧
    ((s.proc r).Waits → (s'.proc r).Waits)
  stimo : ∀ r, r ≠ p → (s'.proc r).stimo = (s.proc r).stimo
  pc : ∀ r, r ≠ p → s'.pc r = s.pc r
  callouts : ∀ r, r ≠ p → r ∈ s'.callouts → r ∈ s.callouts
  pptr : ∀ r, (s'.proc r).pptr = (s.proc r).pptr

theorem Elsewhere.trans (h : Elsewhere p s t) (h' : Elsewhere p t u) : Elsewhere p s u := by
  refine ⟨fun r hr hne ↦ ?_, fun r hr ↦ (h'.stimo r hr).trans (h.stimo r hr),
    fun r hr ↦ (h'.pc r hr).trans (h.pc r hr), fun r hr hmem ↦
    h.callouts r hr (h'.callouts r hr hmem),
    fun r ↦ (h'.pptr r).trans (h.pptr r)⟩
  obtain ⟨hwchan', hwaits'⟩ := h'.wchan r hr hne
  obtain ⟨hwchan, hwaits⟩ := h.wchan r hr (hwchan' ▸ hne)
  exact ⟨hwchan'.trans hwchan, fun hthis ↦ hwaits' (hwaits hthis)⟩

theorem Calm.elsewhere {x : P → Prop} (hcalm : Calm x s s') : Elsewhere p s s' :=
  ⟨fun r _ ↦ hcalm.wchan r, fun r _ ↦ hcalm.stimo r, fun r _ ↦ congrFun hcalm.same.pc r,
    fun _ _ h ↦ hcalm.same.callouts ▸ h, hcalm.pptr⟩

/-- A step that one process comes to be elsewhere by. -/
theorem Sound.elsewhere (hsound : Sound s) (hq : Queued s') (helse : Elsewhere p s s')
    (honce : s'.callouts.Nodup)
    (hwaits : (s'.proc p).wchan ≠ 0 → (s'.proc p).Waits ∧ (s'.pc p).Sleeping)
    (hpending : p ∈ s'.callouts → (s'.pc p).Timed ∧ (s'.proc p).stimo = false)
    (hexpired : (s'.proc p).stimo = true → (s'.pc p).Expired)
    (hcurrent : ∀ r, s'.curproc = some r → Runs s' r) : Sound s' := by
  refine ⟨hq, fun r ↦ ?_, honce, hcurrent⟩
  have hparent : (s'.proc r).pptr ≠ r := by
    rw [helse.pptr]
    exact (hsound.proc r).parent
  by_cases hrp : r = p
  · subst hrp
    exact ⟨fun h ↦ (hwaits h).1, fun h ↦ (hwaits h).2, hpending, hexpired, hparent⟩
  · obtain ⟨hwaits, hsleeping, hpending, hexpired, -⟩ := hsound.proc r
    refine ⟨fun h ↦ ?_, fun h ↦ ?_, fun h ↦ ?_, fun h ↦ ?_, hparent⟩
    · obtain ⟨heq, hthis⟩ := helse.wchan r hrp h
      exact hthis (hwaits (heq ▸ h))
    · rw [helse.pc r hrp]
      exact hsleeping ((helse.wchan r hrp h).1 ▸ h)
    · rw [helse.pc r hrp, helse.stimo r hrp]
      exact hpending (helse.callouts r hrp h)
    · rw [helse.pc r hrp]
      rw [helse.stimo r hrp] at h
      exact hexpired h

/-- A step of the process that runs. -/
theorem Sound.own (hsound : Sound s) (hq : Queued s') (helse : Elsewhere p s s')
    (honce : s'.callouts.Nodup)
    (hwaits : (s'.proc p).wchan ≠ 0 → (s'.proc p).Waits ∧ (s'.pc p).Sleeping)
    (hpending : p ∈ s'.callouts → (s'.pc p).Timed ∧ (s'.proc p).stimo = false)
    (hexpired : (s'.proc p).stimo = true → (s'.pc p).Expired)
    (hcurrent : s'.curproc = none ∨ s'.curproc = some p ∧ Runs s' p) : Sound s' := by
  refine hsound.elsewhere hq helse honce hwaits hpending hexpired fun r hr ↦ ?_
  rcases hcurrent with hnone | ⟨hsome, hruns⟩
  · rw [hnone] at hr
    cases hr
  · rw [hsome] at hr
    cases hr
    exact hruns

/-- The queues depend on the processes and the links only. -/
theorem Queued.congr (hq : Queued s) (hproc : s'.proc = s.proc) (hlinks : s'.links = s.links)
    (hhead : s'.sqHead = s.sqHead) (htail : s'.sqTailp = s.sqTailp)
    (hwhich : s'.whichqs = s.whichqs) :
    Queued s' := by
  obtain ⟨sl, rl, hq⟩ := hq
  have hload : s'.load = s.load := by
    funext c
    cases c with
    | head h => exact congrFun hhead h
    | link r => exact congrArg (fun m ↦ Links.next m (.proc r)) hlinks
  refine ⟨sl, rl, fun h ↦ ?_, ?_, hq.once, ?_, ?_, ?_, ?_, fun r i hr ↦ ?_, ?_⟩
  · rw [System.Asleep, hload]
    exact hq.sleepers h
  · rw [hproc]
    exact hq.asleep
  · rw [htail]
    exact hq.tail
  · rw [hlinks]
    exact hq.runners
  · rw [hlinks]
    exact hq.ready
  · rw [hwhich]
    exact hq.which
  · rw [← hq.index r i hr]
    exact rqidx_congr (congrArg (fun f ↦ (f r).pri) hproc)
  · rw [hproc]
    exact hq.runnable

variable [DecidableEq P]

/-- The process that runs goes on elsewhere, where it does not sleep. -/
theorem Sound.goto (hsound : Sound s) (hcur : s.curproc = some p) {pc : Pc}
    (htimed : p ∈ s.callouts → pc.Timed) (hexpired : (s.proc p).stimo = true → pc.Expired)
    (hrunning : (s.proc p).stat = .srun ∧ s.links.prev (.proc p) = none ∨ pc.Stopping) :
    Sound (s.goto p pc) := by
  have hself : (s.goto p pc).pc p = pc := update_self ..
  refine hsound.own (p := p) (hsound.queued.congr rfl rfl rfl rfl rfl)
    ⟨fun _ _ _ ↦ ⟨rfl, id⟩, fun _ _ ↦ rfl, fun r hr ↦ update_of_ne hr .., fun _ _ h ↦ h,
    fun _ ↦ rfl⟩
    hsound.once (fun h ↦ absurd (hsound.current p hcur).wchan h) (fun h ↦ ?_) (fun h ↦ ?_)
    (.inr ⟨hcur, (hsound.current p hcur).wchan, ?_⟩)
  · rw [hself]
    exact ⟨htimed h, ((hsound.proc p).pending h).2⟩
  · rw [hself]
    exact hexpired h
  · rw [hself]
    exact hrunning

/-- `tsleep` or `issig` returns. -/
theorem Sound.ret (hsound : Sound s) (hcur : s.curproc = some p) (hpending : p ∉ s.callouts)
    (hstimo : (s.proc p).stimo = false)
    (hrunning : (s.proc p).stat = .srun ∧ s.links.prev (.proc p) = none) (value : Value) :
    Sound (s.ret p value) := by
  have hgone : Sound (s.goto p .out) := hsound.goto hcur (fun h ↦ absurd h hpending)
    (fun h ↦ absurd (hstimo.symm.trans h) Bool.false_ne_true) (.inl hrunning)
  exact ⟨hgone.queued.congr rfl rfl rfl rfl rfl,
    fun r ↦ ⟨(hgone.proc r).waits, (hgone.proc r).sleeping, (hgone.proc r).pending,
      (hgone.proc r).expired, (hgone.proc r).parent⟩,
    hgone.once, fun r hr ↦ ⟨(hgone.current r hr).wchan, (hgone.current r hr).running⟩⟩

variable [Fintype P]

/-! ### Looking at the signals -/

/-- The process that runs is stopped, and goes on before `swtch`. -/
theorem Sound.stopped (hsound : Sound s) (sig : Sig) (pc : Pc) (hcur : s.curproc = some p)
    (hrunning : (s.proc p).stat = .srun ∧ s.links.prev (.proc p) = none)
    (htimed : (s.pc p).Timed → pc.Timed) (hexpired : (s.pc p).Expired → pc.Expired)
    (hstopping : pc.Stopping) :
    ∃ u, s.stop p sig = .ok u ∧ Sound (u.goto p pc) := by
  obtain ⟨u, hrun, hqu, hcalm, -⟩ := hsound.queued.stop sig hrunning.2 (hsound.proc p).parent
    fun r _ ↦ hsound.waits r
  have hself : (u.goto p pc).pc p = pc := update_self ..
  have hzero : (u.proc p).wchan = 0 := by
    by_contra hne
    exact hne ((hcalm.wchan p hne).1.trans (hsound.current p hcur).wchan)
  refine ⟨u, hrun, hsound.own (p := p) (hqu.congr rfl rfl rfl rfl rfl) ?_ ?_
    (fun h ↦ absurd hzero h) (fun h ↦ ?_) (fun h ↦ ?_)
    (.inr ⟨hcalm.same.curproc.trans hcur, hzero, .inr (by rw [hself]; exact hstopping)⟩)⟩
  · exact hcalm.elsewhere.trans ⟨fun _ _ _ ↦ ⟨rfl, id⟩, fun _ _ ↦ rfl,
      fun r hr ↦ update_of_ne hr ..,
      fun _ _ h ↦ h, fun _ ↦ rfl⟩
  · change u.callouts.Nodup
    rw [hcalm.same.callouts]
    exact hsound.once
  · change p ∈ u.callouts at h
    rw [hcalm.same.callouts] at h
    obtain ⟨htime, hflag⟩ := (hsound.proc p).pending h
    rw [hself]
    exact ⟨htimed htime, (hcalm.stimo p).trans hflag⟩
  · rw [hself]
    exact hexpired ((hsound.proc p).expired ((hcalm.stimo p).symm.trans h))

/-- A step in `issig`, given what happens when it returns. -/
theorem Sound.issigStep {i : Issig} {returned : Option Sig → System P → Except Fault (System P)}
    (hsound : Sound s) (pc : Issig → Pc) (hcur : s.curproc = some p) (hpc : s.pc p = pc i)
    (htimed : ∀ i j, (pc i).Timed → (pc j).Timed)
    (hexpired : ∀ i j, (pc i).Expired → (pc j).Expired)
    (hstopping : ∀ sig, (pc (.swtch sig)).Stopping)
    (hnot : ¬(pc .top).Stopping ∧ ∀ sig, ¬(pc (.clear sig)).Stopping)
    (hreturned : i = .top → ∀ r, ∃ s', returned r s = .ok s' ∧ Sound s') :
    ∃ s', s.issigStep p pc i returned = .ok s' ∧ Sound s' := by
  have hruns := hsound.current p hcur
  have hold := hsound.proc p
  cases i with
  | top =>
    have hrunning : (s.proc p).stat = .srun ∧ s.links.prev (.proc p) = none :=
      hruns.running.resolve_right (by rw [hpc]; exact hnot.1)
    rw [System.issigStep]
    rcases issigTurn_cases p s with ⟨sig, -, hturn⟩ | ⟨r, hturn⟩ | ⟨sig, -, hturn⟩
    · rw [hturn]
      exact ⟨_, rfl, hsound.calm (hsound.queued.modify_same rfl rfl rfl)
        (calm_modify s p rfl rfl rfl rfl)⟩
    · rw [hturn]
      exact hreturned rfl r
    · obtain ⟨u, hrun, hu⟩ := hsound.stopped sig (pc (.swtch sig)) hcur hrunning
        (by rw [hpc]; exact htimed _ _) (by rw [hpc]; exact hexpired _ _) (hstopping sig)
      rw [hturn, hrun]
      exact ⟨_, rfl, hu⟩
  | swtch sig =>
    refine ⟨_, rfl, hsound.own (p := p) (hsound.queued.congr rfl rfl rfl rfl rfl)
      ⟨fun _ _ _ ↦ ⟨rfl, id⟩, fun _ _ ↦ rfl, fun r hr ↦ update_of_ne hr .., fun _ _ h ↦ h,
      fun _ ↦ rfl⟩
      hsound.once (fun h ↦ absurd hruns.wchan h) (fun h ↦ ?_) (fun h ↦ ?_) (.inl rfl)⟩
    · obtain ⟨htime, hflag⟩ := hold.pending h
      refine ⟨?_, hflag⟩
      change (update s.pc p (pc (.clear sig)) p).Timed
      rw [update_self]
      exact htimed _ _ (hpc ▸ htime)
    · change (update s.pc p (pc (.clear sig)) p).Expired
      rw [update_self]
      exact hexpired _ _ (hpc ▸ hold.expired h)
  | clear sig =>
    have hrunning : (s.proc p).stat = .srun ∧ s.links.prev (.proc p) = none :=
      hruns.running.resolve_right (by rw [hpc]; exact hnot.2 sig)
    have hclear : Sound (s.clear p sig) :=
      hsound.calm (hsound.queued.modify_same rfl rfl rfl) (calm_modify s p rfl rfl rfl rfl)
    have hproc :
      (s.clear p sig).proc p = { s.proc p with sig := update (s.proc p).sig sig false } :=
      modify_self ..
    refine ⟨_, rfl, hclear.goto hcur (fun h ↦ ?_) (fun h ↦ ?_) (.inl ?_)⟩
    · exact htimed _ _ (hpc ▸ (hold.pending h).1)
    · rw [hproc] at h
      exact hexpired _ _ (hpc ▸ hold.expired h)
    · rw [hproc]
      exact hrunning

/-- `tsleep` after the first `CURSIG`, when the process is on no sleep queue any more. -/
theorem Sound.checked {f : Frame} {sig : Option Sig} (hsound : Sound s) (hcur : s.curproc = some p)
    (hpc : s.pc p = .before .top f) : ∃ s', s.checked p f sig = .ok s' ∧ Sound s' := by
  have hruns := hsound.current p hcur
  have hold := hsound.proc p
  have hrunning : (s.proc p).stat = .srun ∧ s.links.prev (.proc p) = none :=
    hruns.running.resolve_right (by rw [hpc]; exact id)
  have htimed : ∀ f' : Frame, f'.timo = f.timo → p ∈ s.callouts → (Pc.woken f').Timed := by
    intro f' hf h
    have hthis := (hold.pending h).1
    rw [hpc] at hthis
    exact hf.trans hthis
  cases sig with
  | none =>
    rw [System.checked, if_pos hruns.wchan]
    exact ⟨_, rfl, hsound.goto hcur (htimed _ rfl) (fun _ ↦ trivial) (.inl hrunning)⟩
  | some sig =>
    obtain ⟨t, hrun, hqt, hcalm, hproc⟩ := hsound.queued.unsleep_calm (p := p) (.inr hruns.wchan)
    have ht := hsound.calm hqt hcalm
    have hself : t.proc p = { s.proc p with wchan := 0 } := by rw [hproc, update_self]
    have hid : t.modify p (fun q ↦ { q with stat := .srun }) = t := by
      refine modify_eq_self t p ?_
      rw [hself, ← hrunning.1]
    rw [System.checked, hrun, ok_bind, hid]
    refine ⟨_, rfl, ht.goto (hcalm.same.curproc.trans hcur) (fun h ↦ ?_) (fun _ ↦ trivial)
      (.inl ?_)⟩
    · exact htimed _ rfl (hcalm.same.callouts ▸ h)
    · rw [hself]
      exact ⟨hrunning.1, (hcalm.runs p id hrunning.1).2.2.trans hrunning.2⟩

/-- The next step of the process that runs. -/
theorem Sound.step (hsound : Sound s) (hcur : s.curproc = some p) :
    ∃ s', s.step p = .ok s' ∧ Sound s' := by
  have hruns := hsound.current p hcur
  have hold := hsound.proc p
  have hidle : ¬(s.pc p).Timed → p ∉ s.callouts := fun h hmem ↦ h (hold.pending hmem).1
  have hflag : ¬(s.pc p).Expired → (s.proc p).stimo = false := fun h ↦
    Bool.eq_false_iff.mpr fun hset ↦ h (hold.expired hset)
  have hrunning : ¬(s.pc p).Stopping → (s.proc p).stat = .srun ∧ s.links.prev (.proc p) = none :=
    fun h ↦ hruns.running.resolve_right h
  rw [System.step]
  cases hpc : s.pc p with
  | out => exact ⟨s, rfl, hsound⟩
  | user i =>
    refine hsound.issigStep .user hcur hpc (fun _ _ h ↦ h) (fun _ _ h ↦ h) (fun _ ↦ trivial)
      ⟨id, fun _ ↦ id⟩ fun hi r ↦ ⟨_, rfl, ?_⟩
    subst hi
    exact hsound.ret hcur (hidle (by rw [hpc]; exact id)) (hflag (by rw [hpc]; exact id))
      (hrunning (by rw [hpc]; exact id)) _
  | before i f =>
    refine hsound.issigStep (.before · f) hcur hpc (fun _ _ h ↦ h) (fun _ _ h ↦ h)
      (fun _ ↦ trivial) ⟨id, fun _ ↦ id⟩ fun hi r ↦ ?_
    subst hi
    exact hsound.checked hcur hpc
  | woken f =>
    have hclear : Sound (s.modify p fun q ↦ { q with ssintr := false }) :=
      hsound.calm (hsound.queued.modify_same rfl rfl rfl) (calm_modify s p rfl rfl rfl rfl)
    refine ⟨_, rfl, hclear.goto hcur (fun h ↦ ?_) (fun _ ↦ trivial) (.inl ?_)⟩
    · have hthis := (hold.pending h).1
      rw [hpc] at hthis
      exact hthis
    · rw [modify_self]
      exact hrunning (by rw [hpc]; exact id)
  | timed f =>
    dsimp only
    by_cases hset : (s.proc p).stimo = true
    · rw [if_pos hset]
      have hnot : p ∉ s.callouts := fun h ↦
        absurd ((hold.pending h).2.symm.trans hset) Bool.false_ne_true
      obtain ⟨t, ht⟩ : ∃ t, s.modify p (fun q ↦ { q with stimo := false }) = t := ⟨_, rfl⟩
      have hself : t.proc p = { s.proc p with stimo := false } := by rw [← ht, modify_self]
      have hclear : Sound t := by
        have hstat := hrunning (by rw [hpc]; exact id)
        rw [← ht]
        refine hsound.own (p := p) (hsound.queued.modify_same rfl rfl rfl)
          ⟨fun r hr ↦ ?_, fun r hr ↦ ?_, fun _ _ ↦ rfl, fun _ _ h ↦ h, fun r ↦ ?_⟩ hsound.once
          (fun h ↦ ?_) (fun h ↦ absurd h hnot) (fun h ↦ ?_) (.inr ⟨hcur, ?_, .inl ?_⟩)
        · rw [modify_of_ne hr]
          exact fun _ ↦ ⟨rfl, id⟩
        · rw [modify_of_ne hr]
        · by_cases hrp : r = p
          · rw [hrp, modify_self]
          · rw [modify_of_ne hrp]
        · rw [modify_self] at h
          exact absurd hruns.wchan h
        · rw [modify_self] at h
          cases h
        · rw [modify_self]
          exact hruns.wchan
        · rw [modify_self]
          exact hstat
      have htcur : t.curproc = some p := by
        rw [← ht]
        exact hcur
      have htnot : p ∉ t.callouts := by
        rw [← ht]
        exact hnot
      have htrun : (t.proc p).stat = .srun ∧ t.links.prev (.proc p) = none := by
        rw [hself, ← ht]
        exact hrunning (by rw [hpc]; exact id)
      rw [ht]
      split_ifs
      · exact ⟨_, rfl, hclear.ret htcur htnot (by rw [hself]) htrun _⟩
      · refine ⟨_, rfl, hclear.goto htcur (fun h ↦ absurd h htnot) (fun h ↦ ?_) (.inl htrun)⟩
        rw [hself] at h
        cases h
    · rw [if_neg hset]
      have hrun := hrunning (by rw [hpc]; exact id)
      refine ⟨_, rfl, hsound.goto hcur (fun h ↦ ?_) (fun h ↦ absurd h hset) (.inl hrun)⟩
      have htimo : f.timo = true := by
        have hthis := (hold.pending h).1
        rw [hpc] at hthis
        exact hthis
      rw [if_pos htimo]
      exact htimo
  | cancel f =>
    have hrun := hrunning (by rw [hpc]; exact id)
    have hunset := hflag (by rw [hpc]; exact id)
    have hgone : Sound { s with callouts := s.callouts.erase p } := by
      refine hsound.own (p := p) (hsound.queued.congr rfl rfl rfl rfl rfl)
        ⟨fun _ _ _ ↦ ⟨rfl, id⟩, fun _ _ ↦ rfl, fun _ _ ↦ rfl, fun _ _ h ↦ List.mem_of_mem_erase h,
          fun _ ↦ rfl⟩ (hsound.once.erase p) (fun h ↦ absurd hruns.wchan h)
        (fun h ↦ absurd h hsound.once.not_mem_erase) (fun h ↦ ?_)
        (.inr ⟨hcur, hruns.wchan, hruns.running⟩)
      exact absurd (hunset.symm.trans h) Bool.false_ne_true
    exact ⟨_, rfl, hgone.goto hcur (fun h ↦ absurd h hsound.once.not_mem_erase)
      (fun h ↦ absurd (hunset.symm.trans h) Bool.false_ne_true) (.inl hrun)⟩
  | last f =>
    have hrun := hrunning (by rw [hpc]; exact id)
    have hnot := hidle (by rw [hpc]; exact id)
    have hunset := hflag (by rw [hpc]; exact id)
    dsimp only
    by_cases hcatch : f.pcatch = true
    · rw [if_pos hcatch]
      cases f.sig with
      | some sig => exact ⟨_, rfl, hsound.ret hcur hnot hunset hrun _⟩
      | none =>
        exact ⟨_, rfl, hsound.goto hcur (fun h ↦ absurd h hnot)
          (fun h ↦ absurd (hunset.symm.trans h) Bool.false_ne_true) (.inl hrun)⟩
    · rw [if_neg hcatch]
      exact ⟨_, rfl, hsound.ret hcur hnot hunset hrun _⟩
  | after i f =>
    refine hsound.issigStep (.after · f) hcur hpc (fun _ _ h ↦ h) (fun _ _ h ↦ h)
      (fun _ ↦ trivial) ⟨id, fun _ ↦ id⟩ fun hi r ↦ ⟨_, rfl, ?_⟩
    subst hi
    exact hsound.ret hcur (hidle (by rw [hpc]; exact id)) (hflag (by rw [hpc]; exact id))
      (hrunning (by rw [hpc]; exact id)) _

/-! ### Falling asleep -/

omit [Fintype P] in
theorem elsewhere_modify (s : System P) (p : P) {f : Proc P → Proc P}
    (hpptr : (f (s.proc p)).pptr = (s.proc p).pptr) : Elsewhere p s (s.modify p f) := by
  refine ⟨fun _ hr ↦ ?_, fun _ hr ↦ ?_, fun _ _ ↦ rfl, fun _ _ h ↦ h, fun r ↦ ?_⟩
  · rw [modify_of_ne hr]
    exact fun _ ↦ ⟨rfl, id⟩
  · rw [modify_of_ne hr]
  · by_cases hrp : r = p
    · rw [hrp, modify_self, hpptr]
    · rw [modify_of_ne hrp]

omit [Fintype P] in
theorem elsewhere_goto (s : System P) (p : P) (pc : Pc) : Elsewhere p s (s.goto p pc) :=
  ⟨fun _ _ _ ↦ ⟨rfl, id⟩, fun _ _ ↦ rfl, fun _ hr ↦ update_of_ne hr .., fun _ _ h ↦ h, fun _ ↦ rfl⟩

/-- The process that runs has come to `u` in `tsleep`, which it called in `s`. -/
structure Falling (p : P) (f : Frame) (s u : System P) : Prop where
  queued : Queued u
  elsewhere : Elsewhere p s u
  once : u.callouts.Nodup
  timed : p ∈ u.callouts → f.timo = true
  stimo : (u.proc p).stimo = false
  current : u.curproc = some p
  prev : u.links.prev (.proc p) = none

omit [Fintype P] in
/-- The process leaves the queues and the callouts alone. -/
theorem Falling.modify {f : Frame} {g : Proc P → Proc P} (h : Falling p f s u)
    (hwchan : (g (u.proc p)).wchan = (u.proc p).wchan)
    (hstimo : (g (u.proc p)).stimo = (u.proc p).stimo)
    (hpptr : (g (u.proc p)).pptr = (u.proc p).pptr) : Falling p f s (u.modify p g) :=
  ⟨h.queued.modify hwchan fun hprev ↦ absurd h.prev hprev,
    h.elsewhere.trans (elsewhere_modify u p hpptr), h.once, h.timed,
    by rw [modify_self, hstimo, h.stimo], h.current, h.prev⟩

omit [Fintype P] in
/-- The process goes on where it may be on a sleep queue, or gives up the processor there. -/
theorem Falling.sound {f : Frame} {pc : Pc} {c : Option P} (h : Falling p f s u) (hsound : Sound s)
    (htimed : f.timo = true → pc.Timed) (hexpired : pc.Expired)
    (hwaits : (u.proc p).wchan ≠ 0 → (u.proc p).Waits ∧ pc.Sleeping)
    (hcurrent : c = none ∨ c = some p ∧ (u.proc p).wchan = 0 ∧ (u.proc p).stat = .srun) :
    Sound { u.goto p pc with curproc := c } := by
  have helse := h.elsewhere.trans (elsewhere_goto u p pc)
  have hself : update u.pc p pc p = pc := update_self ..
  refine hsound.own (p := p) (h.queued.congr rfl rfl rfl rfl rfl)
    ⟨helse.wchan, helse.stimo, helse.pc, helse.callouts, helse.pptr⟩ h.once (fun hne ↦ ?_)
    (fun hmem ↦ ?_) (fun _ ↦ ?_) (hcurrent.imp_right fun hcur ↦ ⟨hcur.1, hcur.2.1, .inl ?_⟩)
  · change _ ∧ (update u.pc p pc p).Sleeping
    rw [hself]
    exact hwaits hne
  · change (update u.pc p pc p).Timed ∧ _
    rw [hself]
    exact ⟨htimed (h.timed hmem), h.stimo⟩
  · change (update u.pc p pc p).Expired
    rw [hself]
    exact hexpired
  · exact ⟨hcur.2.2, h.prev⟩

omit [Fintype P] in
/-- The process falls asleep. -/
theorem Falling.asleep {f : Frame} (h : Falling p f s u) (hsound : Sound s) :
    Sound { (u.modify p fun q ↦ { q with stat := .ssleep }).goto p (.woken f) with
      curproc := none } := by
  refine (h.modify (g := fun q ↦ { q with stat := .ssleep }) rfl rfl rfl).sound hsound id trivial
    (fun _ ↦ ⟨.inl ?_, trivial⟩) (.inl rfl)
  rw [modify_self]

/-- `tsleep` after the first `CURSIG`, if that has not stopped the process. -/
theorem Falling.checked {f : Frame} (h : Falling p f s u) (hsound : Sound s)
    (hwchan : (u.proc p).wchan ≠ 0) (sig : Option Sig) :
    ∃ s', u.checked p f sig = .ok s' ∧ Sound s' := by
  cases sig with
  | none =>
    rw [System.checked, if_neg hwchan]
    exact ⟨_, rfl, h.asleep hsound⟩
  | some sig =>
    obtain ⟨t, hrun, hqt, hsame, hprev, hproc⟩ := h.queued.unsleep (p := p)
    have hself : t.proc p = { u.proc p with wchan := 0 } := by rw [hproc, update_self]
    have ht : Falling p f s t := by
      refine ⟨hqt, h.elsewhere.trans ⟨fun r hr ↦ ?_, fun r hr ↦ ?_, fun r _ ↦ congrFun hsame.pc r,
        fun r _ hmem ↦ hsame.callouts ▸ hmem, fun r ↦ ?_⟩, ?_, fun hmem ↦ ?_, ?_, ?_, ?_⟩
      · rw [hproc, update_of_ne hr]
        exact fun _ ↦ ⟨rfl, id⟩
      · rw [hproc, update_of_ne hr]
      · by_cases hrp : r = p
        · rw [hrp, hself]
        · rw [hproc, update_of_ne hrp]
      · rw [hsame.callouts]
        exact h.once
      · rw [hsame.callouts] at hmem
        exact h.timed hmem
      · rw [hself]
        exact h.stimo
      · rw [hsame.curproc]
        exact h.current
      · rw [hprev]
        exact h.prev
    rw [System.checked, hrun, ok_bind]
    refine ⟨_, rfl, (ht.modify (g := fun q ↦ { q with stat := .srun }) rfl rfl rfl).sound hsound
      (fun htimo ↦ htimo) trivial (fun hne ↦ ?_) (.inr ⟨hsame.curproc.trans h.current, ?_, ?_⟩)⟩
    · rw [modify_self, hself] at hne
      exact absurd rfl hne
    · rw [modify_self, hself]
    · rw [modify_self]

/-- The process is stopped in the first `CURSIG` of `tsleep`. -/
theorem Falling.stopped {f : Frame} (h : Falling p f s u) (sig : Sig) (hsound : Sound s)
    (hvfork : (u.proc p).sppwait = false) :
    ∃ v, u.stop p sig = .ok v ∧ Sound { v.goto p (.before (.clear sig) f) with
      curproc := none } := by
  have hpptr : (u.proc p).pptr ≠ p := by
    rw [h.elsewhere.pptr]
    exact (hsound.proc p).parent
  obtain ⟨v, hrun, hqv, hcalm, hstop⟩ := h.queued.stop sig h.prev hpptr fun r hr hne ↦ by
    obtain ⟨heq, hthis⟩ := h.elsewhere.wchan r hr hne
    exact hthis (hsound.waits r (heq ▸ hne))
  have hv : Falling p f s v := by
    refine ⟨hqv, h.elsewhere.trans hcalm.elsewhere, ?_, fun hmem ↦ ?_, ?_, ?_, ?_⟩
    · rw [hcalm.same.callouts]
      exact h.once
    · rw [hcalm.same.callouts] at hmem
      exact h.timed hmem
    · rw [hcalm.stimo]
      exact h.stimo
    · rw [hcalm.same.curproc]
      exact h.current
    · exact hqv.prev_eq_none (.inl (by rw [hstop hvfork]; exact fun heq ↦ by cases heq))
  exact ⟨v, hrun, hv.sound hsound id trivial (fun _ ↦ ⟨.inr (hstop hvfork), trivial⟩) (.inl rfl)⟩

/-- `tsleep`. -/
theorem Sound.tsleep {chan : ℕ} {pri : Fin 128} {pcatch timo : Bool} (hsound : Sound s)
    (hcur : s.curproc = some p) (hpc : s.pc p = .out) (hchan : chan ≠ 0) :
    ∃ s', s.tsleep p chan pri pcatch timo = .ok s' ∧ Sound s' := by
  have hruns := hsound.current p hcur
  have hold := hsound.proc p
  obtain ⟨hstat, hprev⟩ := hruns.running.resolve_right (by rw [hpc]; exact id)
  have hidle : p ∉ s.callouts := fun hmem ↦ by
    have hthis := (hold.pending hmem).1
    rw [hpc] at hthis
    exact hthis
  have hunset : (s.proc p).stimo = false := by
    refine Bool.eq_false_iff.mpr fun hset ↦ ?_
    have hthis := hold.expired hset
    rw [hpc] at hthis
    exact hthis
  obtain ⟨f, hf⟩ : ∃ f : Frame, f = ⟨chan, pcatch, timo, none⟩ := ⟨_, rfl⟩
  obtain ⟨sl, rl, hqueues⟩ := hsound.queued
  obtain ⟨t, henqueue, hqt, hproc, hprevt, hsame⟩ :=
    hqueues.enqueue pri hruns.wchan hchan hprev
  -- The timeout is started.
  obtain ⟨u, hu⟩ : ∃ u, (if timo then { t with callouts := p :: t.callouts } else t) = u := ⟨_, rfl⟩
  have huproc : u.proc = t.proc := by
    rw [← hu]
    split_ifs <;> rfl
  have hself : u.proc p = { s.proc p with wchan := chan, pri := pri } := by
    rw [huproc, hproc, update_self]
  have hcallouts : u.callouts = if timo then p :: s.callouts else s.callouts := by
    rw [← hu, ← hsame.callouts]
    split_ifs <;> rfl
  have hfall : Falling p f s u := by
    refine ⟨?_, ⟨fun r hr ↦ ?_, fun r hr ↦ ?_, fun r _ ↦ ?_, fun r hr hmem ↦ ?_, fun r ↦ ?_⟩, ?_,
      fun hmem ↦ ?_, ?_, ?_, ?_⟩
    · rw [← hu]
      split_ifs
      · exact Queued.congr ⟨_, rl, hqt⟩ rfl rfl rfl rfl rfl
      · exact ⟨_, rl, hqt⟩
    · rw [huproc, hproc, update_of_ne hr]
      exact fun _ ↦ ⟨rfl, id⟩
    · rw [huproc, hproc, update_of_ne hr]
    · rw [← congrFun hsame.pc r, ← hu]
      split_ifs <;> rfl
    · rw [hcallouts] at hmem
      split_ifs at hmem
      · exact (List.mem_cons.mp hmem).resolve_left hr
      · exact hmem
    · by_cases hrp : r = p
      · rw [hrp, hself]
      · rw [huproc, hproc, update_of_ne hrp]
    · rw [hcallouts]
      split_ifs
      · exact List.nodup_cons.mpr ⟨hidle, hsound.once⟩
      · exact hsound.once
    · rw [hcallouts] at hmem
      rw [hf]
      split_ifs at hmem with htimo
      · exact htimo
      · exact absurd hmem hidle
    · rw [hself]
      exact hunset
    · rw [← hcur, ← hsame.curproc, ← hu]
      split_ifs <;> rfl
    · rw [← hprev, ← hprevt, ← hu]
      split_ifs <;> rfl
  rw [System.tsleep, if_neg (by rw [hstat, hprev]; simp [hchan])]
  dsimp only
  rw [henqueue, ok_bind, hu, ← hf]
  by_cases hcatch : pcatch = true
  · rw [if_pos hcatch]
    obtain ⟨v, hv⟩ : ∃ v, u.modify p (fun q ↦ { q with ssintr := true }) = v := ⟨_, rfl⟩
    have hfallv : Falling p f s v := hv ▸ hfall.modify rfl rfl rfl
    have hvwchan : (v.proc p).wchan ≠ 0 := by
      rw [← hv, modify_self, hself]
      exact hchan
    rw [hv]
    obtain ⟨m, -, hrun, hcases⟩ := issigHigh_eq (s := v) (p := p) 33
      (Nat.lt_succ_of_le (List.countP_le_length.trans_eq (List.length_finRange (n := 32))))
    obtain ⟨w, hw⟩ : ∃ w, v.modify p (fun q ↦ { q with sig := m }) = w := ⟨_, rfl⟩
    have hfallw : Falling p f s w := hw ▸ hfallv.modify rfl rfl rfl
    have hwself : w.proc p = { v.proc p with sig := m } := by rw [← hw, modify_self]
    rw [hw] at hrun hcases
    rw [hrun]
    rcases hcases with ⟨r, hdone⟩ | ⟨sig, hvfork, hstopped⟩
    · rw [hdone, ok_bind]
      exact hfallw.checked hsound (by rw [hwself]; exact hvwchan) r
    · obtain ⟨x, hstop, hx⟩ := hfallw.stopped sig hsound (by rw [hwself]; exact hvfork)
      rw [hstopped, hstop]
      exact ⟨_, rfl, hx⟩
  · rw [if_neg hcatch]
    exact ⟨_, rfl, hfall.asleep hsound⟩

end Bsd386.Kern.Sleep
