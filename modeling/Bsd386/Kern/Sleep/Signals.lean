import Bsd386.Kern.Sleep.Wakeup
import Bsd386.Lib.Counting

/-!
# Signals and the queues

`psignal`, `stop` and `issig` move processes between the queues by what wakes a process, so that
they leave the queues in order.
-/

namespace Bsd386.Kern.Sleep

open Function

variable {P : Type} {s s' t : System P} {p : P} {x : P → Prop}

/-- No process comes to sleep or times out, except that one which sleeps may be stopped and
continued. -/
structure Calm (x : P → Prop) (s s' : System P) : Prop where
  same : Same s s'
  runs : ∀ r, ¬x r → (s.proc r).stat = .srun →
    (s'.proc r).stat = .srun ∧ (s'.proc r).wchan = (s.proc r).wchan ∧
      s'.links.prev (.proc r) = s.links.prev (.proc r)
  stimo : ∀ r, (s'.proc r).stimo = (s.proc r).stimo
  pptr : ∀ r, (s'.proc r).pptr = (s.proc r).pptr
  wchan : ∀ r, (s'.proc r).wchan ≠ 0 → (s'.proc r).wchan = (s.proc r).wchan ∧
    ((s.proc r).Waits → (s'.proc r).Waits)

theorem Calm.refl (x : P → Prop) (s : System P) : Calm x s s :=
  ⟨Same.refl s, fun _ _ h ↦ ⟨h, rfl, rfl⟩, fun _ ↦ rfl, fun _ ↦ rfl, fun _ _ ↦ ⟨rfl, id⟩⟩

theorem Calm.trans (h : Calm x s s') (h' : Calm x s' t) : Calm x s t := by
  refine ⟨h.same.trans h'.same, fun r hr hstat ↦ ?_, fun r ↦ (h'.stimo r).trans (h.stimo r),
    fun r ↦ (h'.pptr r).trans (h.pptr r), fun r hr ↦ ?_⟩
  · obtain ⟨hstat₁, hwchan₁, hprev₁⟩ := h.runs r hr hstat
    obtain ⟨hstat₂, hwchan₂, hprev₂⟩ := h'.runs r hr hstat₁
    exact ⟨hstat₂, hwchan₂.trans hwchan₁, hprev₂.trans hprev₁⟩
  obtain ⟨hwchan', hwaits'⟩ := h'.wchan r hr
  obtain ⟨hwchan, hwaits⟩ := h.wchan r (hwchan' ▸ hr)
  exact ⟨hwchan'.trans hwchan, fun h ↦ hwaits' (hwaits h)⟩

/-- All that wait sleep or are stopped, as before. -/
theorem Calm.waits (h : Calm x s s') (hwaits : ∀ r, (s.proc r).wchan ≠ 0 → (s.proc r).Waits) (r : P)
    (hr : (s'.proc r).wchan ≠ 0) : (s'.proc r).Waits := by
  obtain ⟨hwchan, hthis⟩ := h.wchan r hr
  exact hthis (hwaits r (hwchan ▸ hr))

theorem Calm.weaken {y : P → Prop} (h : Calm x s s') (hle : ∀ r, x r → y r) : Calm y s s' :=
  ⟨h.same, fun r hr ↦ h.runs r fun hx ↦ hr (hle r hx), h.stimo, h.pptr, h.wchan⟩

variable [DecidableEq P]

/-- A change of one process. -/
theorem Calm.of_update {q : Proc P} (hsame : Same s s')
    (hruns : ∀ r, ¬x r → (s.proc r).stat = .srun →
      (s'.proc r).stat = .srun ∧ (s'.proc r).wchan = (s.proc r).wchan ∧
        s'.links.prev (.proc r) = s.links.prev (.proc r))
    (hproc : s'.proc = update s.proc p q) (hstimo : q.stimo = (s.proc p).stimo)
    (hpptr : q.pptr = (s.proc p).pptr)
    (hwchan : q.wchan ≠ 0 → q.wchan = (s.proc p).wchan ∧ ((s.proc p).Waits → q.Waits)) :
    Calm x s s' := by
  refine ⟨hsame, hruns, fun r ↦ ?_, fun r ↦ ?_, fun r hr ↦ ?_⟩
  · rw [hproc]
    by_cases hrp : r = p
    · rw [hrp, update_self, hstimo]
    · rw [update_of_ne hrp]
  · rw [hproc]
    by_cases hrp : r = p
    · rw [hrp, update_self, hpptr]
    · rw [update_of_ne hrp]
  · rw [hproc] at hr ⊢
    by_cases hrp : r = p
    · subst hrp
      rw [update_self] at hr ⊢
      exact hwchan hr
    · rw [update_of_ne hrp] at hr ⊢
      exact ⟨rfl, id⟩

/-- A change of what the queues do not depend on. -/
theorem calm_modify (s : System P) (p : P) {f : Proc P → Proc P}
    (hstat : (f (s.proc p)).stat = (s.proc p).stat)
    (hwchan : (f (s.proc p)).wchan = (s.proc p).wchan)
    (hstimo : (f (s.proc p)).stimo = (s.proc p).stimo)
    (hpptr : (f (s.proc p)).pptr = (s.proc p).pptr) : Calm x s (s.modify p f) := by
  refine Calm.of_update (same_modify s p f) (fun r _ hr ↦ ?_) (modify_proc s p f) hstimo hpptr
    fun _ ↦
    ⟨hwchan, fun h ↦ by rwa [Proc.Waits, hstat]⟩
  by_cases hrp : r = p
  · subst hrp
    rw [modify_self, hstat, hwchan]
    exact ⟨hr, rfl, rfl⟩
  · rw [modify_of_ne hrp]
    exact ⟨hr, rfl, rfl⟩

theorem Queued.modify_same {f : Proc P → Proc P} (hq : Queued s)
    (hstat : (f (s.proc p)).stat = (s.proc p).stat)
    (hwchan : (f (s.proc p)).wchan = (s.proc p).wchan)
    (hpri : (f (s.proc p)).pri = (s.proc p).pri) :
    Queued (s.modify p f) := by
  refine hq.modify hwchan fun hprev ↦ ⟨hpri, ?_⟩
  rw [hstat]
  by_contra hne
  exact hprev (hq.prev_eq_none (.inl hne))

variable [Fintype P]

theorem Queued.wakeup_calm (hq : Queued s) (chan : ℕ)
    (hwaits : ∀ r, (s.proc r).wchan ≠ 0 → (s.proc r).Waits) :
    ∃ s', s.wakeup chan = .ok s' ∧ Queued s' ∧ Calm (fun _ ↦ False) s s' ∧
      s'.proc = fun r ↦ (s.proc r).woken chan := by
  obtain ⟨s', hrun, hq', hquiet, hproc⟩ := hq.wakeup chan hwaits
  refine ⟨s', hrun, hq', ⟨hquiet.same, hquiet.runs, fun r ↦ ?_, fun r ↦ ?_, fun r hr ↦ ?_⟩, hproc⟩
  · rw [congrFun hproc r, Proc.woken]
    split_ifs <;> rfl
  · rw [congrFun hproc r, Proc.woken]
    split_ifs <;> rfl
  · rw [congrFun hproc r, Proc.woken] at hr ⊢
    by_cases hchan : (s.proc r).wchan = chan ∧ chan ≠ 0
    · rw [if_pos hchan] at hr
      exact absurd rfl hr
    · rw [if_neg hchan]
      exact ⟨rfl, id⟩

theorem Queued.setrun_calm (hq : Queued s)
    (hstat : (s.proc p).Waits ∨ (s.proc p).stat = .sidl ∧ (s.proc p).wchan = 0) :
    ∃ s', s.setrun p = .ok s' ∧ Queued s' ∧ Calm (fun _ ↦ False) s s' ∧
      s'.proc = update s.proc p { s.proc p with stat := .srun, wchan := 0 } := by
  obtain ⟨s', hrun, hq', hquiet, hproc⟩ := hq.setrun hstat
  exact ⟨s', hrun, hq',
    Calm.of_update hquiet.same hquiet.runs hproc rfl rfl fun h ↦ absurd rfl h, hproc⟩

theorem Queued.unsleep_calm (hq : Queued s)
    (hstat : (s.proc p).stat ≠ .srun ∨ (s.proc p).wchan = 0) :
    ∃ s', s.unsleep p = .ok s' ∧ Queued s' ∧ Calm (fun _ ↦ False) s s' ∧
      s'.proc = update s.proc p { s.proc p with wchan := 0 } := by
  obtain ⟨s', hrun, hq', hquiet, hproc⟩ := hq.unsleep_quiet hstat
  exact ⟨s', hrun, hq',
    Calm.of_update hquiet.same hquiet.runs hproc rfl rfl fun h ↦ absurd rfl h, hproc⟩

/-- `psignal` from `runfast` on. -/
theorem Queued.runfast (hq : Queued s) (hstat : (s.proc p).Waits) :
    ∃ s', s.runfast p = .ok s' ∧ Queued s' ∧ Calm (fun _ ↦ False) s s' ∧
      s'.proc = update s.proc p
        { s.proc p with pri := min (s.proc p).pri puser, stat := .srun, wchan := 0 } := by
  have hprev : s.links.prev (.proc p) = none := by
    refine hq.prev_eq_none (.inl ?_)
    rcases hstat with h | h <;> rw [h] <;> exact fun heq ↦ by cases heq
  have hq₁ : Queued (s.modify p fun q ↦ { q with pri := min q.pri puser }) :=
    hq.modify rfl fun h ↦ absurd hprev h
  have hcalm : Calm (fun _ ↦ False) s (s.modify p fun q ↦ { q with pri := min q.pri puser }) :=
    calm_modify s p rfl rfl rfl rfl
  obtain ⟨s', hrun, hq', hcalm', hproc⟩ := hq₁.setrun_calm (p := p) (.inl (by
    rw [Proc.Waits, modify_self]
    exact hstat))
  refine ⟨s', hrun, hq', hcalm.trans hcalm', ?_⟩
  rw [hproc, modify_proc, update_self, update_idem]

/-! ### Posting a signal -/

/-- The pending signals when a signal has been posted. -/
def Proc.post (q : Proc P) (sig : Sig) : Sigset :=
  let pending := if sig.has saCont then q.sig.without stopsigmask else q.sig
  update (if sig.has saStop then pending.without contsigmask else pending) sig true

/-- `p_nice` for a signal. -/
def Proc.renice (q : Proc P) (sig : Sig) : ℤ :=
  if 0 < q.nice ∧ (sig = sigkill ∨ sig = sigterm ∧ q.reaction sig = .sigDfl) then 0 else q.nice

/-- The process with a signal posted. -/
def Proc.posted (q : Proc P) (sig : Sig) : Proc P :=
  { q with nice := q.renice sig, sig := q.post sig }

/-- The signal is discarded, since the process group is orphaned. -/
def System.Orphaned (s : System P) (p : P) (sig : Sig) : Prop :=
  sig.has saStop ∧ sig.has saTtystop ∧ s.jobc (s.proc p).pgrp = 0 ∧
  (s.proc p).reaction sig = .sigDfl

instance (s : System P) (p : P) (sig : Sig) : Decidable (s.Orphaned p sig) :=
  inferInstanceAs (Decidable (_ ∧ _ ∧ _ ∧ _))

omit [Fintype P] in
theorem modify_modify (s : System P) (p : P) (f g : Proc P → Proc P) :
    (s.modify p f).modify p g = s.modify p fun q ↦ g (f q) := by
  rw [System.modify, System.modify, System.modify]
  dsimp only
  rw [update_self, update_idem]

omit [Fintype P] in
theorem modify_eq_self (s : System P) (p : P) {f : Proc P → Proc P} (h : f (s.proc p) = s.proc p) :
    s.modify p f = s := by
  rw [System.modify, h, update_eq_self]

/-- What `psignal` does before the `switch`. -/
theorem psignalWith_eq (stop : P → Sig → System P → Except Fault (System P)) (sig : Sig) :
    System.psignalWith stop p sig s =
      if sig = nosig then .error (.panic "psignal sig")
      else if (s.proc p).sigignore sig then .ok s
      else if s.Orphaned p sig then
        .ok (s.modify p fun q ↦ { q with
          nice := q.renice sig
          sig := if sig.has saCont then q.sig.without stopsigmask else q.sig })
      else if (s.proc p).reaction sig = .sigHold ∧
          (sig.has saCont = false ∨ (s.proc p).stat ≠ .sstop) then
        .ok (s.modify p fun q ↦ q.posted sig)
      else System.react stop p sig ((s.proc p).reaction sig) (s.modify p fun q ↦ q.posted sig) := by
  -- The two conditional changes of the process are one.
  have hfirst : (if 0 < (s.proc p).nice ∧ (sig = sigkill ∨
      sig = sigterm ∧ (s.proc p).reaction sig = .sigDfl) then
      s.modify p fun q ↦ { q with nice := 0 } else s) =
      s.modify p fun q ↦ { q with nice := (s.proc p).renice sig } := by
    rw [Proc.renice]
    split_ifs with hnice
    · rfl
    · exact (modify_eq_self s p rfl).symm
  obtain ⟨u, hu⟩ : ∃ u, s.modify p (fun q ↦ { q with nice := (s.proc p).renice sig }) = u :=
    ⟨_, rfl⟩
  have hsecond : (if sig.has saCont then
        u.modify p fun q ↦ { q with sig := q.sig.without stopsigmask } else u) =
      s.modify p fun q ↦ { q with
        nice := (s.proc p).renice sig
        sig := if sig.has saCont then q.sig.without stopsigmask else q.sig } := by
    split_ifs with hcont
    · rw [← hu, modify_modify]
    · exact hu.symm
  obtain ⟨v, hv⟩ : ∃ v, s.modify p (fun q ↦ { q with
        nice := (s.proc p).renice sig
        sig := if sig.has saCont then q.sig.without stopsigmask else q.sig }) = v := ⟨_, rfl⟩
  have hthird : (if sig.has saStop then
        v.modify p fun q ↦ { q with sig := q.sig.without contsigmask } else v).modify p
        (fun q ↦ { q with sig := update q.sig sig true }) =
      s.modify p fun q ↦ q.posted sig := by
    split_ifs with hstop
    · rw [← hv, modify_modify, modify_modify, System.modify, System.modify]
      dsimp only [Proc.posted, Proc.post]
      rw [if_pos hstop]
    · rw [← hv, modify_modify, System.modify, System.modify]
      dsimp only [Proc.posted, Proc.post]
      rw [if_neg hstop]
  have hpgrp : (v.proc p).pgrp = (s.proc p).pgrp ∧ v.jobc = s.jobc := by
    rw [← hv, modify_self]
    exact ⟨rfl, rfl⟩
  have hstat : ((s.modify p fun q ↦ q.posted sig).proc p).stat = (s.proc p).stat := by
    rw [modify_self]
    rfl
  have hmod : s.modify p (fun q ↦ { q with
        nice := q.renice sig
        sig := if sig.has saCont then q.sig.without stopsigmask else q.sig }) = v := by
    rw [← hv]
    rfl
  rw [System.psignalWith, hmod]
  dsimp only
  rw [hfirst, hu, hsecond, hv, hthird, hstat, hpgrp.1, hpgrp.2]
  rfl

/-- Only one process changes. -/
def Others (p : P) (s s' : System P) : Prop := ∀ r, r ≠ p → s'.proc r = s.proc r

omit [DecidableEq P] [Fintype P] in
theorem Others.refl (p : P) (s : System P) : Others p s s := fun _ _ ↦ rfl

omit [Fintype P] in
theorem Others.of_update {q : Proc P} (hproc : s'.proc = update s.proc p q) : Others p s s' :=
  fun r hr ↦ by rw [hproc, update_of_ne hr]

omit [DecidableEq P] [Fintype P] in
theorem Others.trans (h : Others p s s') (h' : Others p s' t) : Others p s t :=
  fun r hr ↦ (h' r hr).trans (h r hr)

/-- The `switch` of `psignal`. -/
theorem Queued.react (hq : Queued s) (stop : P → Sig → System P → Except Fault (System P))
    (sig : Sig)
    (action : Reaction)
    (hstop : sig.has saStop = true → (s.proc p).stat = .ssleep →
      ∃ s', stop p sig (s.clear p sig) = .ok s' ∧ Queued s' ∧
      Calm (fun _ ↦ False) (s.clear p sig) s') :
    ∃ s', System.react stop p sig action s = .ok s' ∧ Queued s' ∧ Calm (fun _ ↦ False) s s' ∧
      (sig.has saStop = false → Others p s s') := by
  have hsame : ∃ s', (Except.ok s : Except Fault (System P)) = .ok s' ∧ Queued s' ∧
    Calm (fun _ ↦ False) s s' ∧
      (sig.has saStop = false → Others p s s') :=
    ⟨s, rfl, hq, Calm.refl _ s, fun _ ↦ Others.refl p s⟩
  have hclear : Queued (s.clear p sig) ∧ Calm (fun _ ↦ False) s (s.clear p sig) ∧
      (sig.has saStop = false → Others p s (s.clear p sig)) :=
    ⟨hq.modify_same rfl rfl rfl, calm_modify s p rfl rfl rfl rfl,
    fun _ ↦ .of_update (modify_proc s p _)⟩
  have hfast : ∀ t, Queued t → Calm (fun _ ↦ False) s t → (sig.has saStop = false → Others p s t) →
      (t.proc p).Waits → ∃ s', t.runfast p = .ok s' ∧ Queued s' ∧ Calm (fun _ ↦ False) s s' ∧
        (sig.has saStop = false → Others p s s') := by
    intro t hqt hcalmt hother hwaits
    obtain ⟨s', hrun, hq', hcalm, hproc⟩ := hqt.runfast hwaits
    exact ⟨s', hrun, hq', hcalmt.trans hcalm, fun h ↦ (hother h).trans (.of_update hproc)⟩
  rw [System.react]
  cases hstat : (s.proc p).stat with
  | ssleep =>
    dsimp only
    by_cases hintr : (s.proc p).ssintr = false
    · rw [if_pos hintr]
      exact hsame
    rw [if_neg hintr]
    by_cases hcont : sig.has saCont = true ∧ action = .sigDfl
    · rw [if_pos hcont]
      exact ⟨_, rfl, hclear⟩
    rw [if_neg hcont]
    by_cases hstopped : sig.has saStop = true ∧ action = .sigDfl
    · rw [if_pos hstopped]
      obtain ⟨s', hrun, hq', hcalm⟩ := hstop hstopped.1 hstat
      exact ⟨s', hrun, hq', hclear.2.1.trans hcalm, fun h ↦
        absurd (h.symm.trans hstopped.1) Bool.false_ne_true⟩
    · rw [if_neg hstopped]
      exact hfast s hq (Calm.refl _ s) (fun _ ↦ Others.refl p s) (.inl hstat)
  | sstop =>
    dsimp only
    by_cases hkill : sig = sigkill
    · rw [if_pos hkill]
      exact hfast s hq (Calm.refl _ s) (fun _ ↦ Others.refl p s) (.inr hstat)
    rw [if_neg hkill]
    by_cases hcont : sig.has saCont = true
    · rw [if_pos hcont]
      obtain ⟨t, ht, hqt, hcalmt, hother, htstat⟩ : ∃ t,
          (if action = .sigDfl then s.clear p sig else s) = t ∧ Queued t ∧
          Calm (fun _ ↦ False) s t ∧
          (sig.has saStop = false → Others p s t) ∧ (t.proc p).stat = .sstop := by
        by_cases hdfl : action = .sigDfl
        · rw [if_pos hdfl]
          refine ⟨_, rfl, hclear.1, hclear.2.1, hclear.2.2, ?_⟩
          rw [System.clear, modify_self]
          exact hstat
        · rw [if_neg hdfl]
          exact ⟨s, rfl, hq, Calm.refl _ s, fun _ ↦ Others.refl p s, hstat⟩
      rw [ht]
      by_cases hcaught : action = .sigCatch
      · rw [if_pos hcaught]
        exact hfast t hqt hcalmt hother (.inr htstat)
      rw [if_neg hcaught]
      by_cases hzero : (t.proc p).wchan = 0
      · rw [if_pos hzero]
        obtain ⟨s', hrun, hq', hcalm, hproc⟩ := hqt.setrun_calm (p := p) (.inl (.inr htstat))
        exact ⟨s', hrun, hq', hcalmt.trans hcalm, fun h ↦ (hother h).trans (.of_update hproc)⟩
      · rw [if_neg hzero]
        have hprev : t.links.prev (.proc p) = none := hqt.prev_eq_none (.inr hzero)
        refine ⟨_, rfl, hqt.modify rfl fun h ↦ absurd hprev h, hcalmt.trans ?_, fun h ↦
          (hother h).trans (.of_update (modify_proc t p _))⟩
        refine Calm.of_update (same_modify t p _) (fun r _ hr ↦ ?_) (modify_proc t p _) rfl rfl
          fun _ ↦
          ⟨rfl, fun _ ↦ .inl rfl⟩
        have hrp : r ≠ p := fun heq ↦ by
          rw [heq, htstat] at hr
          cases hr
        rw [modify_of_ne hrp]
        exact ⟨hr, rfl, rfl⟩
    rw [if_neg hcont]
    by_cases hstopped : sig.has saStop = true
    · rw [if_pos hstopped]
      exact ⟨_, rfl, hclear⟩
    rw [if_neg hstopped]
    by_cases hintr : (s.proc p).wchan ≠ 0 ∧ (s.proc p).ssintr = true
    · rw [if_pos hintr]
      obtain ⟨s', hrun, hq', hcalm, hproc⟩ := hq.unsleep_calm (p := p)
        (.inl (by rw [hstat]; exact fun h ↦ by cases h))
      exact ⟨s', hrun, hq', hcalm, fun _ ↦ .of_update hproc⟩
    · rw [if_neg hintr]
      exact hsame
  | srun => exact hsame
  | sidl => exact hsame
  | szomb => exact hsame

/-- `psignal`, given what stops a process. -/
theorem Queued.psignalWith {sig : Sig} (hq : Queued s)
    (stop : P → Sig → System P → Except Fault (System P)) (hsig : sig ≠ nosig)
    (hstop : ∀ t, Queued t → Calm (fun _ ↦ False) s t → sig.has saStop = true →
      (t.proc p).stat = .ssleep → ∃ s', stop p sig t = .ok s' ∧ Queued s' ∧
      Calm (fun _ ↦ False) t s') :
    ∃ s', System.psignalWith stop p sig s = .ok s' ∧ Queued s' ∧ Calm (fun _ ↦ False) s s' ∧
      (sig.has saStop = false → Others p s s') := by
  rw [psignalWith_eq, if_neg hsig]
  have hposted : Queued (s.modify p fun q ↦ q.posted sig) ∧
      Calm (fun _ ↦ False) s (s.modify p fun q ↦ q.posted sig) ∧
      (sig.has saStop = false → Others p s (s.modify p fun q ↦ q.posted sig)) :=
    ⟨hq.modify_same rfl rfl rfl, calm_modify s p rfl rfl rfl rfl,
    fun _ ↦ .of_update (modify_proc s p _)⟩
  by_cases hignore : (s.proc p).sigignore sig = true
  · rw [if_pos hignore]
    exact ⟨s, rfl, hq, Calm.refl _ s, fun _ ↦ Others.refl p s⟩
  rw [if_neg hignore]
  by_cases horphan : s.Orphaned p sig
  · rw [if_pos horphan]
    exact ⟨_, rfl, hq.modify_same rfl rfl rfl, calm_modify s p rfl rfl rfl rfl,
      fun _ ↦ .of_update (modify_proc s p _)⟩
  rw [if_neg horphan]
  by_cases hhold : (s.proc p).reaction sig = .sigHold ∧
      (sig.has saCont = false ∨ (s.proc p).stat ≠ .sstop)
  · rw [if_pos hhold]
    exact ⟨_, rfl, hposted⟩
  rw [if_neg hhold]
  obtain ⟨t, ht⟩ : ∃ t, s.modify p (fun q ↦ q.posted sig) = t := ⟨_, rfl⟩
  rw [ht] at hposted ⊢
  obtain ⟨s', hrun, hq', hcalm, hother⟩ := hposted.1.react (p := p) stop sig
    ((s.proc p).reaction sig) fun hhas hsleep ↦ by
      refine hstop (t.clear p sig) (hposted.1.modify_same rfl rfl rfl)
        (hposted.2.1.trans (calm_modify t p rfl rfl rfl rfl)) hhas ?_
      rw [System.clear, modify_self]
      exact hsleep
  exact ⟨s', hrun, hq', hposted.2.1.trans hcalm, fun h ↦ (hposted.2.2 h).trans (hother h)⟩

/-- A signal that is no stop signal. -/
theorem Queued.psignalWith_of_not_stop {stop : P → Sig → System P → Except Fault (System P)}
    {sig : Sig}
    (hq : Queued s) (hsig : sig ≠ nosig) (hstop : sig.has saStop = false) :
    ∃ s', System.psignalWith stop p sig s = .ok s' ∧ Queued s' ∧ Calm (fun _ ↦ False) s s' ∧
      Others p s s' := by
  obtain ⟨s', hrun, hq', hcalm, hother⟩ := hq.psignalWith (p := p) stop hsig
    fun _ _ _ hhas ↦ absurd (hstop.symm.trans hhas) Bool.false_ne_true
  exact ⟨s', hrun, hq', hcalm, hother hstop⟩

omit [DecidableEq P] [Fintype P] in
/-- A process that is on no run queue and that the step leaves alone is still on none. -/
theorem prev_eq_none_of_calm (hq' : Queued s') (hcalm : Calm (fun _ ↦ False) s s')
    (hsame : s'.proc p = s.proc p) (hprev : s.links.prev (.proc p) = none) :
    s'.links.prev (.proc p) = none := by
  by_cases hstat : (s.proc p).stat = .srun
  · rw [(hcalm.runs p id hstat).2.2, hprev]
  · exact hq'.prev_eq_none (.inl (by rwa [hsame]))

/-- `stop` of a process, which may run. -/
theorem Queued.stop (hq : Queued s) (sig : Sig) (hprev : s.links.prev (.proc p) = none)
    (hpptr : (s.proc p).pptr ≠ p) (hwaits : ∀ r, r ≠ p → (s.proc r).wchan ≠ 0 → (s.proc r).Waits) :
    ∃ s', s.stop p sig = .ok s' ∧ Queued s' ∧ Calm (· = p) s s' ∧
      ((s.proc p).sppwait = false → (s'.proc p).stat = .sstop) := by
  rw [System.stop]
  by_cases hvfork : (s.proc p).sppwait = true
  · rw [if_pos hvfork]
    exact ⟨s, rfl, hq, Calm.refl _ s, fun h ↦ absurd (h.symm.trans hvfork) Bool.false_ne_true⟩
  rw [if_neg hvfork]
  -- The parent is told.
  obtain ⟨t, ht, hqt, hcalmt, hother⟩ : ∃ t, s.signalParent p = .ok t ∧
      Queued t ∧ Calm (fun _ ↦ False) s t ∧ Others (s.proc p).pptr s t := by
    rw [System.signalParent]
    split_ifs
    · exact ⟨s, rfl, hq, Calm.refl _ s, Others.refl _ s⟩
    · exact hq.psignalWith_of_not_stop (by decide) (by decide)
  have hself : t.proc p = s.proc p := hother p hpptr.symm
  have hprevt := prev_eq_none_of_calm hqt hcalmt hself hprev
  -- The process stops.
  obtain ⟨u, hu⟩ : ∃ u, t.modify p (fun q ↦ { q with stat := .sstop }) = u := ⟨_, rfl⟩
  have hqu : Queued u := hu ▸ hqt.modify rfl fun h ↦ absurd hprevt h
  have hcalmu : Calm (· = p) t u := by
    rw [← hu]
    refine Calm.of_update (same_modify t p _) (fun r hr hrstat ↦ ?_) (modify_proc t p _) rfl rfl
      fun _ ↦
      ⟨rfl, fun _ ↦ .inr rfl⟩
    rw [modify_of_ne hr]
    exact ⟨hrstat, rfl, rfl⟩
  have hustat : (u.proc p).stat = .sstop := by
    rw [← hu, modify_self]
  have hwaitsu : ∀ r, (u.proc r).wchan ≠ 0 → (u.proc r).Waits := by
    intro r hr
    by_cases hrp : r = p
    · exact .inr (hrp ▸ hustat)
    · have hsame : u.proc r = t.proc r := by rw [← hu, modify_of_ne hrp]
      rw [hsame] at hr ⊢
      obtain ⟨hwchan, hthis⟩ := hcalmt.wchan r hr
      exact hthis (hwaits r hrp (hwchan ▸ hr))
  -- The parent is woken.
  obtain ⟨v, hv, hqv, hcalmv, hproc⟩ := hqu.wakeup_calm (u.addr (u.proc p).pptr) hwaitsu
  refine ⟨v.modify p fun q ↦ { q with stopsig := sig }, ?_, hqv.modify_same rfl rfl rfl, ?_,
    fun _ ↦ ?_⟩
  · rw [ht, ok_bind]
    dsimp only
    rw [hu, hv]
    rfl
  · exact ((hcalmt.weaken fun _ h ↦ h.elim).trans hcalmu).trans
      ((hcalmv.weaken fun _ h ↦ h.elim).trans (calm_modify v p rfl rfl rfl rfl))
  · rw [modify_self]
    change (v.proc p).stat = .sstop
    rw [congrFun hproc p, Proc.woken]
    split_ifs with hchan hsleep
    · rw [hustat] at hsleep
      cases hsleep
    · exact hustat
    · exact hustat

/-- `psignal`. -/
theorem Queued.psignal {sig : Sig} (hq : Queued s) (hsig : sig ≠ nosig)
    (hpptr : (s.proc p).pptr ≠ p)
    (hwaits : ∀ r, (s.proc r).wchan ≠ 0 → (s.proc r).Waits) :
    ∃ s', s.psignal p sig = .ok s' ∧ Queued s' ∧ Calm (fun _ ↦ False) s s' := by
  obtain ⟨s', hrun, hq', hcalm, -⟩ := hq.psignalWith (p := p) System.stop hsig
    fun t hqt hcalmt _ hsleep ↦ by
      have hne : (t.proc p).stat ≠ .srun := by
        rw [hsleep]
        exact fun h ↦ by cases h
      obtain ⟨u, hrun, hqu, hcalmu, -⟩ := hqt.stop sig (hqt.prev_eq_none (.inl hne))
        (by rw [hcalmt.pptr]; exact hpptr) fun r _ ↦ hcalmt.waits hwaits r
      refine ⟨u, hrun, hqu, ⟨hcalmu.same, fun r _ hr ↦ hcalmu.runs r ?_ hr, hcalmu.stimo,
        hcalmu.pptr,
        hcalmu.wchan⟩⟩
      exact fun heq ↦ hne (heq ▸ hr)
  exact ⟨s', hrun, hq', hcalm⟩

/-! ### The loop of `issig` -/

/-- A turn of the loop takes a pending signal, returns, or stops the process. -/
theorem issigTurn_cases (p : P) (s : System P) :
    (∃ sig, (s.proc p).sig sig = true ∧ s.issigTurn p = .ok (.again, s.clear p sig)) ∨
      (∃ r, s.issigTurn p = .ok (.done r, s)) ∨
      ∃ sig, (s.proc p).sppwait = false ∧
        s.issigTurn p = (do return (.stopped sig, ← s.stop p sig)) := by
  rw [System.issigTurn]
  cases hffs : ffs (s.proc p).mask with
  | none => exact .inr (.inl ⟨none, rfl⟩)
  | some sig =>
    have hpending : (s.proc p).sig sig = true := by
      have hmask := List.find?_some hffs
      rw [Proc.mask] at hmask
      have hthis : ((s.proc p).sig.without (s.proc p).sigmask) sig = true := by
        split_ifs at hmask
        · exact (Bool.and_eq_true_iff.mp hmask).1
        · exact hmask
      exact (Bool.and_eq_true_iff.mp hthis).1
    have hagain : ∀ x, x = Except.ok (System.Turn.again, s.clear p sig) →
        (∃ sig, (s.proc p).sig sig = true ∧ x = .ok (.again, s.clear p sig)) ∨
          (∃ r, x = .ok (.done r, s)) ∨
          ∃ sig, (s.proc p).sppwait = false ∧ x = (do return (.stopped sig, ← s.stop p sig)) :=
      fun x hx ↦ .inl ⟨sig, hpending, hx⟩
    dsimp only
    by_cases hignore : (s.proc p).sigignore sig = true
    · rw [if_pos hignore]
      exact hagain _ rfl
    rw [if_neg hignore]
    cases (s.proc p).sigact sig with
    | sigIgn => exact hagain _ rfl
    | handler => exact .inr (.inl ⟨some sig, rfl⟩)
    | sigDfl =>
      dsimp only
      split_ifs with hsys hstop horphan hvfork
      · exact hagain _ rfl
      · exact hagain _ rfl
      · exact hagain _ rfl
      · exact .inr (.inr ⟨sig, Bool.eq_false_iff.mpr hvfork, rfl⟩)
      · exact hagain _ rfl
      · exact .inr (.inl ⟨some sig, rfl⟩)

omit [Fintype P] in
theorem clear_pending (s : System P) (p : P) (sig : Sig) :
    ((s.clear p sig).proc p).sig = update (s.proc p).sig sig false := by
  rw [System.clear, modify_self]

/-- `issig` with interrupts blocked comes to an end, which is the last turn of the loop. Before it
the process has lost pending signals and nothing else. -/
theorem issigHigh_eq (fuel : ℕ)
    (hfuel : (List.finRange 32).countP (s.proc p).sig < fuel) :
    ∃ m : Sigset, (∀ sig, m sig = true → (s.proc p).sig sig = true) ∧
      s.issigHigh p fuel = (s.modify p fun q ↦ { q with sig := m }).issigTurn p ∧
      ((∃ r, (s.modify p fun q ↦ { q with sig := m }).issigTurn p =
          .ok (.done r, s.modify p fun q ↦ { q with sig := m })) ∨
        ∃ sig, (s.proc p).sppwait = false ∧
          (s.modify p fun q ↦ { q with sig := m }).issigTurn p =
            (do return (.stopped sig, ← (s.modify p fun q ↦ { q with sig := m }).stop p sig))) := by
  induction fuel generalizing s with
  | zero => exact absurd hfuel (Nat.not_lt_zero _)
  | succ fuel ih =>
    rw [System.issigHigh]
    have hid : (s.modify p fun q ↦ { q with sig := (s.proc p).sig }) = s := modify_eq_self s p rfl
    rcases issigTurn_cases p s with ⟨sig, hpending, hturn⟩ | ⟨r, hturn⟩ | ⟨sig, hvfork, hturn⟩
    · have hless : (List.finRange 32).countP ((s.clear p sig).proc p).sig <
          (List.finRange 32).countP (s.proc p).sig := by
        rw [clear_pending]
        have hcount := countP_update (List.nodup_finRange 32) (p := (s.proc p).sig)
          (List.mem_finRange sig) false
        rw [hpending] at hcount
        simp only [Bool.toNat_true, Bool.toNat_false] at hcount
        omega
      obtain ⟨m, hm, hrun, hcases⟩ := ih (s := s.clear p sig) (by omega)
      have hsame : (s.clear p sig).modify p (fun q ↦ { q with sig := m }) =
          s.modify p fun q ↦ { q with sig := m } := by
        rw [System.clear, modify_modify]
      rw [hsame] at hrun hcases
      refine ⟨m, fun k hk ↦ ?_, ?_, ?_⟩
      · have hthis := hm k hk
        rw [clear_pending] at hthis
        by_cases hks : k = sig
        · rw [hks]
          exact hpending
        · rwa [update_of_ne hks] at hthis
      · rw [hturn]
        exact hrun
      · rw [System.clear, modify_self] at hcases
        exact hcases
    · refine ⟨(s.proc p).sig, fun _ h ↦ h, ?_, ?_⟩
      · rw [hid, hturn]
        rfl
      · rw [hid]
        exact .inl ⟨r, hturn⟩
    · refine ⟨(s.proc p).sig, fun _ h ↦ h, ?_, ?_⟩
      · rw [hid, hturn]
        cases s.stop p sig <;> rfl
      · rw [hid]
        exact .inr ⟨sig, hvfork, hturn⟩

end Bsd386.Kern.Sleep
