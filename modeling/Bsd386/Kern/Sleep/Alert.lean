import Bsd386.Kern.Sleep.Tame

/-!
# Signals wake those that sleep

In every run in which no process is put back to sleep by `SIGCONT` with another signal to be
delivered, no process sleeps where signals interrupt it and has one.
-/

namespace Bsd386.Kern.Sleep

open Function

variable {P : Type} {s s' t : System P} {p : P} {sig : Sig} {heeding : Prop}

/-- The flag `SSINTR` may be set. -/
def Pc.Intr : Pc → Prop
  | .before _ _ | .woken _ => True
  | _ => False

/-- The channel that `tsleep` was called with. -/
def Pc.chan : Pc → ℕ
  | .before _ f | .woken f => f.chan
  | _ => 0

/-- What holds of the signals of a process, and what holds of one that sleeps where no process is
overlooked. -/
structure Alert (heeding : Prop) (s : System P) (p : P) : Prop where
  sleeper : heeding → (s.proc p).stat = .ssleep → (s.proc p).ssintr = true →
    ∀ sig, ¬(s.proc p).Deliverable sig
  exclusive : (s.proc p).Exclusive
  intr : (s.proc p).ssintr = true → (s.pc p).Intr
  chan : (s.proc p).wchan ≠ 0 → (s.proc p).wchan = (s.pc p).chan
  cont : (s.proc p).sigignore sigcont = true → (s.proc p).swexit = true
  exits : (s.proc p).swexit = true →
    (∀ sig, (s.proc p).sigignore sig = true) ∧ (s.proc p).stat ≠ .sstop

/-- `SIGCONT` would put the process back to sleep with another signal to be delivered, which was
pending before it was stopped. -/
def System.Overlooked (s : System P) (p : P) : Prop :=
  (s.proc p).stat = .sstop ∧ (s.proc p).wchan ≠ 0 ∧ (s.proc p).ssintr = true ∧
    (s.proc p).reaction sigcont ≠ .sigCatch ∧
    ∃ sig, (s.proc p).Deliverable sig ∧ sig ≠ sigcont ∧ stopsigmask sig = false

/-- No process is continued so. -/
def Event.Heeding (s : System P) (e : Event P) : Prop :=
  ∀ p, e = .psignal p sigcont → ¬s.Overlooked p

theorem Initial.alert (hinit : Initial s) (p : P) : Alert heeding s p := by
  obtain ⟨hnone, hcont, hexit⟩ := hinit.signals p
  obtain ⟨hzero, -, hintr, -⟩ := hinit.proc p
  refine ⟨fun _ _ h ↦ ?_, fun sig _ hsig ↦ ?_, fun h ↦ ?_, fun h ↦ absurd hzero h, fun h ↦ ?_,
    fun h ↦ ?_⟩
  · exact absurd (hintr.symm.trans h) Bool.false_ne_true
  · exact absurd ((hnone sig).symm.trans hsig) Bool.false_ne_true
  · exact absurd (hintr.symm.trans h) Bool.false_ne_true
  · exact absurd (hcont.symm.trans h) Bool.false_ne_true
  · exact absurd (hexit.symm.trans h) Bool.false_ne_true

/-- What the state and the channel of a process matter for is not what its signals are. -/
theorem Alert.mild (h : Alert heeding s p) (hmild : (s.proc p).Mild (s'.proc p))
    (hpcintr : (s.pc p).Intr → (s'.pc p).Intr)
    (hpcchan : (s'.proc p).wchan ≠ 0 → (s'.pc p).chan = (s.pc p).chan)
    (hsleeper : heeding → (s'.proc p).stat = .ssleep → (s'.proc p).ssintr = true →
      ∀ sig, ¬(s'.proc p).Deliverable sig) : Alert heeding s' p := by
  refine ⟨hsleeper, hmild.exclusive h.exclusive, fun hintr ↦ ?_, fun hwchan ↦ ?_, fun hcont ↦ ?_,
    fun hexit ↦ ?_⟩
  · exact hpcintr (h.intr (hmild.ssintr ▸ hintr))
  · rw [hpcchan hwchan, hmild.wchan hwchan]
    exact h.chan (hmild.wchan hwchan ▸ hwchan)
  · rw [hmild.swexit]
    exact h.cont (hmild.sigignore ▸ hcont)
  · rw [hmild.swexit] at hexit
    obtain ⟨hall, hstat⟩ := h.exits hexit
    refine ⟨fun sig ↦ hmild.sigignore ▸ hall sig, fun hstop ↦ ?_⟩
    rcases hmild.stopped hstop with hold | ⟨sig, hsig⟩
    · exact hstat hold
    · exact absurd (hsig.symm.trans (hall sig)) Bool.false_ne_true

theorem Alert.tame (h : Alert heeding s p) (htame : (s.proc p).Tame (s'.proc p))
    (hpc : s'.pc p = s.pc p) :
    Alert heeding s' p := by
  refine h.mild htame.toMild (fun h ↦ hpc ▸ h) (fun _ ↦ by rw [hpc]) fun hyes hstat hintr sig hsig ↦
    ?_
  obtain ⟨hsleep, hdeliver⟩ := htame.asleep hstat hintr
  exact h.sleeper hyes hsleep (htame.ssintr ▸ hintr) sig (hdeliver sig hsig)

/-- It does not matter who runs. -/
theorem Alert.congr (h : Alert heeding s p) (hproc : s'.proc p = s.proc p)
    (hpc : s'.pc p = s.pc p) : Alert heeding s' p :=
  h.tame (hproc ▸ Proc.Tame.refl (s.proc p)) hpc

variable [DecidableEq P]

/-- A step of one process, after which its own signals are as they should be. -/
theorem alert_own (halert : ∀ r, Alert heeding s r) (hothers : Others p s s')
    (hpc : ∀ r, r ≠ p → s'.pc r = s.pc r) (hself : Alert heeding s' p) (r : P) :
    Alert heeding s' r := by
  by_cases hrp : r = p
  · exact hrp ▸ hself
  · exact (halert r).congr (hothers r hrp) (hpc r hrp)

/-- A process goes on elsewhere. -/
theorem Alert.goto (h : Alert heeding s p) (hzero : (s.proc p).wchan = 0) {pc : Pc}
    (hintr : (s.pc p).Intr → pc.Intr) :
    Alert heeding (s.goto p pc) p := by
  have hself : (s.goto p pc).pc p = pc := update_self ..
  refine ⟨h.sleeper, h.exclusive, fun hset ↦ ?_, fun hne ↦ absurd hzero hne, h.cont, h.exits⟩
  rw [hself]
  exact hintr (h.intr hset)

theorem alert_goto (halert : ∀ r, Alert heeding s r) (hzero : (s.proc p).wchan = 0) (pc : Pc)
    (hintr : (s.pc p).Intr → pc.Intr) (r : P) : Alert heeding (s.goto p pc) r := by
  have hothers : Others p s (s.goto p pc) := fun _ _ ↦ rfl
  exact alert_own halert hothers (fun _ hr ↦ update_of_ne hr ..) ((halert p).goto hzero hintr) r

theorem alert_ret (halert : ∀ r, Alert heeding s r) (hzero : (s.proc p).wchan = 0)
    (hintr : ¬(s.pc p).Intr)
    (value : Value) (r : P) : Alert heeding (s.ret p value) r :=
  (alert_goto halert hzero .out (fun h ↦ absurd h hintr) r).congr rfl rfl

variable [Fintype P]

omit [DecidableEq P] [Fintype P] in
theorem alert_tame (halert : ∀ r, Alert heeding s r) (htame : Tamely s s') (r : P) :
    Alert heeding s' r :=
  (halert r).tame (htame.proc r) (congrFun htame.pc r)

omit [Fintype P] in
/-- A process that is continued does not sleep with a signal to be delivered. -/
theorem alert_continued (halert : ∀ r, Alert heeding s r) (h : Continued p s s')
    (hnot : heeding → ¬s.Overlooked p)
    (r : P) :
    Alert heeding s' r := by
  refine alert_own halert h.others (fun r _ ↦ congrFun h.pc r) ?_ r
  refine (halert p).mild h.mild (fun h' ↦ congrFun h.pc p ▸ h') (fun _ ↦ by rw [h.pc])
    fun hyes _ hintr sig hsig ↦ hnot hyes ?_
  exact ⟨h.stat, h.wchan, h.mild.ssintr ▸ hintr, h.uncaught, sig, h.deliverable sig hsig⟩

/-! ### The steps of a process -/

/-- A step in `issig`, given what happens when it returns. -/
theorem alert_issigStep {i : Issig} {returned : Option Sig → System P → Except Fault (System P)}
    (pc : Issig → Pc) (halert : ∀ r, Alert heeding s r)
    (hpc : s.pc p = pc i) (hzero : (s.proc p).wchan = 0) (hintr : ∀ i j, (pc i).Intr → (pc j).Intr)
    (hreturned : ∀ sig t, Tamely s t → returned sig t = .ok s' → ∀ r, Alert heeding s' r)
    (h : s.issigStep p pc i returned = .ok s') (r : P) : Alert heeding s' r := by
  have hkeep : ∀ {t j}, Tamely s t → ∀ r, Alert heeding (t.goto p (pc j)) r := by
    intro t j htame
    refine alert_goto (alert_tame halert htame) ?_ _ fun h ↦ ?_
    · by_contra hne
      exact hne ((htame.proc p).wchan hne ▸ hzero)
    · rw [htame.pc, hpc] at h
      exact hintr i j h
  cases i with
  | top =>
    rw [System.issigStep] at h
    obtain ⟨⟨turn, t⟩, ht, h⟩ := bind_eq_ok h
    obtain ⟨htame, -⟩ := issigTurn_tame ht
    cases turn with
    | again =>
      cases h
      exact alert_tame halert htame r
    | done sig => exact hreturned sig t htame h r
    | stopped sig =>
      cases h
      exact hkeep htame r
  | swtch sig =>
    rw [System.issigStep] at h
    cases h
    exact (hkeep (j := .clear sig) (Tamely.refl s) r).congr rfl rfl
  | clear sig =>
    rw [System.issigStep] at h
    cases h
    exact hkeep (tamely_clear s p sig) r

/-- `tsleep` after the first `CURSIG`, when the process is on no sleep queue any more. -/
theorem alert_checked {f : Frame} {sig : Option Sig} (halert : ∀ r, Alert heeding s r)
    (hzero : (s.proc p).wchan = 0) (h : s.checked p f sig = .ok s') (r : P) :
    Alert heeding s' r := by
  cases sig with
  | none =>
    rw [System.checked, if_pos hzero] at h
    cases h
    exact alert_goto halert hzero (.woken { f with pcatch := false }) (fun _ ↦ trivial) r
  | some sig =>
    rw [System.checked] at h
    obtain ⟨t, ht, h⟩ := bind_eq_ok h
    cases h
    have hproc := unsleep_proc ht
    have htame : Tamely s t := Tamely.of_update hproc (Proc.tame_unsleep _)
    have htzero : (t.proc p).wchan = 0 := by rw [hproc.1, update_self]
    refine alert_goto (alert_tame halert (htame.trans (tamely_modify (Proc.tame_run _)))) ?_
      (.woken { f with sig := some sig }) (fun _ ↦ trivial) r
    rw [modify_self]
    exact htzero

/-- The next step of the process that runs. -/
theorem alert_step (hsound : Sound s) (hcur : s.curproc = some p) (halert : ∀ r, Alert heeding s r)
    (h : s.step p = .ok s') : ∀ r, Alert heeding s' r := by
  have hzero := (hsound.current p hcur).wchan
  rw [System.step] at h
  cases hpc : s.pc p with
  | out =>
    rw [hpc] at h
    cases h
    exact halert
  | user i =>
    rw [hpc] at h
    refine alert_issigStep .user halert hpc hzero (fun _ _ h ↦ h) (fun sig t htame hret ↦ ?_) h
    cases hret
    refine alert_ret (alert_tame halert htame) ?_ ?_ _
    · by_contra hne
      exact hne ((htame.proc p).wchan hne ▸ hzero)
    · rw [htame.pc, hpc]
      exact id
  | before i f =>
    rw [hpc] at h
    refine alert_issigStep (.before · f) halert hpc hzero (fun _ _ h ↦ h)
      (fun sig t htame hret ↦ ?_) h
    refine alert_checked (alert_tame halert htame) ?_ hret
    by_contra hne
    exact hne ((htame.proc p).wchan hne ▸ hzero)
  | woken f =>
    rw [hpc] at h
    cases h
    have hold := halert p
    have hself : ((s.modify p fun q ↦ { q with ssintr := false }).goto p (.timed f)).proc p =
        { s.proc p with ssintr := false } := update_self ..
    have hothers : Others p s (s.modify p fun q ↦ { q with ssintr := false }) :=
      .of_update (modify_proc s p _)
    refine alert_own halert hothers (fun _ hr ↦ update_of_ne hr ..)
      ⟨fun _ _ hset ↦ ?_, ?_, fun hset ↦ ?_, fun hne ↦ ?_, ?_, ?_⟩
    · rw [hself] at hset
      cases hset
    · rw [hself]
      exact hold.exclusive
    · rw [hself] at hset
      cases hset
    · rw [hself] at hne
      exact absurd hzero hne
    · rw [hself]
      exact hold.cont
    · rw [hself]
      exact hold.exits
  | timed f =>
    rw [hpc] at h
    have hclear : Tamely s (s.modify p fun q ↦ { q with stimo := false }) :=
      tamely_modify ⟨⟨rfl, rfl, rfl, rfl, rfl, rfl, rfl, id, fun _ ↦ rfl, .inl⟩,
        fun hstat _ ↦ ⟨hstat, fun _ h ↦ h⟩⟩
    have hclearzero : ((s.modify p fun q ↦ { q with stimo := false }).proc p).wchan = 0 := by
      rw [modify_self]
      exact hzero
    have hnot : ¬(s.pc p).Intr := by
      rw [hpc]
      exact id
    dsimp only at h
    split_ifs at h
    · cases h
      exact alert_ret (alert_tame halert hclear) hclearzero hnot _
    · cases h
      exact alert_goto (alert_tame halert hclear) hclearzero _ fun h ↦ absurd h hnot
    · cases h
      exact alert_goto halert hzero _ fun h ↦ absurd h hnot
    · cases h
      exact alert_goto halert hzero _ fun h ↦ absurd h hnot
  | cancel f =>
    rw [hpc] at h
    cases h
    have hnot : ¬(s.pc p).Intr := by
      rw [hpc]
      exact id
    exact fun r ↦ (alert_goto halert hzero (.last f) (fun h ↦ absurd h hnot) r).congr rfl rfl
  | last f =>
    rw [hpc] at h
    have hnot : ¬(s.pc p).Intr := by
      rw [hpc]
      exact id
    dsimp only at h
    by_cases hcatch : f.pcatch = true
    · rw [if_pos hcatch] at h
      cases hsig : f.sig with
      | none =>
        rw [hsig] at h
        cases h
        exact alert_goto halert hzero _ fun h ↦ absurd h hnot
      | some sig =>
        rw [hsig] at h
        cases h
        exact alert_ret halert hzero hnot _
    · rw [if_neg hcatch] at h
      cases h
      exact alert_ret halert hzero hnot _
  | after i f =>
    rw [hpc] at h
    refine alert_issigStep (.after · f) halert hpc hzero (fun _ _ h ↦ h)
      (fun sig t htame hret ↦ ?_) h
    cases hret
    refine alert_ret (alert_tame halert htame) ?_ ?_ _
    · by_contra hne
      exact hne ((htame.proc p).wchan hne ▸ hzero)
    · rw [htame.pc, hpc]
      exact id

/-- `tsleep`. -/
theorem alert_tsleep {chan : ℕ} {pri : Fin 128} {pcatch timo : Bool} (hsound : Sound s)
    (hcur : s.curproc = some p) (hpc : s.pc p = .out) (halert : ∀ r, Alert heeding s r)
    (h : s.tsleep p chan pri pcatch timo = .ok s') : ∀ r, Alert heeding s' r := by
  have hstat : (s.proc p).stat = .srun :=
    ((hsound.current p hcur).running.resolve_right (by rw [hpc]; exact id)).1
  have hunset : (s.proc p).ssintr = false := by
    refine Bool.eq_false_iff.mpr fun hset ↦ ?_
    have hthis := (halert p).intr hset
    rw [hpc] at hthis
    exact hthis
  obtain ⟨f, hf⟩ : ∃ f : Frame, f = ⟨chan, pcatch, timo, none⟩ := ⟨_, rfl⟩
  have hfchan : f.chan = chan := by rw [hf]
  rw [System.tsleep] at h
  by_cases hbad : chan = 0 ∨ (s.proc p).stat ≠ .srun ∨ s.links.prev (.proc p) ≠ none
  · rw [if_pos hbad] at h
    cases h
  rw [if_neg hbad] at h
  obtain ⟨t, henqueue, h⟩ := bind_eq_ok h
  obtain ⟨htproc, htpc⟩ := enqueue_proc henqueue
  obtain ⟨u, hu⟩ : ∃ u, (if timo then { t with callouts := p :: t.callouts } else t) = u := ⟨_, rfl⟩
  have huproc : u.proc = update s.proc p { s.proc p with wchan := chan, pri := pri } := by
    rw [← modify_proc s p fun q ↦ { q with wchan := chan, pri := pri }, ← htproc, ← hu]
    split_ifs <;> rfl
  have hupc : u.pc = s.pc := by
    refine Eq.trans ?_ htpc
    rw [← hu]
    split_ifs <;> rfl
  have hself : u.proc p = { s.proc p with wchan := chan, pri := pri } := by rw [huproc, update_self]
  -- The process is where it will sleep.
  have hawake :
    ∀ b, ∀ r, Alert heeding ((u.modify p fun q ↦ { q with ssintr := b }).goto p (.woken f)) r := by
    intro b
    obtain ⟨v, hv⟩ : ∃ v, (u.modify p fun q ↦ { q with ssintr := b }).goto p (.woken f) = v :=
      ⟨_, rfl⟩
    have hvself : v.proc p = { s.proc p with wchan := chan, pri := pri, ssintr := b } := by
      rw [← hv]
      refine (update_self ..).trans ?_
      rw [hself]
    have hvpc : v.pc p = .woken f := by
      rw [← hv]
      exact update_self ..
    have hold := halert p
    rw [hv]
    refine alert_own (p := p) halert (fun r hr ↦ ?_) (fun r hr ↦ ?_) ⟨fun _ hsleep ↦ ?_, ?_,
      fun _ ↦ ?_,
      fun _ ↦ ?_, ?_, ?_⟩
    · rw [← hv]
      refine (update_of_ne hr ..).trans ?_
      rw [huproc, update_of_ne hr]
    · rw [← hv]
      refine (update_of_ne hr ..).trans ?_
      exact congrFun hupc r
    · rw [hvself] at hsleep
      exact absurd (hstat.symm.trans hsleep) (by decide)
    · rw [hvself]
      exact hold.exclusive
    · rw [hvpc]
      trivial
    · rw [hvself, hvpc]
      exact hfchan.symm
    · rw [hvself]
      exact hold.cont
    · rw [hvself]
      exact hold.exits
  rw [hu, ← hf] at h
  by_cases hcatch : pcatch = true
  · rw [if_pos hcatch] at h
    obtain ⟨v, hv⟩ : ∃ v, u.modify p (fun q ↦ { q with ssintr := true }) = v := ⟨_, rfl⟩
    rw [hv] at h
    have hvstat : (v.proc p).stat = .srun := by
      rw [← hv, modify_self, hself]
      exact hstat
    have halertv : ∀ r, Alert heeding (v.goto p (.woken f)) r := hv ▸ hawake true
    obtain ⟨⟨turn, w⟩, hhigh, h⟩ := bind_eq_ok h
    obtain ⟨htame, hagain, hnone⟩ := issigHigh_tame 33 hhigh
    have hwstat : ¬((w.proc p).stat = .ssleep ∧ (w.proc p).ssintr = true) := fun h ↦
      absurd (hvstat.symm.trans ((htame.proc p).asleep h.1 h.2).1) (by decide)
    -- The state after it, from the one before `issig`.
    have hleave : ∀ (x : System P) (q : Proc P) (pc : Pc), Others p w x →
        (∀ r, r ≠ p → x.pc r = w.pc r) → x.proc p = q → x.pc p = pc → (w.proc p).Mild q → pc.Intr →
        pc.chan = f.chan →
        (q.stat = .ssleep → q.ssintr = true → ∀ sig, ¬q.Deliverable sig) → ∀ r,
        Alert heeding x r := by
      intro x q pc hothers hxpc hq hpcx hmild hintr hchan hsleeper r
      have hvpc : (v.goto p (.woken f)).pc p = .woken f := update_self ..
      by_cases hrp : r = p
      · rw [hrp]
        refine (halertv p).mild ((htame.proc p).toMild.trans (hq ▸ hmild)) (fun _ ↦ hpcx ▸ hintr)
          (fun _ ↦ ?_) fun _ ↦ hq ▸ hsleeper
        rw [hpcx, hvpc]
        exact hchan
      · refine (halertv r).tame ?_ ?_
        · rw [hothers r hrp]
          exact htame.proc r
        · rw [hxpc r hrp, htame.pc]
          exact (update_of_ne hrp ..).symm
    cases turn with
    | again => exact absurd rfl hagain
    | stopped sig =>
      cases h
      exact hleave _ _ _ (fun _ _ ↦ rfl) (fun _ hr ↦ update_of_ne hr ..) rfl (update_self ..)
        (Proc.Mild.refl _) trivial rfl fun hsleep hintr ↦ absurd ⟨hsleep, hintr⟩ hwstat
    | done r =>
      cases r with
      | none =>
        change w.checked p f none = .ok s' at h
        rw [System.checked] at h
        split_ifs at h
        · cases h
          exact hleave _ _ _ (fun _ _ ↦ rfl) (fun _ hr ↦ update_of_ne hr ..) rfl (update_self ..)
            (Proc.Mild.refl _) trivial rfl fun hsleep hintr ↦ absurd ⟨hsleep, hintr⟩ hwstat
        · cases h
          exact hleave _ _ _ (.of_update (modify_proc w p fun q ↦ { q with stat := .ssleep }))
            (fun _ hr ↦ update_of_ne hr ..) (update_self ..) (update_self ..) (Proc.Mild.asleep _)
            trivial rfl fun _ _ ↦ hnone rfl
      | some sig =>
        change w.checked p f (some sig) = .ok s' at h
        rw [System.checked] at h
        obtain ⟨x, hx, h⟩ := bind_eq_ok h
        cases h
        obtain ⟨hxproc, hxpc, -⟩ := unsleep_proc hx
        have hxself : x.proc p = { w.proc p with wchan := 0 } := by rw [hxproc, update_self]
        refine hleave _ _ _ ((Others.of_update hxproc).trans
          (.of_update (modify_proc x p fun q ↦ { q with stat := .srun }))) (fun r hr ↦ ?_)
          (update_self ..) (update_self ..) ?_ trivial rfl fun hsleep _ ↦ by cases hsleep
        · rw [← hxpc]
          exact update_of_ne hr ..
        · refine Proc.Mild.trans ?_ (Proc.tame_run (x.proc p)).toMild
          rw [hxself]
          exact (Proc.tame_unsleep (w.proc p)).toMild
  · rw [if_neg hcatch] at h
    have hs' := (Except.ok.inj h).symm
    have hid : u.modify p (fun q ↦ { q with ssintr := false }) = u := by
      refine modify_eq_self u p ?_
      rw [hself, ← hunset]
    have halertu : ∀ r, Alert heeding (u.goto p (.woken f)) r := by
      have hthis := hawake false
      rw [hid] at hthis
      exact hthis
    have hproc : s'.proc = update u.proc p { u.proc p with stat := .ssleep } := by
      rw [hs']
      rfl
    have hself' : s'.proc p = { u.proc p with stat := .ssleep } := by rw [hproc, update_self]
    have hpc' : s'.pc = (u.goto p (.woken f)).pc := by
      rw [hs']
      rfl
    refine alert_own halertu (.of_update hproc) (fun r _ ↦ by rw [hpc']) ?_
    refine (halertu p).mild ?_ (fun h ↦ by rwa [hpc']) (fun _ ↦ by rw [hpc']) fun _ _ hset ↦ ?_
    · rw [hself']
      exact Proc.Mild.asleep (u.proc p)
    · rw [hself', hself] at hset
      exact absurd (hunset.symm.trans hset) Bool.false_ne_true

end Bsd386.Kern.Sleep
