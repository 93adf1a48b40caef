import Bsd386.Kern.Sleep.Queues

/-!
# Waking

What `unsleep`, `setrun`, `wakeup`, `endtsleep` and `swtch` do to the processes and to the queues.
-/

namespace Bsd386.Kern.Sleep

open Function

variable {P : Type} [DecidableEq P] {s s' t : System P} {sl : Fin 64 → List P}
  {rl : Fin 32 → List P}
  {p : P}

/-- The queues are in order. -/
def Queued (s : System P) : Prop := ∃ sl rl, Queues s sl rl

/-- A process that is to be on a queue: it sleeps or is stopped. -/
def Proc.Waits (q : Proc P) : Prop := q.stat = .ssleep ∨ q.stat = .sstop

/-- The rest is left alone, and so is a process that runs, except for the processes `x`. A process
that comes to run is on a run queue. -/
structure Quiet (x : P → Prop) (s s' : System P) : Prop where
  same : Same s s'
  sload : ∀ q, (s'.proc q).sload = (s.proc q).sload
  runs : ∀ q, ¬x q → (s.proc q).stat = .srun →
    (s'.proc q).stat = .srun ∧ (s'.proc q).wchan = (s.proc q).wchan ∧
      s'.links.prev (.proc q) = s.links.prev (.proc q)
  ready : ∀ q, ¬x q → (s'.proc q).stat = .srun → (s'.proc q).sload = true →
    (s.proc q).stat = .srun ∨ s'.links.prev (.proc q) ≠ none

omit [DecidableEq P] in
theorem Quiet.refl (x : P → Prop) (s : System P) : Quiet x s s :=
  ⟨Same.refl s, fun _ ↦ rfl, fun _ _ h ↦ ⟨h, rfl, rfl⟩, fun _ _ h _ ↦ .inl h⟩

omit [DecidableEq P] in
theorem Quiet.trans {x : P → Prop} (h : Quiet x s s') (h' : Quiet x s' t) : Quiet x s t := by
  refine ⟨h.same.trans h'.same, fun q ↦ (h'.sload q).trans (h.sload q), fun q hq hstat ↦ ?_,
    fun q hq hstat hload ↦ ?_⟩
  · obtain ⟨hstat₁, hwchan₁, hprev₁⟩ := h.runs q hq hstat
    obtain ⟨hstat₂, hwchan₂, hprev₂⟩ := h'.runs q hq hstat₁
    exact ⟨hstat₂, hwchan₂.trans hwchan₁, hprev₂.trans hprev₁⟩
  · rcases h'.ready q hq hstat hload with hstat₁ | hprev
    · refine (h.ready q hq hstat₁ (h'.sload q ▸ hload)).imp_right fun hprev ↦ ?_
      rw [(h'.runs q hq hstat₁).2.2]
      exact hprev
    · exact .inr hprev

omit [DecidableEq P] in
/-- A step that leaves the states and the run queues alone. -/
theorem Quiet.of_same {x : P → Prop} (hsame : Same s s')
    (hproc : ∀ q, (s'.proc q).stat = (s.proc q).stat ∧ (s'.proc q).sload = (s.proc q).sload)
    (hwchan : ∀ q, ¬x q → (s.proc q).stat = .srun → (s'.proc q).wchan = (s.proc q).wchan)
    (hprev : s'.links.prev = s.links.prev) : Quiet x s s' := by
  refine ⟨hsame, fun q ↦ (hproc q).2, fun q hq hstat ↦ ?_, fun q _ hstat _ ↦ .inl ?_⟩
  · rw [hprev]
    exact ⟨(hproc q).1.trans hstat, hwchan q hq hstat, rfl⟩
  · rw [← (hproc q).1, hstat]

omit [DecidableEq P] in
theorem Queued.prev_eq_none (hq : Queued s) (hne : (s.proc p).stat ≠ .srun ∨ (s.proc p).wchan ≠ 0) :
    s.links.prev (.proc p) = none := by
  obtain ⟨sl, rl, hq⟩ := hq
  by_contra hprev
  obtain ⟨i, hi⟩ := (hq.ready p).mpr hprev
  obtain ⟨hstat, hwchan⟩ := hq.runnable p i hi
  exact hne.elim (fun h ↦ h hstat) fun h ↦ h hwchan

theorem Queued.modify {f : Proc P → Proc P} (hq : Queued s)
    (hwchan : (f (s.proc p)).wchan = (s.proc p).wchan)
    (hready : s.links.prev (.proc p) ≠ none →
      (f (s.proc p)).pri = (s.proc p).pri ∧ (f (s.proc p)).stat = .srun) :
    Queued (s.modify p f) := by
  obtain ⟨sl, rl, hq⟩ := hq
  exact ⟨sl, rl, hq.modify hwchan hready⟩

theorem same_modify (s : System P) (p : P) (f : Proc P → Proc P) : Same s (s.modify p f) :=
  ⟨rfl, rfl, rfl, rfl, rfl, rfl⟩

theorem modify_proc (s : System P) (p : P) (f : Proc P → Proc P) :
    (s.modify p f).proc = update s.proc p (f (s.proc p)) := rfl

theorem modify_self (s : System P) (p : P) (f : Proc P → Proc P) :
    (s.modify p f).proc p = f (s.proc p) := update_self ..

theorem modify_of_ne {q : P} (hne : q ≠ p) (f : Proc P → Proc P) :
    (s.modify p f).proc q = s.proc q := update_of_ne hne ..

/-! ### Taking a process off its sleep queue -/

/-- The loop of `unsleep` finds the pointer to the process. -/
theorem unsleepLoop_eq {l₁ l₂ : List P} {cell : Cell P} (fuel : ℕ)
    (hlead : Leads none pointer Cell.link s.load cell (l₁ ++ p :: l₂)) (hp : p ∉ l₁)
    (hfuel : l₁.length < fuel) :
    System.unsleepLoop p s fuel cell = .ok (endCell Cell.link cell l₁) := by
  induction l₁ generalizing cell fuel with
  | nil =>
    obtain ⟨fuel, rfl⟩ := Nat.exists_eq_succ_of_ne_zero (Nat.ne_of_gt hfuel)
    rw [System.unsleepLoop]
    exact if_pos hlead.1
  | cons q l₁ ih =>
    obtain ⟨fuel, rfl⟩ := Nat.exists_eq_succ_of_ne_zero (Nat.ne_of_gt (Nat.zero_lt_of_lt hfuel))
    have hqp : q ≠ p := fun heq ↦ hp (heq ▸ List.mem_cons_self)
    have hfirst : s.load cell = some (.proc q) := hlead.1
    have hne : s.load cell ≠ some (.proc p) := by
      rw [hfirst]
      exact fun heq ↦ hqp (pointer_injective heq)
    rw [System.unsleepLoop, if_neg hne, hfirst, deref_bind]
    exact ih fuel hlead.2 (fun hmem ↦ hp (List.mem_cons_of_mem q hmem))
      (Nat.lt_of_succ_lt_succ hfuel)

variable [Fintype P]

theorem Queued.unsleep (hq : Queued s) :
    ∃ s', s.unsleep p = .ok s' ∧ Queued s' ∧ Same s s' ∧
      s'.links.prev = s.links.prev ∧ s'.proc = update s.proc p { s.proc p with wchan := 0 } := by
  obtain ⟨sl, rl, hq⟩ := hq
  rw [System.unsleep]
  by_cases hzero : (s.proc p).wchan = 0
  · rw [if_pos hzero]
    refine ⟨s, rfl, ⟨sl, rl, hq⟩, Same.refl s, rfl, ?_⟩
    rw [eq_update_iff]
    refine ⟨?_, fun _ _ ↦ rfl⟩
    rw [← hzero]
  · rw [if_neg hzero]
    have hmem : p ∈ sl (hash (s.proc p).wchan) := (hq.asleep p _).mpr ⟨hzero, rfl⟩
    obtain ⟨l₁, l₂, hl⟩ := List.append_of_mem hmem
    have hnodup := hq.once (hash (s.proc p).wchan)
    have hlength := hq.length_le (hash (s.proc p).wchan)
    rw [hl] at hnodup hlength
    have hp : p ∉ l₁ := fun hin ↦
      (List.nodup_append.mp hnodup).2.2 p hin p List.mem_cons_self rfl
    have hlead : Leads none pointer Cell.link s.load (.head (hash (s.proc p).wchan))
      (l₁ ++ p :: l₂) :=
      hl ▸ hq.sleepers (hash (s.proc p).wchan)
    have hloop := unsleepLoop_eq (Fintype.card P + 1) hlead hp (by
      rw [List.length_append] at hlength
      omega)
    obtain ⟨hproc, hprev, hsame⟩ := dequeue_rest s p (hash (s.proc p).wchan)
      (endCell Cell.link (.head (hash (s.proc p).wchan)) l₁)
    refine ⟨_, ?_, ⟨_, rl, hq.dequeue hl⟩, hsame, hprev, hproc⟩
    rw [hloop]
    rfl

/-- A process that is taken off its sleep queue is no process that runs. -/
theorem Queued.unsleep_quiet (hq : Queued s)
    (hstat : (s.proc p).stat ≠ .srun ∨ (s.proc p).wchan = 0) :
    ∃ s', s.unsleep p = .ok s' ∧ Queued s' ∧ Quiet (fun _ ↦ False) s s' ∧
      s'.proc = update s.proc p { s.proc p with wchan := 0 } := by
  obtain ⟨s', hrun, hq', hsame, hprev, hproc⟩ := hq.unsleep (p := p)
  refine ⟨s', hrun, hq', Quiet.of_same hsame (fun q ↦ ?_) (fun q _ hqstat ↦ ?_) hprev, hproc⟩
  · rw [hproc]
    by_cases hqp : q = p
    · rw [hqp, update_self]
      exact ⟨rfl, rfl⟩
    · rw [update_of_ne hqp]
      exact ⟨rfl, rfl⟩
  · rw [hproc]
    by_cases hqp : q = p
    · subst hqp
      rw [update_self]
      exact (hstat.resolve_left (not_not_intro hqstat)).symm
    · rw [update_of_ne hqp]

/-! ### Making a process run -/

omit [Fintype P] in
/-- The end of `setrun`, for a process that is on no queue. -/
theorem Queues.run (hq : Queues s sl rl) (hstat : (s.proc p).stat ≠ .srun)
    (hwchan : (s.proc p).wchan = 0) :
    ∃ s' rl', s.run p = .ok s' ∧ Queues s' sl rl' ∧ Quiet (fun _ ↦ False) s s' ∧
      s'.proc = update s.proc p { s.proc p with stat := .srun } := by
  have hprev : s.links.prev (.proc p) = none := Queued.prev_eq_none ⟨sl, rl, hq⟩ (.inl hstat)
  obtain ⟨t, ht⟩ : ∃ t, s.modify p (fun q ↦ { q with stat := .srun }) = t := ⟨_, rfl⟩
  have hproc : t.proc = update s.proc p { s.proc p with stat := .srun } := by
    rw [← ht]
    rfl
  have hself : t.proc p = { s.proc p with stat := .srun } := by rw [hproc, update_self]
  have hprevs : t.links.prev = s.links.prev := by
    rw [← ht]
    rfl
  have hq' : Queues t sl rl := ht ▸ hq.modify rfl fun h ↦ absurd hprev h
  have hquiet : ∀ u : System P, Same t u → u.proc = t.proc →
      (∀ q, q ≠ p → u.links.prev (.proc q) = t.links.prev (.proc q)) →
      ((s.proc p).sload = true → u.links.prev (.proc p) ≠ none) → Quiet (fun _ ↦ False) s u := by
    intro u hsame hu huprev hready
    refine ⟨(ht ▸ same_modify s p _ : Same s t).trans hsame, fun q ↦ ?_, fun q _ hqstat ↦ ?_,
      fun q _ hqstat hqload ↦ ?_⟩
    · rw [hu, hproc]
      by_cases hqp : q = p
      · rw [hqp, update_self]
      · rw [update_of_ne hqp]
    · have hqp : q ≠ p := fun heq ↦ hstat (heq ▸ hqstat)
      rw [hu, hproc, update_of_ne hqp, huprev q hqp, hprevs]
      exact ⟨hqstat, rfl, rfl⟩
    · rw [hu] at hqstat hqload
      by_cases hqp : q = p
      · subst hqp
        rw [hself] at hqload
        exact .inr (hready hqload)
      · rw [hproc, update_of_ne hqp] at hqstat
        exact .inl hqstat
  rw [System.run, ht]
  dsimp only
  by_cases hload : (t.proc p).sload = true
  · rw [if_pos hload]
    obtain ⟨u, hrun, hu, hsame, hqu, huprev⟩ := hq'.setrq (p := p) (by rw [hprevs, hprev])
      (by rw [hself]) (by rw [hself]; exact hwchan)
    refine ⟨u, _, hrun, hqu, hquiet u hsame hu huprev fun _ ↦ (hqu.ready p).mp ⟨t.rqidx p, ?_⟩,
      hu.trans hproc⟩
    rw [update_self]
    exact List.mem_append_right _ List.mem_cons_self
  · rw [if_neg hload]
    refine ⟨t, rl, rfl, hq', hquiet t (Same.refl t) rfl (fun _ _ ↦ rfl) fun h ↦ ?_, hproc⟩
    rw [hself] at hload
    exact absurd h hload

/-- `setrun` of a process that sleeps, is stopped, or is new. -/
theorem Queued.setrun (hq : Queued s)
    (hstat : (s.proc p).Waits ∨ (s.proc p).stat = .sidl ∧ (s.proc p).wchan = 0) :
    ∃ s', s.setrun p = .ok s' ∧ Queued s' ∧ Quiet (fun _ ↦ False) s s' ∧
      s'.proc = update s.proc p { s.proc p with stat := .srun, wchan := 0 } := by
  have hne : (s.proc p).stat ≠ .srun := by
    rcases hstat with (h | h) | ⟨h, -⟩
    · exact fun heq ↦ by rw [h] at heq; cases heq
    · exact fun heq ↦ by rw [h] at heq; cases heq
    · exact fun heq ↦ by rw [h] at heq; cases heq
  -- What `unsleep` leaves, or the process itself if it is new.
  have hfrom : ∀ t, Queued t → Quiet (fun _ ↦ False) s t →
      t.proc = update s.proc p { s.proc p with wchan := 0 } → ∃ s', t.run p = .ok s' ∧ Queued s' ∧
        Quiet (fun _ ↦ False) s s' ∧
        s'.proc = update s.proc p { s.proc p with stat := .srun, wchan := 0 } := by
    intro t hqt hquiet hproc
    have hself : t.proc p = { s.proc p with wchan := 0 } := by rw [hproc, update_self]
    obtain ⟨sl, rl, hqueues⟩ := hqt
    obtain ⟨u, rl', hrun, hqu, hquiet', hu⟩ := hqueues.run (p := p) (by rw [hself]; exact hne)
      (by rw [hself])
    refine ⟨u, hrun, ⟨sl, rl', hqu⟩, hquiet.trans hquiet', ?_⟩
    rw [hu, hself, hproc, update_idem]
  obtain ⟨t, hrun, hqt, hquiet, hproc⟩ := hq.unsleep_quiet (p := p) (.inl hne)
  rw [System.setrun]
  rcases hstat with (h | h) | ⟨h, hzero⟩
  · rw [h]
    dsimp only
    rw [hrun, ok_bind]
    exact hfrom t hqt hquiet hproc
  · rw [h]
    dsimp only
    rw [hrun, ok_bind]
    exact hfrom t hqt hquiet hproc
  · rw [h]
    refine hfrom s hq (Quiet.refl _ s) ?_
    rw [eq_update_iff]
    exact ⟨by rw [← hzero], fun _ _ ↦ rfl⟩

/-! ### Waking the processes on a channel -/

/-- What `wakeup` does to a process. -/
def Proc.woken (chan : ℕ) (q : Proc P) : Proc P :=
  if q.wchan = chan ∧ chan ≠ 0 then
    { q with wchan := 0, stat := if q.stat = .ssleep then .srun else q.stat }
  else q

omit [DecidableEq P] [Fintype P] in
theorem Proc.woken_of_zero {chan : ℕ} {q : Proc P} (hzero : q.wchan = 0) : q.woken chan = q :=
  if_neg fun h ↦ h.2 (h.1.symm.trans hzero)

/-- The loop of `wakeup` behind the processes `l₁`, which do not sleep on the channel. -/
theorem wakeupLoop_spec {chan : ℕ} {l₁ l₂ : List P} (fuel : ℕ) (hq : Queues s sl rl)
    (hl : sl (hash chan) = l₁ ++ l₂) (hwaits : ∀ r, (s.proc r).wchan ≠ 0 → (s.proc r).Waits)
    (hpassed : ∀ r ∈ l₁, (s.proc r).wchan ≠ chan)
    (hfuel : l₂.countP (fun r ↦ (s.proc r).wchan = chan) * (Fintype.card P + 1) + l₂.length <
    fuel) :
    ∃ s', System.wakeupLoop chan fuel (endCell Cell.link (.head (hash chan)) l₁) s = .ok s' ∧
      Queued s' ∧ Quiet (fun _ ↦ False) s s' ∧ s'.proc = fun r ↦ (s.proc r).woken chan := by
  obtain ⟨cell, hcell⟩ : ∃ cell, endCell Cell.link (.head (hash chan)) l₁ = cell := ⟨_, rfl⟩
  rw [hcell]
  induction fuel generalizing s sl rl l₁ l₂ cell with
  | zero => exact absurd hfuel (Nat.not_lt_zero _)
  | succ fuel ih =>
    have hlead : Leads none pointer Cell.link s.load (.head (hash chan)) (l₁ ++ l₂) :=
      hl ▸ hq.sleepers (hash chan)
    rw [System.wakeupLoop]
    cases l₂ with
    | nil =>
      rw [List.append_nil] at hlead hl
      have hend : s.load cell = none := hcell ▸ hlead.load_endCell
      rw [hend]
      refine ⟨s, rfl, ⟨sl, rl, hq⟩, Quiet.refl _ s, ?_⟩
      funext r
      refine (if_neg fun hchan ↦ ?_).symm
      have hmem : r ∈ sl (hash chan) := (hq.asleep r _).mpr ⟨hchan.1 ▸ hchan.2, by rw [hchan.1]⟩
      exact hpassed r (hl ▸ hmem) hchan.1
    | cons p l₂ =>
      have hfirst : s.load cell = some (.proc p) := hcell ▸ hlead.load_before
      have hmem : p ∈ sl (hash chan) := hl ▸ List.mem_append_right l₁ List.mem_cons_self
      have hne := ((hq.asleep p _).mp hmem).1
      have hprev : s.links.prev (.proc p) = none := Queued.prev_eq_none ⟨sl, rl, hq⟩ (.inr hne)
      have hstat := hwaits p hne
      have hchecked : ¬(s.links.prev (.proc p) ≠ none ∨
          (s.proc p).stat ≠ .ssleep ∧ (s.proc p).stat ≠ .sstop) := by
        rintro (h | ⟨h, h'⟩)
        · exact h hprev
        · exact hstat.elim h h'
      have hnodup : (l₁ ++ p :: l₂).Nodup := hl ▸ hq.once (hash chan)
      have hlength : (l₁ ++ p :: l₂).length ≤ Fintype.card P := hl ▸ hq.length_le (hash chan)
      rw [List.length_append, List.length_cons] at hlength
      rw [hfirst]
      dsimp only
      rw [if_neg hchecked]
      by_cases hchan : (s.proc p).wchan = chan
      · rw [if_pos hchan]
        obtain ⟨t, ht⟩ : ∃ t, s.dequeue p (hash chan) cell = t := ⟨_, rfl⟩
        have hqt : Queues t (update sl (hash chan) (l₁ ++ l₂)) rl := by
          rw [← ht, ← hcell]
          exact hq.dequeue hl
        obtain ⟨hproc, hprevs, hsame⟩ := ht ▸ dequeue_rest s p (hash chan) cell
        have hself : t.proc p = { s.proc p with wchan := 0 } := by rw [hproc, update_self]
        have hquietd : Quiet (fun _ ↦ False) s t := by
          refine Quiet.of_same hsame (fun r ↦ ?_) (fun r _ hr ↦ ?_) hprevs
          · rw [hproc]
            by_cases hrp : r = p
            · rw [hrp, update_self]
              exact ⟨rfl, rfl⟩
            · rw [update_of_ne hrp]
              exact ⟨rfl, rfl⟩
          · have hrp : r ≠ p := fun heq ↦ by
              rw [heq] at hr
              rcases hstat with h | h <;> rw [h] at hr <;> cases hr
            rw [hproc, update_of_ne hrp]
        have hnotmem : ∀ r ∈ l₁ ++ l₂, r ≠ p := fun r hr heq ↦
          (List.nodup_cons.mp (List.perm_middle.nodup_iff.mp hnodup)).1 (heq ▸ hr)
        rw [List.countP_cons_of_pos (by simpa using hchan), List.length_cons] at hfuel
        rw [ht]
        by_cases hsleep : (s.proc p).stat = .ssleep
        · rw [if_pos hsleep]
          obtain ⟨u, rl', hrun, hqu, hquiet, hu⟩ := hqt.run (p := p)
            (by rw [hself, hsleep]; exact fun h ↦ by cases h) (by rw [hself])
          have hu' : u.proc = update s.proc p { s.proc p with stat := .srun, wchan := 0 } := by
            rw [hu, hself, hproc, update_idem]
          have huother : ∀ r, r ≠ p → u.proc r = s.proc r := fun r hr ↦ by
            rw [hu', update_of_ne hr]
          have huself : u.proc p = { s.proc p with stat := .srun, wchan := 0 } := by
            rw [hu', update_self]
          have hcount : (l₁ ++ l₂).countP (fun r ↦ (u.proc r).wchan = chan) =
              l₂.countP fun r ↦ (s.proc r).wchan = chan := by
            rw [List.countP_append]
            have hnone : l₁.countP (fun r ↦ (u.proc r).wchan = chan) = 0 := by
              refine List.countP_eq_zero.mpr fun r hr ↦ ?_
              rw [huother r (hnotmem r (List.mem_append_left l₂ hr))]
              simpa using hpassed r hr
            rw [hnone, Nat.zero_add]
            refine List.countP_congr fun r hr ↦ ?_
            rw [huother r (hnotmem r (List.mem_append_right l₁ hr))]
          have hrest : update sl (hash chan) (l₁ ++ l₂) (hash chan) = [] ++ (l₁ ++ l₂) :=
            update_self ..
          obtain ⟨s', hloop, hqs, hquiet', hs'⟩ := ih hqu hrest
            (fun r hr ↦ by
              by_cases hrp : r = p
              · rw [hrp, huself] at hr
                exact absurd rfl hr
              · rw [huother r hrp] at hr ⊢
                exact hwaits r hr)
            (fun r hr ↦ absurd hr List.not_mem_nil)
            (by
              rw [hcount, List.length_append]
              rw [Nat.add_mul] at hfuel
              omega) (.head (hash chan)) rfl
          refine ⟨s', ?_, hqs, hquietd.trans (hquiet.trans hquiet'), ?_⟩
          · rw [hrun, ok_bind]
            exact hloop
          · rw [hs']
            funext r
            by_cases hrp : r = p
            · rw [hrp, huself, Proc.woken_of_zero rfl, Proc.woken, if_pos ⟨hchan, hchan ▸ hne⟩,
                if_pos hsleep]
            · rw [huother r hrp]
        · rw [if_neg hsleep]
          have hother : ∀ r, r ≠ p → t.proc r = s.proc r := fun r hr ↦ by
            rw [hproc, update_of_ne hr]
          have hcount : l₂.countP (fun r ↦ (t.proc r).wchan = chan) =
              l₂.countP fun r ↦ (s.proc r).wchan = chan := by
            refine List.countP_congr fun r hr ↦ ?_
            rw [hother r (hnotmem r (List.mem_append_right l₁ hr))]
          obtain ⟨s', hloop, hqs, hquiet, hs'⟩ := ih hqt (update_self ..)
            (fun r hr ↦ by
              by_cases hrp : r = p
              · rw [hrp, hself] at hr
                exact absurd rfl hr
              · rw [hother r hrp] at hr ⊢
                exact hwaits r hr)
            (fun r hr ↦ by
              rw [hother r (hnotmem r (List.mem_append_left l₂ hr))]
              exact hpassed r hr)
            (by
              rw [hcount]
              rw [Nat.add_mul] at hfuel
              omega) cell hcell
          refine ⟨s', hloop, hqs, hquietd.trans hquiet, ?_⟩
          rw [hs']
          funext r
          by_cases hrp : r = p
          · rw [hrp, hself, Proc.woken_of_zero rfl, Proc.woken, if_pos ⟨hchan, hchan ▸ hne⟩,
              if_neg hsleep]
          · rw [hother r hrp]
      · rw [if_neg hchan]
        have hl' : sl (hash chan) = (l₁ ++ [p]) ++ l₂ := by rw [hl, List.append_assoc]; rfl
        refine ih hq hl' hwaits (fun r hr ↦ ?_) ?_ (.link p) endCell_concat
        · rcases List.mem_append.mp hr with hr | hr
          · exact hpassed r hr
          · rw [List.mem_singleton.mp hr]
            exact hchan
        · rw [List.countP_cons_of_neg (by simpa using hchan), List.length_cons] at hfuel
          omega

/-- `wakeup` takes the processes on the channel off their queue, and makes those that sleep run. -/
theorem Queued.wakeup (hq : Queued s) (chan : ℕ)
    (hwaits : ∀ r, (s.proc r).wchan ≠ 0 → (s.proc r).Waits) :
    ∃ s', s.wakeup chan = .ok s' ∧ Queued s' ∧ Quiet (fun _ ↦ False) s s' ∧
      s'.proc = fun r ↦ (s.proc r).woken chan := by
  obtain ⟨sl, rl, hq⟩ := hq
  refine wakeupLoop_spec _ hq (List.nil_append _).symm hwaits
    (fun r hr ↦ absurd hr List.not_mem_nil) ?_
  have hlength := hq.length_le (hash chan)
  have hcount := List.countP_le_length (p := fun r ↦ (s.proc r).wchan = chan) (l := sl (hash chan))
  have hmul := Nat.mul_le_mul_right (Fintype.card P + 1) (hcount.trans hlength)
  calc (sl (hash chan)).countP (fun r ↦ (s.proc r).wchan = chan) * (Fintype.card P + 1) +
        (sl (hash chan)).length
      ≤ Fintype.card P * (Fintype.card P + 1) + Fintype.card P := Nat.add_le_add hmul hlength
    _ < (Fintype.card P + 1) * (Fintype.card P + 1) := by
      rw [Nat.add_mul (Fintype.card P) 1]
      omega

/-- `endtsleep`. -/
theorem Queued.endtsleep (hq : Queued s) (hwaits : ∀ r, (s.proc r).wchan ≠ 0 → (s.proc r).Waits) :
    ∃ s', s.endtsleep p = .ok s' ∧ Queued s' ∧ Quiet (fun _ ↦ False) s s' ∧
      s'.proc = if (s.proc p).wchan = 0 then s.proc
        else update s.proc p { s.proc p with
          wchan := 0
          stimo := true
          stat := if (s.proc p).stat = .ssleep then .srun else .sstop } := by
  rw [System.endtsleep]
  by_cases hzero : (s.proc p).wchan = 0
  · rw [if_pos hzero, if_pos hzero]
    exact ⟨s, rfl, hq, Quiet.refl _ s, rfl⟩
  rw [if_neg hzero, if_neg hzero]
  have hwait := hwaits p hzero
  -- The flag is set in either case.
  have hflag : ∀ t, Queued t → Quiet (fun _ ↦ False) s t →
      Queued (t.modify p fun q ↦ { q with stimo := true }) ∧
        Quiet (fun _ ↦ False) s (t.modify p fun q ↦ { q with stimo := true }) := by
    intro t hqt hquiet
    refine ⟨hqt.modify rfl fun hprev ↦ ⟨rfl, ?_⟩, hquiet.trans
      (Quiet.of_same (same_modify t p _) (fun r ↦ ?_) (fun r _ _ ↦ ?_) rfl)⟩
    · by_contra hne
      exact hprev (hqt.prev_eq_none (.inl hne))
    · by_cases hrp : r = p
      · rw [hrp, modify_self]
        exact ⟨rfl, rfl⟩
      · rw [modify_of_ne hrp]
        exact ⟨rfl, rfl⟩
    · by_cases hrp : r = p
      · rw [hrp, modify_self]
      · rw [modify_of_ne hrp]
  by_cases hsleep : (s.proc p).stat = .ssleep
  · obtain ⟨t, hrun, hqt, hquiet, hproc⟩ := hq.setrun (p := p) (.inl (.inl hsleep))
    obtain ⟨hqu, hquiet'⟩ := hflag t hqt hquiet
    refine ⟨_, ?_, hqu, hquiet', ?_⟩
    · rw [if_pos hsleep, hrun]
      rfl
    · rw [modify_proc, hproc, update_self, update_idem, if_pos hsleep]
  · have hstop : (s.proc p).stat = .sstop := hwait.resolve_left hsleep
    obtain ⟨t, hrun, hqt, hquiet, hproc⟩ := hq.unsleep_quiet (p := p)
      (.inl (by rw [hstop]; exact fun h ↦ by cases h))
    obtain ⟨hqu, hquiet'⟩ := hflag t hqt hquiet
    refine ⟨_, ?_, hqu, hquiet', ?_⟩
    · rw [if_neg hsleep, hrun]
      rfl
    · rw [modify_proc, hproc, update_self, update_idem, if_neg hsleep, ← hstop]

/-! ### Switching -/

omit [Fintype P] in
/-- `swtch` takes the first process of a run queue, if there is one. -/
theorem Queued.swtch (hq : Queued s) :
    ∃ s', s.swtch = .ok s' ∧ Queued s' ∧ s'.proc = s.proc ∧ s'.callouts = s.callouts ∧
      s'.pc = s.pc ∧ s'.value = s.value ∧ s'.addr = s.addr ∧ s'.jobc = s.jobc ∧
      (s' = s ∨ ∃ p, s'.curproc = some p ∧ (s.proc p).stat = .srun ∧ (s.proc p).wchan = 0 ∧
        s'.links.prev (.proc p) = none) := by
  obtain ⟨sl, rl, hq⟩ := hq
  rw [System.swtch]
  cases hfind : (List.finRange 32).find? s.whichqs with
  | none => exact ⟨s, rfl, ⟨sl, rl, hq⟩, rfl, rfl, rfl, rfl, rfl, rfl, .inl rfl⟩
  | some i =>
    have hne : rl i ≠ [] := (hq.which i).mp (List.find?_some hfind)
    obtain ⟨p, l, hl⟩ := List.exists_cons_of_ne_nil hne
    have hring : s.links.Ring (.header i) ([] ++ Node.proc p :: l.map .proc) := by
      have hthis := hq.runners i
      rw [hl] at hthis
      exact hthis
    obtain ⟨m, t, a, next, hm, ht, ha, hnext⟩ := hring.neighbours
    have hma : a = .header i := by
      cases m with
      | nil => exact (List.cons.inj hm).1.symm
      | cons b m =>
        have hlength := congrArg List.length hm
        simp at hlength
    subst hma
    have hp : p ∈ rl i := hl ▸ List.mem_cons_self
    obtain ⟨hstat, hzero⟩ := hq.runnable p i hp
    have hpl : p ∉ l := by
      have hnodup := (List.nodup_cons.mp hring.1).2
      rw [List.nil_append] at hnodup
      exact fun hmem ↦ (List.nodup_cons.mp hnodup).1 (proc_mem.mpr hmem)
    have hnextmem : next = .header i ∧ l = [] ∨ ∃ q ∈ l, next = .proc q := by
      cases l with
      | nil =>
        left
        exact ⟨(List.cons.inj ht).1.symm, rfl⟩
      | cons q l =>
        right
        exact ⟨q, List.mem_cons_self, (List.cons.inj ht).1.symm⟩
    have hnextp : next ≠ .proc p := by
      rintro rfl
      rcases hnextmem with ⟨heq, -⟩ | ⟨q, hmem, heq⟩
      · cases heq
      · injection heq with heq
        exact hpl (heq ▸ hmem)
    have hwhich : decide (next ≠ .header i) = true ↔ l ≠ [] := by
      rcases hnextmem with ⟨rfl, hnil⟩ | ⟨q, hmem, rfl⟩
      · simp [hnil]
      · exact iff_of_true (decide_eq_true fun heq ↦ by cases heq) (List.ne_nil_of_mem hmem)
    obtain ⟨s', hs'⟩ : ∃ s' : System P, s' = { s with
        links :=
          { next := update s.links.next (.header i) (some next)
            prev := update (update s.links.prev next (s.links.prev (.proc p))) (.proc p) none }
        whichqs := update s.whichqs i (next ≠ .header i)
        curproc := some p } := ⟨_, rfl⟩
    have hproc : s'.proc = s.proc := by rw [hs']
    have hnexts : ∀ n, n ≠ .header i → s'.links.next n = s.links.next n := by
      intro n hn
      rw [hs']
      exact update_of_ne hn ..
    have hprevs : ∀ n, n ≠ next → n ≠ .proc p → s'.links.prev n = s.links.prev n := by
      intro n hn hnp
      rw [hs']
      exact (update_of_ne hnp ..).trans (update_of_ne hn ..)
    have hload : s'.load = s.load := by
      funext c
      cases c with
      | head h => rw [hs']; rfl
      | link q => exact hnexts _ fun heq ↦ by cases heq
    have hjoin : ∀ n, n ≠ .proc p → s'.links.next n = (s.links.join (.header i) next).next n ∧
        s'.links.prev n = (s.links.join (.header i) next).prev n := by
      intro n hn
      rw [hs']
      refine ⟨rfl, ?_⟩
      dsimp only [Links.join]
      rw [update_of_ne hn, ha.2]
    refine ⟨s', ?_, ⟨sl, update rl i l, fun h ↦ ?_, ?_, hq.once, ?_, fun j ↦ ?_, fun q ↦ ?_,
      fun j ↦ ?_,
      fun q j hj ↦ ?_, fun q j hj ↦ ?_⟩, hproc, ?_⟩
    · dsimp only
      rw [ha.1, deref_bind]
      dsimp only
      rw [hnext.1, deref_bind, if_neg (by rw [hstat, hzero]; simp), hs']
      exact rfl
    · rw [System.Asleep, hload]
      exact hq.sleepers h
    · rw [hproc]
      exact hq.asleep
    · rw [hs']
      exact hq.tail
    · by_cases hj : j = i
      · subst hj
        rw [update_self]
        have hremoved := hring.remove ha hnext
        rw [List.nil_append] at hremoved
        have hout : ∀ n ∈ Node.header j :: l.map .proc, n ≠ .proc p := by
          rintro n hn rfl
          rcases List.mem_cons.mp hn with heq | hn
          · cases heq
          · exact hpl (proc_mem.mp hn)
        exact hremoved.congr (fun n hn ↦ (hjoin n (hout n hn)).1) fun n hn ↦ (hjoin n (hout n hn)).2
      · rw [update_of_ne hj]
        refine (hq.runners j).congr (fun n hn ↦ hnexts n ?_) fun n hn ↦ hprevs n ?_ ?_
        · rintro rfl
          rcases List.mem_cons.mp hn with heq | hn
          · injection heq with heq
            exact hj heq.symm
          · exact header_notMem hn
        · rintro rfl
          rcases hnextmem with ⟨rfl, -⟩ | ⟨q, hmem, rfl⟩
          · rcases List.mem_cons.mp hn with heq | hn
            · injection heq with heq
              exact hj heq.symm
            · exact header_notMem hn
          · rcases List.mem_cons.mp hn with heq | hn
            · cases heq
            · have hqj := hq.index q j (proc_mem.mp hn)
              have hqi := hq.index q i (hl ▸ List.mem_cons_of_mem p hmem)
              exact hj (hqj.symm.trans hqi)
        · rintro rfl
          rcases List.mem_cons.mp hn with heq | hn
          · cases heq
          · have hpj := hq.index p j (proc_mem.mp hn)
            exact hj (hpj.symm.trans (hq.index p i hp))
    · by_cases hqp : q = p
      · subst hqp
        refine iff_of_false ?_ ?_
        · rintro ⟨j, hj⟩
          by_cases hji : j = i
          · subst hji
            rw [update_self] at hj
            exact hpl hj
          · rw [update_of_ne hji] at hj
            exact hji ((hq.index q j hj).symm.trans (hq.index q i hp))
        · rw [hs']
          exact not_not_intro (update_self ..)
      · have hsame : s'.links.prev (.proc q) ≠ none ↔ s.links.prev (.proc q) ≠ none := by
          rw [(hjoin (.proc q) fun heq ↦ hqp (by injection heq)).2]
          by_cases hqnext : Node.proc q = next
          · rw [← hqnext]
            dsimp only [Links.join]
            rw [update_self]
            refine iff_of_true (Option.some_ne_none _) ?_
            have hback := hnext.2
            rw [← hqnext] at hback
            rw [hback]
            exact Option.some_ne_none _
          · dsimp only [Links.join]
            rw [update_of_ne hqnext]
        rw [hsame, ← hq.ready q]
        refine exists_congr fun j ↦ ?_
        by_cases hj : j = i
        · subst hj
          rw [update_self, hl]
          simp [hqp]
        · rw [update_of_ne hj]
    · rw [hs']
      dsimp only
      by_cases hj : j = i
      · subst hj
        rw [update_self, update_self]
        exact hwhich
      · rw [update_of_ne hj, update_of_ne hj]
        exact hq.which j
    · have hmem : q ∈ rl j := by
        by_cases hji : j = i
        · subst hji
          rw [update_self] at hj
          rw [hl]
          exact List.mem_cons_of_mem p hj
        · rwa [update_of_ne hji] at hj
      rw [← hq.index q j hmem]
      exact rqidx_congr (congrArg (fun f ↦ (f q).pri) hproc)
    · rw [hproc]
      by_cases hji : j = i
      · subst hji
        rw [update_self] at hj
        exact hq.runnable q j (hl ▸ List.mem_cons_of_mem p hj)
      · rw [update_of_ne hji] at hj
        exact hq.runnable q j hj
    · rw [hs']
      exact ⟨rfl, rfl, rfl, rfl, rfl, .inr ⟨p, rfl, hstat, hzero, update_self ..⟩⟩

end Bsd386.Kern.Sleep
