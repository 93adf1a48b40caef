import Bsd386.Kern.Select.Steps

/-!
# No event is missed

A process goes to sleep in `select` only if nothing it has looked at has called `selwakeup` since,
and `selwakeup` leaves no process asleep that the object has recorded.
-/

namespace Bsd386.Kern.Select

open Function Sleep

variable {P X : Type} {s s' t : Kernel P X} {p q : P} {x : X} {set todo : List (Bit X)}
  {tv error : Bool}
  {ncoll : BitVec 32} {n : ℕ} [DecidableEq P]

/-! ### Falling asleep -/

omit [DecidableEq P] in
/-- Where no collision was seen there was none. -/
theorem Scanning.no_collision [Fintype X] (h : Scanning s p set todo ncoll error n)
    (hobjects : Fintype.card X < 2147483648) (hncoll : s.nselcoll = ncoll) (herror : error = false)
    (hn : n = 0)
    (hflag : s.ssel p = true) : ∃ looked, set = looked ++ todo ∧ ∀ x, .file x ∈ looked →
    s.Covered p x := by
  obtain ⟨k, hk, hcount, hlooked⟩ := h.count
  have hsmall : k < 4294967296 := by
    have hlength := h.length
    rw [maxSet] at hlength
    omega
  have hzero : BitVec.ofNat 32 k = 0 := by
    refine BitVec.add_right_inj ncoll |>.mp ?_
    rw [← hk, hncoll]
    exact (BitVec.add_zero _).symm
  have htoNat := congrArg BitVec.toNat hzero
  rw [BitVec.toNat_ofNat] at htoNat
  have hmod : k % 4294967296 = 0 := htoNat
  exact hlooked herror hn hflag (by omega)

variable [DecidableEq X] [Fintype X]

omit [DecidableEq X] in
/-- The process goes on behind `tsleep`, where it may be asleep. -/
theorem Holds.asleep_at [Fintype P] (h : Holds s)
    (hplace : s.place p = .scan set [] tv ncoll error n)
    (hcovered : ∀ x, .file x ∈ set → s.Covered p x)
    {sys : System P} (htsleep : s.sys.tsleep p s.selwait psock true tv = .ok sys) :
    Holds ({ s with ssel := update s.ssel p false, sys := sys }.goto p (.asleep set tv)) := by
  have hold := h.scanning p set _ tv ncoll error n hplace
  have hknown := h.known p (by rw [hplace]; exact fun h ↦ by cases h)
  have hexec : s.sys.exec (.tsleep s.selwait psock true tv) = .ok sys := by
    rw [System.exec, hold.outside]
    exact htsleep
  have hself : update s.place p (.asleep set tv) p = .asleep set tv := update_self ..
  have hmove : ∀ q, q ≠ p → update s.place p (.asleep set tv) q = s.place q := fun q hqp ↦
    update_of_ne hqp ..
  have hwchan : ∀ q, (sys.proc q).wchan = s.selwait → q ≠ p → (s.sys.proc q).wchan = s.selwait := by
    intro q hq hqp
    rcases tsleep_stays htsleep q (hq ▸ h.selwait) with hsame | ⟨heq, -⟩
    · rw [← hsame, hq]
    · exact absurd heq hqp
  refine ⟨h.sound.exec_ok hexec, h.selwait, h.objects, fun q hq ↦ ?_, h.hash, fun q hq ↦ ?_,
    fun q set' tv' hq hsel x hx ↦ ?_, fun q set' todo' tv' ncoll' error' n' hq ↦ ?_,
    fun q set' tv' hq ↦ ?_⟩
  · by_cases hqp : q = p
    · rw [hqp]
      exact hknown
    · exact h.known q fun hidle ↦ hq ((hmove q hqp).trans hidle)
  · by_cases hqp : q = p
    · exact ⟨set, tv, hqp ▸ hself⟩
    · obtain ⟨set', tv', hasleep⟩ := h.sleeper q (hwchan q hq hqp)
      exact ⟨set', tv', (hmove q hqp).trans hasleep⟩
  · by_cases hqp : q = p
    · rw [hqp] at hq ⊢
      cases hself.symm.trans hq
      exact hcovered x hx
    · exact h.asleep q set' tv' ((hmove q hqp).symm.trans hq) (hwchan q hsel hqp) x hx
  · by_cases hqp : q = p
    · rw [hqp] at hq
      cases hself.symm.trans hq
    · exact absurd (h.scanning_unique hold.outside ((hmove q hqp).symm.trans hq)) hqp
  · by_cases hqp : q = p
    · rw [hqp] at hq
      cases hself.symm.trans hq
      exact hold.length
    · exact h.fits q set' tv' ((hmove q hqp).symm.trans hq)

omit [DecidableEq X] in
/-- `select` behind `selscan`. -/
theorem Holds.check [Fintype P] (h : Holds s) {expired : Bool}
    (hcheck : s.check p expired = .ok s') :
    Holds s' := by
  rw [Kernel.check] at hcheck
  cases hplace : s.place p with
  | idle =>
    rw [hplace] at hcheck
    cases hcheck
    exact h
  | asleep set tv =>
    rw [hplace] at hcheck
    cases hcheck
    exact h
  | scan set todo tv ncoll error n =>
    rw [hplace] at hcheck
    cases todo with
    | cons b todo =>
      cases hcheck
      exact h
    | nil =>
      have hold := h.scanning p set _ tv ncoll error n hplace
      have hknown := h.known p (by rw [hplace]; exact fun h ↦ by cases h)
      dsimp only at hcheck
      by_cases hfound : error = true ∨ n ≠ 0
      · rw [if_pos hfound] at hcheck
        cases hcheck
        exact h.idle hold.outside s.ssel
      rw [if_neg hfound] at hcheck
      by_cases hexpired : tv = true ∧ expired = true
      · rw [if_pos hexpired] at hcheck
        cases hcheck
        exact h.idle hold.outside _
      rw [if_neg hexpired] at hcheck
      by_cases hretry : s.ssel p = false ∨ s.nselcoll ≠ ncoll
      · rw [if_pos hretry] at hcheck
        cases hcheck
        exact h.retry hold.outside hknown hold.length tv
      rw [if_neg hretry] at hcheck
      obtain ⟨sys, htsleep, hcheck⟩ := bind_eq_ok hcheck
      cases hcheck
      obtain ⟨hflag, hncoll⟩ := not_or.mp hretry
      obtain ⟨herror, hn⟩ := not_or.mp hfound
      obtain ⟨looked, hsplit, hcovered⟩ := hold.no_collision h.objects (not_not.mp hncoll)
        (Bool.eq_false_iff.mpr herror) (not_not.mp hn) (Bool.eq_true_of_not_eq_false hflag)
      rw [List.append_nil] at hsplit
      exact h.asleep_at hplace (fun x hx ↦ hcovered x (hsplit ▸ hx)) htsleep

omit [DecidableEq X] in
/-- `select` behind `tsleep`. -/
theorem Holds.resume (h : Holds s) (hout : s.sys.outside = some p) : Holds (s.resume p) := by
  rw [Kernel.resume]
  cases hplace : s.place p with
  | idle => exact h
  | scan set todo tv ncoll error n => exact h
  | asleep set tv =>
    have hknown := h.known p (by rw [hplace]; exact fun h ↦ by cases h)
    dsimp only
    cases s.sys.value p with
    | zero => exact h.retry hout hknown (h.fits p set tv hplace) tv
    | _ => exact h.idle hout s.ssel

/-! ### Waking -/

variable [Fintype P]

/-- What `selwakeup` does: processes that sleep on `selwait` are woken, and flags `SSEL` are
cleared. -/
structure Told (s t : Kernel P X) : Prop where
  rest : t = { s with sys := t.sys, nselcoll := t.nselcoll, ssel := t.ssel }
  sound : Sound t.sys
  outside : t.sys.outside = s.sys.outside
  proc : ∀ q, t.sys.proc q = s.sys.proc q ∨ t.sys.proc q = (s.sys.proc q).woken s.selwait
  ssel : ∀ q, t.ssel q = true → s.ssel q = true

omit [DecidableEq P] [DecidableEq X] [Fintype X] [Fintype P] in
theorem Told.wchan (h : Told s t) (hsel : s.selwait ≠ 0) (hq : (t.sys.proc q).wchan = s.selwait) :
    t.sys.proc q = s.sys.proc q := by
  rcases h.proc q with hsame | hwoken
  · exact hsame
  · rw [hwoken, Proc.woken] at hq ⊢
    by_cases hchan : (s.sys.proc q).wchan = s.selwait ∧ s.selwait ≠ 0
    · rw [if_pos hchan] at hq
      exact absurd hq.symm hsel
    · rw [if_neg hchan]

omit [DecidableEq P] [DecidableEq X] [Fintype X] [Fintype P] in
theorem Told.trans {u : Kernel P X} (h : Told s t) (h' : Told t u) : Told s u := by
  have hselwait : t.selwait = s.selwait := by rw [h.rest]
  refine ⟨?_, h'.sound, h'.outside.trans h.outside, fun q ↦ ?_, fun q hq ↦ h.ssel q (h'.ssel q hq)⟩
  · have hrest := h'.rest
    rw [h.rest] at hrest
    exact hrest
  · have hproc := h'.proc q
    rw [hselwait] at hproc
    rcases h.proc q with hsame | hwoken
    · rwa [hsame] at hproc
    · have htwice : ((s.sys.proc q).woken s.selwait).woken s.selwait =
        (s.sys.proc q).woken s.selwait := by
        rw [Proc.woken, Proc.woken]
        by_cases hchan : (s.sys.proc q).wchan = s.selwait ∧ s.selwait ≠ 0
        · rw [if_pos hchan]
          exact if_neg fun h ↦ h.2 h.1.symm
        · rw [if_neg hchan, if_neg hchan]
      rw [hwoken, htwice] at hproc
      exact .inr (hproc.elim id id)

omit [DecidableEq X] [Fintype X] in
/-- A collision wakes everybody. -/
theorem collision_told (hsound : Sound s.sys) (hsel : s.selwait ≠ 0) :
    ∃ t, s.collision = .ok t ∧ Told s t ∧ t.nselcoll = s.nselcoll + 1 ∧
      ∀ q, (t.sys.proc q).wchan ≠ s.selwait := by
  obtain ⟨sys, hrun, hq, hcalm, hproc⟩ := hsound.queued.wakeup_calm s.selwait hsound.waits
  refine ⟨{ s with nselcoll := s.nselcoll + 1, sys := sys }, ?_, ⟨rfl, hsound.calm hq hcalm,
    outside_congr hcalm.same.curproc hcalm.same.pc, fun q ↦ .inr (congrFun hproc q), fun _ ↦
    id⟩, rfl,
    fun q ↦ ?_⟩
  · rw [Kernel.collision, hrun]
    rfl
  · change (sys.proc q).wchan ≠ s.selwait
    rw [congrFun hproc q, Proc.woken]
    by_cases hchan : (s.sys.proc q).wchan = s.selwait ∧ s.selwait ≠ 0
    · rw [if_pos hchan]
      exact hsel.symm
    · rw [if_neg hchan]
      exact fun heq ↦ hchan ⟨heq, hsel⟩

omit [DecidableEq X] [Fintype X] in
/-- The process that the object has recorded is woken, or loses its flag. -/
theorem notify_told {pid : ℕ} (hsound : Sound s.sys) (hsel : s.selwait ≠ 0) (hpid : pid ≠ 0) :
    ∃ t, s.notify pid = .ok t ∧ Told s t ∧ t.nselcoll = s.nselcoll ∧
      ∀ q, s.pidhash pid = some q →
        (t.sys.proc q).wchan ≠ s.selwait ∧ ((s.sys.proc q).wchan = s.selwait ∨
          t.ssel q = false) := by
  rw [Kernel.notify, if_neg hpid]
  cases hfind : s.pidhash pid with
  | none => exact ⟨s, rfl, ⟨rfl, hsound, rfl, fun _ ↦ .inl rfl, fun _ ↦ id⟩, rfl, fun q hq ↦ by cases hq⟩
  | some p =>
    dsimp only
    by_cases hchan : (s.sys.proc p).wchan = s.selwait
    · rw [if_pos hchan]
      have hwaits := hsound.waits p (by rw [hchan]; exact hsel)
      -- `setrun` and `unsleep` do here what `wakeup` does.
      obtain ⟨sys, hrun, hq, hcalm, hproc⟩ : ∃ sys,
          (if (s.sys.proc p).stat = .ssleep then s.sys.setrun p else s.sys.unsleep p) = .ok sys ∧
          Queued sys ∧ Calm (fun _ ↦ False) s.sys sys ∧
          sys.proc = update s.sys.proc p ((s.sys.proc p).woken s.selwait) := by
        have hwoken : (s.sys.proc p).woken s.selwait = { s.sys.proc p with
            wchan := 0
            stat := if (s.sys.proc p).stat = .ssleep then .srun else (s.sys.proc p).stat } :=
          if_pos ⟨hchan, hsel⟩
        rw [hwoken]
        by_cases hstat : (s.sys.proc p).stat = .ssleep
        · simp only [if_pos hstat]
          exact hsound.queued.setrun_calm (.inl hwaits)
        · simp only [if_neg hstat]
          exact hsound.queued.unsleep_calm (hsound.running_or p)
      refine ⟨{ s with sys := sys }, ?_, ⟨rfl, hsound.calm hq hcalm,
        outside_congr hcalm.same.curproc hcalm.same.pc, fun q ↦ ?_, fun _ ↦ id⟩, rfl, fun q hq ↦ ?_⟩
      · by_cases hstat : (s.sys.proc p).stat = .ssleep
        · rw [if_pos hstat] at hrun ⊢
          rw [hrun]
          rfl
        · rw [if_neg hstat] at hrun ⊢
          rw [hrun]
          rfl
      · change sys.proc q = _ ∨ sys.proc q = _
        rw [hproc]
        by_cases hqp : q = p
        · rw [hqp, update_self]
          exact .inr rfl
        · rw [update_of_ne hqp]
          exact .inl rfl
      · cases hq
        refine ⟨?_, .inl hchan⟩
        change (sys.proc p).wchan ≠ s.selwait
        rw [hproc, update_self, Proc.woken, if_pos ⟨hchan, hsel⟩]
        exact hsel.symm
    · rw [if_neg hchan]
      refine ⟨_, rfl, ⟨rfl, hsound, rfl, fun _ ↦ .inl rfl, fun q hq ↦ ?_⟩, rfl, fun q hq ↦ ?_⟩
      · change update s.ssel p false q = true at hq
        by_cases hqp : q = p
        · rw [hqp, update_self] at hq
          cases hq
        · rwa [update_of_ne hqp] at hq
      · cases hq
        exact ⟨hchan, .inr (update_self ..)⟩

omit [DecidableEq X] [Fintype X] in
/-- After `selwakeup` no process that the object has recorded sleeps, or goes to sleep without
another scan. -/
theorem selwakeup_told (coll : Bool) {pid : ℕ} (hsound : Sound s.sys) (hsel : s.selwait ≠ 0)
    (hpid : pid ≠ 0) :
    ∃ t, s.selwakeup pid coll = .ok t ∧ Told s t ∧
      (coll = true → t.nselcoll = s.nselcoll + 1 ∧ ∀ q, (t.sys.proc q).wchan ≠ s.selwait) ∧
      (coll = false → t.nselcoll = s.nselcoll ∧ ∀ q, s.pidhash pid = some q →
        (t.sys.proc q).wchan ≠ s.selwait ∧ ((s.sys.proc q).wchan = s.selwait ∨
          t.ssel q = false)) := by
  cases coll with
  | false =>
    obtain ⟨t, hrun, htold, hnselcoll, hfound⟩ := notify_told hsound hsel hpid
    refine ⟨t, hrun, htold, fun hcoll ↦ ?_, fun _ ↦ ⟨hnselcoll, hfound⟩⟩
    cases hcoll
  | true =>
    obtain ⟨t, hrun, htold, hnselcoll, hnone⟩ := collision_told hsound hsel
    have hselwait : t.selwait = s.selwait := by rw [htold.rest]
    obtain ⟨u, hrun', htold', hnselcoll', -⟩ := notify_told htold.sound (hselwait ▸ hsel) hpid
    refine ⟨u, ?_, htold.trans htold', fun _ ↦ ⟨hnselcoll'.trans hnselcoll, fun q hq ↦ ?_⟩,
      fun hcoll ↦ ?_⟩
    · rw [Kernel.selwakeup, if_pos rfl, hrun]
      exact hrun'
    · have hsame := htold'.wchan (hselwait ▸ hsel) (hselwait ▸ hq)
      rw [hsame] at hq
      exact hnone q hq
    · cases hcoll

omit [DecidableEq P] [Fintype P] in
/-- An object forgets what it has recorded, once it has told. -/
theorem Holds.forget (h : Holds s) (j : ℕ)
    (hrest : s' = { s with
      sys := s'.sys
      nselcoll := s'.nselcoll
      ssel := s'.ssel
      sel := s'.sel
      coll := s'.coll
      owed := update s.owed x false })
    (hsound : Sound s'.sys) (hout : s'.sys.outside = s.sys.outside)
    (hwchan : ∀ q, (s'.sys.proc q).wchan = s.selwait → (s.sys.proc q).wchan = s.selwait)
    (hssel : ∀ q, s'.ssel q = true → s.ssel q = true)
    (hother : ∀ y, y ≠ x → s'.sel y = s.sel y ∧ s'.coll y = s.coll y)
    (hncoll : s'.nselcoll = s.nselcoll + BitVec.ofNat 32 j)
    (hcount : j + s'.collisions ≤ s.collisions)
    (htold : ∀ q, s.pidhash (s.pid q) = some q → s.Recorded q x →
      (s'.sys.proc q).wchan ≠ s.selwait ∧ (j = 0 → (s.sys.proc q).wchan = s.selwait ∨
        s'.ssel q = false)) :
    Holds s' := by
  have hselwait : s'.selwait = s.selwait := by rw [hrest]
  have hpid : s'.pid = s.pid := by rw [hrest]
  have hhash : s'.pidhash = s.pidhash := by rw [hrest]
  have hplace : s'.place = s.place := by rw [hrest]
  have hready : s'.ready = s.ready := by rw [hrest]
  have hdue : s'.due = s.due := by rw [hrest]
  have howed : s'.owed = update s.owed x false := by rw [hrest]
  have hcovered : ∀ q y, y ≠ x → s.Covered q y → s'.Covered q y := by
    intro q y hyx hq
    rw [Kernel.Covered, Kernel.Recorded, (hother y hyx).1, (hother y hyx).2, hpid, hdue, howed,
      update_of_ne hyx]
    exact hq
  refine ⟨hsound, hselwait ▸ h.selwait, h.objects, fun q hq ↦ ?_, ?_, fun q hq ↦ ?_,
    fun q set tv hq hsel y hy ↦ ?_, fun q set todo tv ncoll error n hq ↦ ?_, fun q set tv hq ↦ ?_⟩
  · rw [hplace] at hq
    rw [hpid, hhash]
    exact h.known q hq
  · rw [hpid, hhash]
    exact h.hash
  · rw [hselwait] at hq
    rw [hplace]
    exact h.sleeper q (hwchan q hq)
  · rw [hselwait] at hsel
    rw [hplace] at hq
    have hold := h.asleep q set tv hq (hwchan q hsel) y hy
    by_cases hyx : y = x
    · have hknown := h.known q (by rw [hq]; exact fun h ↦ by cases h)
      exact absurd hsel (htold q hknown (hyx ▸ hold.1)).1
    · exact hcovered q y hyx hold
  · rw [hplace] at hq
    have hknown := h.known q (by rw [hq]; exact fun h ↦ by cases h)
    have hold := h.scanning q set todo tv ncoll error n hq
    obtain ⟨k, hk, hbound, hlooked⟩ := hold.count
    refine ⟨hout.trans hold.outside, hold.length,
      ⟨k + j, ?_, by omega, fun herror hn hflag hzero ↦ ?_⟩,
      fun y hy hset ↦ ?_⟩
    · rw [hncoll, hk, BitVec.ofNat_add, BitVec.add_assoc]
    · obtain ⟨looked, hsplit, hlook⟩ := hlooked herror hn (hssel q hflag) (by omega)
      refine ⟨looked, hsplit, fun y hy ↦ ?_⟩
      by_cases hyx : y = x
      · rcases (htold q hknown (hyx ▸ (hlook y hy).1)).2 (by omega) with hsel | hclear
        · exact absurd hsel (h.wchan_ne hold.outside)
        · exact absurd (hclear.symm.trans hflag) Bool.false_ne_true
      · exact hcovered q y hyx (hlook y hy)
    · rw [hdue] at hset
      rw [hready]
      exact hold.todo y hy hset
  · rw [hplace] at hq
    exact h.fits q set tv hq

/-- `sbwakeup` wakes processes and does nothing else but to forget whom it has told. -/
theorem Holds.sbwakeup (h : Holds s) (x : X) :
    ∃ s', s.exec (.sbwakeup x) = .ok s' ∧ Holds s' ∧ s'.place = s.place ∧ s'.ready = s.ready ∧
      ∀ q, s'.sys.proc q = s.sys.proc q ∨ s'.sys.proc q = (s.sys.proc q).woken s.selwait := by
  rw [Kernel.exec, Kernel.sbwakeup]
  by_cases hsel : s.sel x = 0
  · refine ⟨{ s with owed := update s.owed x false }, ?_, ?_, rfl, rfl, fun _ ↦ .inl rfl⟩
    · rw [if_neg (not_not_intro hsel)]
      rfl
    · refine h.forget 0 rfl h.sound rfl (fun _ ↦ id) (fun _ ↦ id) (fun _ _ ↦ ⟨rfl, rfl⟩)
        (BitVec.add_zero _).symm (Nat.zero_add _).le fun q hknown hrecorded ↦ ?_
      rcases hrecorded with hpid | ⟨-, hne⟩
      · exact absurd (hpid.symm.trans hsel) (h.hash _ q hknown).1
      · exact absurd hsel hne
  · obtain ⟨t, hrun, htold, hcoll, hplain⟩ := selwakeup_told (s.coll x) h.sound h.selwait hsel
    have hsel' : t.sel = s.sel := by rw [htold.rest]
    have hcoll' : t.coll = s.coll := by rw [htold.rest]
    have howed' : t.owed = s.owed := by rw [htold.rest]
    obtain ⟨s', hs'⟩ : ∃ s', s' = { t with
        sel := update t.sel x 0
        coll := update t.coll x false
        owed := update t.owed x false } := ⟨_, rfl⟩
    have hsys : s'.sys = t.sys := by rw [hs']
    have hnselcoll : s'.nselcoll = t.nselcoll := by rw [hs']
    have hssel : s'.ssel = t.ssel := by rw [hs']
    have hother : ∀ y, y ≠ x → s'.sel y = s.sel y ∧ s'.coll y = s.coll y := by
      intro y hyx
      rw [hs', hsel', hcoll']
      exact ⟨update_of_ne hyx .., update_of_ne hyx ..⟩
    have hwchan : ∀ q, (s'.sys.proc q).wchan = s.selwait → (s.sys.proc q).wchan = s.selwait := by
      intro q hq
      rw [hsys] at hq
      rw [← htold.wchan h.selwait hq, hq]
    have hcells : s'.coll = update s.coll x false := by rw [hs', hcoll']
    have hrest : s' = { s with
        sys := s'.sys
        nselcoll := s'.nselcoll
        ssel := s'.ssel
        sel := s'.sel
        coll := s'.coll
        owed := update s.owed x false } := by
      rw [hs', howed', htold.rest]
    refine ⟨s', ?_, ?_, by rw [hrest], by rw [hrest], fun q ↦ by rw [hsys]; exact htold.proc q⟩
    · rw [if_pos hsel, hrun, hs']
      rfl
    · cases hset : s.coll x with
      | true =>
        obtain ⟨hcount, hnone⟩ := hcoll hset
        refine h.forget 1 hrest (hsys ▸ htold.sound) (hsys ▸ htold.outside) hwchan
          (hssel ▸ htold.ssel)
          hother (hnselcoll.trans hcount) ?_ fun q _ _ ↦ ⟨hsys ▸ hnone q, fun h ↦ by cases h⟩
        have herase : (Finset.univ.filter fun y ↦ s'.coll y = true) =
            (Finset.univ.filter fun y ↦ s.coll y = true).erase x := by
          ext y
          rw [Finset.mem_erase, Finset.mem_filter, Finset.mem_filter, hcells]
          by_cases hyx : y = x
          · rw [hyx, update_self]
            exact iff_of_false (fun h ↦ by cases h.2) fun h ↦ h.1 rfl
          · rw [update_of_ne hyx]
            exact ⟨fun h ↦ ⟨hyx, h⟩, fun h ↦ h.2⟩
        have hmem : x ∈ Finset.univ.filter fun y ↦ s.coll y = true :=
          Finset.mem_filter.mpr ⟨Finset.mem_univ x, hset⟩
        rw [Kernel.collisions, Kernel.collisions, herase, Nat.add_comm]
        exact (Finset.card_erase_add_one hmem).le
      | false =>
        obtain ⟨hcount, hfound⟩ := hplain hset
        have hsame : s'.coll = s.coll := by rw [hcells, ← hset, update_eq_self]
        refine h.forget 0 hrest (hsys ▸ htold.sound) (hsys ▸ htold.outside) hwchan
          (hssel ▸ htold.ssel)
          hother ?_ ?_ fun q hknown hrecorded ↦ ?_
        · rw [hnselcoll, hcount]
          exact (BitVec.add_zero _).symm
        · rw [Kernel.collisions, Kernel.collisions, hsame, Nat.zero_add]
        · rcases hrecorded with hpid | ⟨hyes, -⟩
          · rw [hsys, hssel]
            obtain ⟨hawake, hclear⟩ := hfound q (hpid ▸ hknown)
            exact ⟨hawake, fun _ ↦ hclear⟩
          · exact absurd (hset.symm.trans hyes) Bool.false_ne_true

/-! ### Runs -/

theorem Holds.exec {c : Call P X} (h : Holds s) (hexec : s.exec c = .ok s') : Holds s' := by
  have hrunning : ∀ {f : P → Kernel P X → Except Fault (Kernel P X)}, s.running f = .ok s' →
      (∀ p, s.sys.outside = some p → f p s = .ok s' → Holds s') → Holds s' := by
    intro f hrun hf
    rw [Kernel.running] at hrun
    cases hout : s.sys.outside with
    | none =>
      rw [hout] at hrun
      cases hrun
      exact h
    | some p =>
      rw [hout] at hrun
      exact hf p hout hrun
  cases c with
  | kernel e =>
    rw [Kernel.exec] at hexec
    by_cases hpermitted : s.permitted e = true
    · rw [if_pos hpermitted] at hexec
      obtain ⟨sys, hsys, hexec⟩ := bind_eq_ok hexec
      cases hexec
      exact h.kernel hpermitted hsys
    · rw [if_neg hpermitted] at hexec
      cases hexec
      exact h
  | select set tv =>
    rw [Kernel.exec] at hexec
    refine hrunning hexec fun p hout hrun ↦ ?_
    cases hrun
    rw [Kernel.enter]
    cases hplace : s.place p with
    | scan set todo tv ncoll error n => exact h
    | asleep set tv => exact h
    | idle =>
      dsimp only
      by_cases hok : s.pidhash (s.pid p) = some p ∧ set.length ≤ maxSet
      · rw [if_pos hok]
        exact h.retry hout hok.1 hok.2 tv
      · rw [if_neg hok]
        exact h
  | selscan =>
    rw [Kernel.exec] at hexec
    refine hrunning hexec fun p _ hrun ↦ ?_
    cases hrun
    exact h.look p
  | check expired => exact hrunning hexec fun p _ hrun ↦ h.check hrun
  | resume =>
    rw [Kernel.exec] at hexec
    refine hrunning hexec fun p hout hrun ↦ ?_
    cases hrun
    exact h.resume hout
  | ready x =>
    cases hexec
    exact h.ready x
  | unready x =>
    rw [Kernel.exec] at hexec
    by_cases hlook : s.toLook x = true
    · rw [if_pos hlook] at hexec
      cases hexec
      exact h
    · rw [if_neg hlook] at hexec
      cases hexec
      exact h.unready (Bool.eq_false_iff.mpr hlook)
  | sbwakeup x =>
    obtain ⟨t, hrun, ht, -⟩ := h.sbwakeup x
    cases hrun.symm.trans hexec
    exact ht
  | enterpid p n =>
    rw [Kernel.exec] at hexec
    by_cases hok : n ≠ 0 ∧ s.pidhash n = none ∧ s.pidhash (s.pid p) ≠ some p
    · rw [if_pos hok] at hexec
      cases hexec
      exact h.enterpid hok.1 hok.2.1 hok.2.2
    · rw [if_neg hok] at hexec
      cases hexec
      exact h
  | leavepid p =>
    cases hexec
    exact h.leavepid p

theorem Reach.holds (hreach : Reach s) : Holds s := by
  induction hreach with
  | start hinit => exact hinit.holds
  | step _ hexec ih => exact ih.exec hexec

/-- A process that sleeps on `selwait` is in `select`, and nothing that it selects has become ready
since its last scan began, unless `sbwakeup` is still to be called for it. `sbwakeup` always
returns, whoever it finds by the pid that was recorded: it does no more to a process than `wakeup`
does to one that sleeps there. -/
theorem select_misses_nothing {s : Kernel P X} (hreach : Reach s) :
    (∀ p, (s.sys.proc p).wchan = s.selwait → ∃ set tv, s.place p = .asleep set tv ∧
      ∀ x, .file x ∈ set → s.due p x = true → s.owed x = true) ∧
    ∀ x, ∃ s', s.exec (.sbwakeup x) = .ok s' ∧ s'.place = s.place ∧ s'.ready = s.ready ∧
      ∀ p, s'.sys.proc p = s.sys.proc p ∨ s'.sys.proc p = (s.sys.proc p).woken s.selwait := by
  have h := hreach.holds
  refine ⟨fun p hp ↦ ?_, fun x ↦ ?_⟩
  · obtain ⟨set, tv, hplace⟩ := h.sleeper p hp
    exact ⟨set, tv, hplace, fun x hx ↦ (h.asleep p set tv hplace hp x hx).2⟩
  · obtain ⟨s', hrun, -, hrest⟩ := h.sbwakeup x
    exact ⟨s', hrun, hrest⟩

/-- Two processes and a socket buffer. -/
def twoSelecting : Kernel Bool Unit where
  sys := twoProcesses
  selwait := 32
  nselcoll := 0
  ssel _ := false
  pid _ := 0
  pidhash _ := none
  sel _ := 0
  coll _ := false
  ready _ := false
  owed _ := false
  place _ := .idle
  due _ _ := false

theorem twoSelecting_initial : Initial twoSelecting :=
  ⟨twoProcesses_initial, by decide, by decide, fun _ ↦ rfl, fun _ ↦ rfl⟩

/-- One of them sleeps in `select` when the socket buffer becomes ready, and `sbwakeup` is still to
be called. -/
theorem twoSelecting_select : ∃ s s' : Kernel Bool Unit,
    (s.sys.proc true).wchan = s.selwait ∧ s.place true = .asleep [.file ()] false ∧
    s.due true () = true ∧
      s.owed () = true ∧ s.exec (.sbwakeup ()) = .ok s' := by
  obtain ⟨s₁, s₂, s₃, s₄, s, h₁, h₂, h₃, h₄, h₅, hwchan, hplace, hdue⟩ : ∃ s₁ s₂ s₃ s₄ s :
    Kernel Bool Unit,
      twoSelecting.exec (.enterpid true 1) = .ok s₁ ∧ s₁.exec (.select [.file ()] false) = .ok s₂ ∧
      s₂.exec .selscan = .ok s₃ ∧ s₃.exec (.check false) = .ok s₄ ∧ s₄.exec (.ready ()) = .ok s ∧
      (s.sys.proc true).wchan = s.selwait ∧ s.place true = .asleep [.file ()] false ∧
      s.due true () = true := ⟨_, _, _, _, _, rfl, rfl, rfl, rfl, rfl, rfl, rfl, rfl⟩
  have hreach := ((((Reach.start twoSelecting_initial).step h₁).step h₂).step h₃).step h₄
  obtain ⟨hsafe, hwakes⟩ := select_misses_nothing (hreach.step h₅)
  obtain ⟨set, tv, hasleep, howed⟩ := hsafe true hwchan
  obtain ⟨s', hrun, -⟩ := hwakes ()
  cases hplace.symm.trans hasleep
  exact ⟨s, s', hwchan, hplace, hdue, howed () (List.mem_singleton.mpr rfl) hdue, hrun⟩

end Bsd386.Kern.Select
