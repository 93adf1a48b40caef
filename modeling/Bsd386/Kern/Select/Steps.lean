import Bsd386.Kern.Select.Basic

/-!
# The steps of `select`
-/

namespace Bsd386.Kern.Select

open Function Sleep

variable {P X : Type} [Fintype X] {s s' : Kernel P X} {p q : P} {x : X} {set todo : List (Bit X)}
  {tv error : Bool} {ncoll : BitVec 32} {n : ℕ}

/-- Only the process that runs scans. -/
theorem Holds.scanning_unique (h : Holds s) (hout : s.sys.outside = some p)
    (hq : s.place q = .scan set todo tv ncoll error n) : q = p :=
  Option.some.inj ((h.scanning q set todo tv ncoll error n hq).outside.symm.trans hout)

variable [DecidableEq P]

/-- The process that runs goes on elsewhere, where it does not sleep, with its own flag and its own
objects changed. -/
theorem Holds.place (h : Holds s) (hout : s.sys.outside = some p) (place : Place X)
    (ssel : P → Bool)
    (due : X → Bool) (hasleep : ∀ set tv, place ≠ .asleep set tv)
    (hknown : place ≠ .idle → s.pidhash (s.pid p) = some p)
    (hscan : ∀ set todo tv ncoll error n, place = .scan set todo tv ncoll error n →
      Scanning { s with ssel := ssel, due := update s.due p due, place := update s.place p place } p
        set todo
        ncoll error n) :
    Holds { s with ssel := ssel, due := update s.due p due, place := update s.place p place } := by
  refine ⟨h.sound, h.selwait, h.objects, fun q hq ↦ ?_, h.hash, fun q hq ↦ ?_,
    fun q set tv hq hwchan ↦ ?_,
    fun q set todo tv ncoll error n hq ↦ ?_, fun q set tv hq ↦ ?_⟩
  · by_cases hqp : q = p
    · subst hqp
      exact hknown fun heq ↦ hq ((update_self ..).trans heq)
    · exact h.known q fun heq ↦ hq ((update_of_ne hqp ..).trans heq)
  · have hqp : q ≠ p := fun heq ↦ h.wchan_ne hout (heq ▸ hq)
    obtain ⟨set, tv, hplace⟩ := h.sleeper q hq
    exact ⟨set, tv, (update_of_ne hqp ..).trans hplace⟩
  · have hqp : q ≠ p := fun heq ↦ h.wchan_ne hout (heq ▸ hwchan)
    have hdue : update s.due p due q = s.due q := update_of_ne hqp ..
    intro x hx
    obtain ⟨hrecorded, howed⟩ := h.asleep q set tv ((update_of_ne hqp ..).symm.trans hq) hwchan x hx
    refine ⟨hrecorded, fun hset ↦ howed ?_⟩
    rw [← hdue]
    exact hset
  · by_cases hqp : q = p
    · have hself : update s.place p place p = place := update_self ..
      rw [hqp] at hq ⊢
      exact hscan set todo tv ncoll error n (hself.symm.trans hq)
    · exact absurd (h.scanning_unique hout ((update_of_ne hqp ..).symm.trans hq)) hqp
  · by_cases hqp : q = p
    · have hself : update s.place p place p = place := update_self ..
      rw [hqp] at hq
      exact absurd (hself.symm.trans hq) (hasleep set tv)
    · exact h.fits q set tv ((update_of_ne hqp ..).symm.trans hq)

omit [Fintype X] in
/-- A state with what it has. -/
theorem eta (s : Kernel P X) (p : P) (place : Place X) (ssel : P → Bool) :
    { s with ssel := ssel, due := update s.due p (s.due p), place := update s.place p place } =
      { s with ssel := ssel }.goto p place := by
  rw [update_eq_self]
  rfl

/-- `select` returns. -/
theorem Holds.idle (h : Holds s) (hout : s.sys.outside = some p) (ssel : P → Bool) :
    Holds ({ s with ssel := ssel }.goto p .idle) := by
  rw [← eta]
  exact h.place hout .idle ssel (s.due p) (fun _ _ h ↦ by cases h) (fun h ↦ absurd rfl h)
    fun _ _ _ _ _ _ h ↦ by cases h

/-- A scan begins. -/
theorem Holds.retry (h : Holds s) (hout : s.sys.outside = some p)
    (hknown : s.pidhash (s.pid p) = some p)
    (hlength : set.length ≤ maxSet) (tv : Bool) : Holds (s.retry p set tv) := by
  refine h.place hout _ _ _ (fun _ _ h ↦ by cases h) (fun _ ↦ hknown)
    fun set' todo tv' ncoll error n heq ↦ ?_
  cases heq
  refine ⟨hout, hlength, ⟨0, ?_, ?_, fun _ _ _ _ ↦ ⟨[], rfl, fun x hx ↦ by cases hx⟩⟩,
    fun x _ hdue ↦ ?_⟩
  · exact (BitVec.add_zero _).symm
  · have hcard : s.collisions ≤ Fintype.card X := Finset.card_le_univ _
    change 0 + s.collisions + set.length ≤ Fintype.card X + set.length
    omega
  · change update s.due p (fun _ ↦ false) p x = true at hdue
    rw [update_self] at hdue
    cases hdue

/-- `selscan` is past a descriptor, which is of no file or is ready. -/
theorem Holds.past (h : Holds s) (hplace : s.place p = .scan set todo tv ncoll error n)
    {rest : List (Bit X)} {error' : Bool} {n' : ℕ} (hrest : ∀ b ∈ rest, b ∈ todo)
    (hlength : rest.length ≤ todo.length) (hfound : error' = true ∨ n' ≠ 0) :
    Holds (s.goto p (.scan set rest tv ncoll error' n')) := by
  have hold := h.scanning p set todo tv ncoll error n hplace
  have hthis := h.place hold.outside (.scan set rest tv ncoll error' n') s.ssel (s.due p)
    (fun _ _ h ↦ by cases h) (fun _ ↦ h.known p (by rw [hplace]; exact fun h ↦ by cases h))
    fun set' todo' tv' ncoll' error'' n'' heq ↦ ?_
  · rw [eta] at hthis
    exact hthis
  · cases heq
    obtain ⟨k, hk, hcount, -⟩ := hold.count
    rw [eta]
    refine ⟨hold.outside, hold.length, ⟨k, hk, ?_, fun herror hn ↦ ?_⟩,
      fun x hx ↦ hold.todo x (hrest _ hx)⟩
    · change k + s.collisions + rest.length ≤ Fintype.card X + set.length
      omega
    · rcases hfound with hfound | hfound
      · exact absurd (herror.symm.trans hfound) Bool.false_ne_true
      · exact absurd hn hfound

variable [DecidableEq X]

omit [Fintype X] [DecidableEq P] in
theorem sbselqueue_rest (x : X) (p : P) (s : Kernel P X) :
    (s.sbselqueue x p).sys = s.sys ∧ (s.sbselqueue x p).selwait = s.selwait ∧
      (s.sbselqueue x p).nselcoll = s.nselcoll ∧ (s.sbselqueue x p).ssel = s.ssel ∧
      (s.sbselqueue x p).pid = s.pid ∧ (s.sbselqueue x p).pidhash = s.pidhash ∧
      (s.sbselqueue x p).ready = s.ready ∧ (s.sbselqueue x p).owed = s.owed ∧
      (s.sbselqueue x p).place = s.place ∧ (s.sbselqueue x p).due = s.due := by
  rw [Kernel.sbselqueue]
  split_ifs <;> exact ⟨rfl, rfl, rfl, rfl, rfl, rfl, rfl, rfl, rfl, rfl⟩

omit [DecidableEq P] in
/-- The object records the process, and forgets none that sleeps. -/
theorem Holds.recorded (h : Holds s) (hknown : s.pidhash (s.pid p) = some p) (x : X) :
    (s.sbselqueue x p).Recorded p x ∧ ∀ q y, s.Recorded q y →
      (q = p ∨ (s.sys.proc q).wchan = s.selwait ∧ s.pidhash (s.pid q) = some q) →
      (s.sbselqueue x p).Recorded q y := by
  have hpid : s.pid p ≠ 0 := (h.hash _ p hknown).1
  rw [Kernel.sbselqueue]
  by_cases hcoll : s.sel x ≠ 0 ∧ s.selecting (s.sel x) = true
  · rw [if_pos hcoll]
    refine ⟨.inr ⟨update_self .., hcoll.1⟩, fun q y hrecorded _ ↦ ?_⟩
    refine hrecorded.imp id fun hy ↦ ⟨?_, hy.2⟩
    change update s.coll x true y = true
    by_cases hyx : y = x
    · rw [hyx, update_self]
    · rw [update_of_ne hyx]
      exact hy.1
  · rw [if_neg hcoll]
    refine ⟨.inl (update_self ..), fun q y hrecorded hq ↦ ?_⟩
    by_cases hyx : y = x
    · subst hyx
      have hself : update s.sel y (s.pid p) y = s.pid p := update_self ..
      rcases hrecorded with hsel | ⟨hset, -⟩
      · rcases hq with rfl | ⟨hwchan, hhash⟩
        · exact .inl hself
        · refine absurd ⟨?_, ?_⟩ hcoll
          · rw [hsel]
            exact (h.hash _ q hhash).1
          · rw [hsel, Kernel.selecting, hhash]
            exact decide_eq_true hwchan
      · refine .inr ⟨hset, ?_⟩
        change update s.sel y (s.pid p) y ≠ 0
        rw [hself]
        exact hpid
    · have hother : update s.sel x (s.pid p) y = s.sel y := update_of_ne hyx ..
      refine hrecorded.imp (fun hsel ↦ hother.trans hsel) fun hy ↦ ⟨hy.1, ?_⟩
      change update s.sel x (s.pid p) y ≠ 0
      rw [hother]
      exact hy.2

omit [DecidableEq P] in
/-- At most one collision is new. -/
theorem collisions_sbselqueue (x : X) (p : P) (s : Kernel P X) :
    (s.sbselqueue x p).collisions ≤ s.collisions + 1 := by
  rw [Kernel.sbselqueue]
  split_ifs
  · have hsub : (Finset.univ.filter fun y ↦ update s.coll x true y = true) ⊆
        insert x (Finset.univ.filter fun y ↦ s.coll y = true) := by
      intro y hy
      by_cases hyx : y = x
      · rw [hyx]
        exact Finset.mem_insert_self x _
      · rw [Finset.mem_filter, update_of_ne hyx] at hy
        exact Finset.mem_insert_of_mem (Finset.mem_filter.mpr hy)
    exact (Finset.card_le_card hsub).trans (Finset.card_insert_le x _)
  · exact Nat.le_succ _

/-- `selscan` is past a descriptor that is not ready, and has recorded the process there. -/
theorem Holds.queued (h : Holds s)
    (hplace : s.place p = .scan set (.file x :: todo) tv ncoll error n)
    (hready : s.ready x = false) :
    Holds ((s.sbselqueue x p).goto p (.scan set todo tv ncoll error n)) := by
  have hold := h.scanning p set _ tv ncoll error n hplace
  have hknown := h.known p (by rw [hplace]; exact fun h ↦ by cases h)
  obtain ⟨hself, hkept⟩ := h.recorded hknown x
  have hcollisions := collisions_sbselqueue x p s
  obtain ⟨t, ht⟩ : ∃ t, s.sbselqueue x p = t := ⟨_, rfl⟩
  obtain ⟨hsys, hselwait, hnselcoll, hssel, hpid, hpidhash, hrdy, howed, hplaces, hdue⟩ :=
    ht ▸ sbselqueue_rest x p s
  rw [ht] at hself hkept hcollisions ⊢
  have hcovered : ∀ q y, s.Covered q y →
      (q = p ∨ (s.sys.proc q).wchan = s.selwait ∧ s.pidhash (s.pid q) = some q) →
      t.Covered q y := by
    intro q y hq hother
    refine ⟨hkept q y hq.1 hother, fun hset ↦ ?_⟩
    rw [howed]
    exact hq.2 (by rw [← hdue]; exact hset)
  have hmove : ∀ q, q ≠ p → update t.place p (.scan set todo tv ncoll error n) q = s.place q := by
    intro q hqp
    rw [update_of_ne hqp, hplaces]
  refine ⟨?_, ?_, h.objects, fun q hplaced ↦ ?_, ?_, fun q hq ↦ ?_,
    fun q set' tv' hq hwchan y hy ↦ ?_, fun q set' todo' tv' ncoll' error' n' hq ↦ ?_,
    fun q set' tv' hq ↦ ?_⟩
  · change Sound t.sys
    rw [hsys]
    exact h.sound
  · change t.selwait ≠ 0
    rw [hselwait]
    exact h.selwait
  · change t.pidhash (t.pid q) = some q
    rw [hpid, hpidhash]
    by_cases hqp : q = p
    · rw [hqp]
      exact hknown
    · exact h.known q fun hidle ↦ hplaced ((hmove q hqp).trans hidle)
  · change ∀ n p, t.pidhash n = some p → n ≠ 0 ∧ t.pid p = n
    rw [hpid, hpidhash]
    exact h.hash
  · change (t.sys.proc q).wchan = t.selwait at hq
    rw [hsys, hselwait] at hq
    have hqp : q ≠ p := fun heq ↦ h.wchan_ne hold.outside (heq ▸ hq)
    obtain ⟨set', tv', hasleep⟩ := h.sleeper q hq
    exact ⟨set', tv', (hmove q hqp).trans hasleep⟩
  · change (t.sys.proc q).wchan = t.selwait at hwchan
    rw [hsys, hselwait] at hwchan
    have hqp : q ≠ p := fun heq ↦ h.wchan_ne hold.outside (heq ▸ hwchan)
    have hasleep : s.place q = .asleep set' tv' := (hmove q hqp).symm.trans hq
    refine hcovered q y (h.asleep q set' tv' hasleep hwchan y hy) (.inr ⟨hwchan, h.known q ?_⟩)
    rw [hasleep]
    exact fun heq ↦ by cases heq
  · by_cases hqp : q = p
    · have hscan : update t.place p (.scan set todo tv ncoll error n) p =
        .scan set todo tv ncoll error n :=
        update_self ..
      rw [hqp] at hq ⊢
      cases hscan.symm.trans hq
      obtain ⟨k, hk, hcount, hlooked⟩ := hold.count
      refine ⟨?_, hold.length, ⟨k, ?_, ?_, fun herror hn hflag hzero ↦ ?_⟩, fun y hy hset ↦ ?_⟩
      · change t.sys.outside = some p
        rw [hsys]
        exact hold.outside
      · change t.nselcoll = ncoll + BitVec.ofNat 32 k
        rw [hnselcoll]
        exact hk
      · change k + t.collisions + todo.length ≤ Fintype.card X + set.length
        rw [List.length_cons] at hcount
        omega
      · change t.ssel p = true at hflag
        rw [hssel] at hflag
        obtain ⟨looked, hsplit, hlook⟩ := hlooked herror hn hflag hzero
        refine ⟨looked ++ [.file x], by rw [hsplit, List.append_assoc, List.singleton_append],
          fun y hy ↦ ?_⟩
        rcases List.mem_append.mp hy with hy | hy
        · exact hcovered p y (hlook y hy) (.inl rfl)
        · cases List.mem_singleton.mp hy
          refine ⟨hself, fun hset ↦ ?_⟩
          change t.due p x = true at hset
          rw [hdue] at hset
          have hrx := hold.todo x (List.mem_cons_self ..) hset
          exact absurd (hready.symm.trans hrx) Bool.false_ne_true
      · change t.due p y = true at hset
        change t.ready y = true
        rw [hdue] at hset
        rw [hrdy]
        exact hold.todo y (List.mem_cons_of_mem _ hy) hset
    · exact absurd (h.scanning_unique hold.outside ((hmove q hqp).symm.trans hq)) hqp
  · by_cases hqp : q = p
    · have hscan : update t.place p (.scan set todo tv ncoll error n) p =
        .scan set todo tv ncoll error n :=
        update_self ..
      rw [hqp] at hq
      cases hscan.symm.trans hq
    · exact h.fits q set' tv' ((hmove q hqp).symm.trans hq)

/-- `selscan` goes on by one descriptor. -/
theorem Holds.look (h : Holds s) (p : P) : Holds (s.look p) := by
  rw [Kernel.look]
  cases hplace : s.place p with
  | idle => exact h
  | asleep set tv => exact h
  | scan set todo tv ncoll error n =>
    cases todo with
    | nil => exact h
    | cons b todo =>
      cases b with
      | ebadf rest =>
        refine h.past hplace (fun b hb ↦ List.mem_cons_of_mem _ (List.mem_of_mem_drop hb)) ?_
          (.inl rfl)
        rw [List.length_drop, List.length_cons]
        omega
      | file x =>
        dsimp only
        by_cases hready : s.ready x = true
        · rw [if_pos hready]
          exact h.past hplace (fun b hb ↦ List.mem_cons_of_mem _ hb) (Nat.le_succ _)
            (.inr (Nat.succ_ne_zero n))
        · rw [if_neg hready]
          exact h.queued hplace (Bool.eq_false_iff.mpr hready)

omit [DecidableEq P] in
/-- An object becomes ready. -/
theorem Holds.ready (h : Holds s) (x : X) :
    Holds { s with
      ready := update s.ready x true
      owed := update s.owed x true
      due := fun p ↦ update (s.due p) x true } := by
  have hcovered : ∀ q y, s.Covered q y →
      s.Recorded q y ∧ (update (s.due q) x true y = true → update s.owed x true y = true) := by
    intro q y hq
    refine ⟨hq.1, fun hset ↦ ?_⟩
    by_cases hyx : y = x
    · rw [hyx, update_self]
    · rw [update_of_ne hyx] at hset ⊢
      exact hq.2 hset
  refine ⟨h.sound, h.selwait, h.objects, h.known, h.hash, h.sleeper,
    fun q set tv hq hwchan y hy ↦ hcovered q y (h.asleep q set tv hq hwchan y hy),
    fun q set todo tv ncoll error n hq ↦ ?_, h.fits⟩
  have hold := h.scanning q set todo tv ncoll error n hq
  obtain ⟨k, hk, hcount, hlooked⟩ := hold.count
  refine ⟨hold.outside, hold.length, ⟨k, hk, hcount, fun herror hn hflag hzero ↦ ?_⟩,
    fun y hy hset ↦ ?_⟩
  · obtain ⟨looked, hsplit, hlook⟩ := hlooked herror hn hflag hzero
    exact ⟨looked, hsplit, fun y hy ↦ hcovered q y (hlook y hy)⟩
  · change update (s.due q) x true y = true at hset
    change update s.ready x true y = true
    by_cases hyx : y = x
    · rw [hyx, update_self]
    · rw [update_of_ne hyx] at hset ⊢
      exact hold.todo y hy hset

omit [DecidableEq P] in
/-- What an object was ready for is taken by a process that does not scan it. -/
theorem Holds.unready (h : Holds s) (hlook : s.toLook x = false) :
    Holds { s with ready := update s.ready x false } := by
  refine ⟨h.sound, h.selwait, h.objects, h.known, h.hash, h.sleeper, h.asleep,
    fun q set todo tv ncoll error n hq ↦ ?_, h.fits⟩
  have hold := h.scanning q set todo tv ncoll error n hq
  refine ⟨hold.outside, hold.length, hold.count, fun y hy hset ↦ ?_⟩
  have hyx : y ≠ x := fun heq ↦ by
    rw [Kernel.toLook, hold.outside] at hlook
    dsimp only at hlook
    rw [hq] at hlook
    exact absurd (heq ▸ hy) (of_decide_eq_false hlook)
  change update s.ready x false y = true
  rw [update_of_ne hyx]
  exact hold.todo y hy hset

omit [DecidableEq X] in
/-- A process outside `select` gets a pid that no other one has. -/
theorem Holds.enterpid (h : Holds s) (hpid : n ≠ 0) (hfree : s.pidhash n = none)
    (hp : s.pidhash (s.pid p) ≠ some p) :
    Holds { s with pid := update s.pid p n, pidhash := update s.pidhash n (some p) } := by
  have hidle : s.place p = .idle := by
    by_contra hne
    exact hp (h.known p hne)
  have hpids : ∀ q, q ≠ p → update s.pid p n q = s.pid q := fun q hqp ↦ update_of_ne hqp ..
  have hcovered : ∀ q y, q ≠ p → s.Covered q y →
      (s.sel y = update s.pid p n q ∨ s.coll y = true ∧ s.sel y ≠ 0) ∧
        (s.due q y = true → s.owed y = true) := by
    intro q y hqp hq
    rw [hpids q hqp]
    exact hq
  refine ⟨h.sound, h.selwait, h.objects, fun q hq ↦ ?_, fun m q hm ↦ ?_, h.sleeper,
    fun q set tv hq hwchan y hy ↦ ?_, fun q set todo tv ncoll error n hq ↦ ?_, h.fits⟩
  · have hqp : q ≠ p := fun heq ↦ hq (heq ▸ hidle)
    have hknown := h.known q hq
    change update s.pidhash n (some p) (update s.pid p n q) = some q
    rw [hpids q hqp, update_of_ne, hknown]
    intro heq
    rw [heq, hfree] at hknown
    cases hknown
  · change update s.pidhash n (some p) m = some q at hm
    change m ≠ 0 ∧ update s.pid p n q = m
    by_cases hmn : m = n
    · rw [hmn, update_self] at hm
      cases hm
      rw [update_self, hmn]
      exact ⟨hpid, rfl⟩
    · rw [update_of_ne hmn] at hm
      have hqp : q ≠ p := fun heq ↦ by
        rw [heq] at hm
        exact hp ((h.hash m p hm).2.symm ▸ hm)
      rw [hpids q hqp]
      exact h.hash m q hm
  · have hqp : q ≠ p := fun heq ↦ by
      rw [heq] at hq
      cases hidle.symm.trans hq
    exact hcovered q y hqp (h.asleep q set tv hq hwchan y hy)
  · have hqp : q ≠ p := fun heq ↦ by
      rw [heq] at hq
      cases hidle.symm.trans hq
    have hold := h.scanning q set todo tv ncoll error n hq
    obtain ⟨k, hk, hcount, hlooked⟩ := hold.count
    refine ⟨hold.outside, hold.length, ⟨k, hk, hcount, fun herror hn hflag hzero ↦ ?_⟩, hold.todo⟩
    obtain ⟨looked, hsplit, hlook⟩ := hlooked herror hn hflag hzero
    exact ⟨looked, hsplit, fun y hy ↦ hcovered q y hqp (hlook y hy)⟩

omit [DecidableEq X] in
/-- A process outside `select` gives up its pid. -/
theorem Holds.leavepid (h : Holds s) (p : P) : Holds (s.leavepid p) := by
  rw [Kernel.leavepid]
  cases hplace : s.place p with
  | scan set todo tv ncoll error n => exact h
  | asleep set tv => exact h
  | idle =>
    dsimp only
    by_cases hp : s.pidhash (s.pid p) = some p
    · rw [if_pos hp]
      refine ⟨h.sound, h.selwait, h.objects, fun q hq ↦ ?_, fun m q hm ↦ ?_, h.sleeper, h.asleep,
        fun q set todo tv ncoll error n hq ↦ ?_, h.fits⟩
      · have hknown := h.known q hq
        change update s.pidhash (s.pid p) none (s.pid q) = some q
        rw [update_of_ne, hknown]
        intro heq
        rw [heq, hp] at hknown
        exact hq (Option.some.inj hknown ▸ hplace)
      · change update s.pidhash (s.pid p) none m = some q at hm
        by_cases hmp : m = s.pid p
        · rw [hmp, update_self] at hm
          cases hm
        · rw [update_of_ne hmp] at hm
          exact h.hash m q hm
      · have hold := h.scanning q set todo tv ncoll error n hq
        exact ⟨hold.outside, hold.length, hold.count, hold.todo⟩
    · rw [if_neg hp]
      exact h

end Bsd386.Kern.Select
