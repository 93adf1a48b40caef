import Bsd386.Ufs.Lockf.Table

/-!
# Setting a range

A lock that is granted takes the place of whatever its owner holds in its range. Without the lock
itself, the list is the one that clearing the range would leave, and the lock stands between what is
left before the range and what is left behind it.
-/

namespace Bsd386.Ufs

variable {A O : Type} [DecidableEq O]

variable {splitlock : A} {lock unlock : Lockf A O} {l : List (Lockf A O)}

/-- What `lf_setlock` makes of a list. -/
structure Added (lock : Lockf A O) (l l' : List (Lockf A O)) : Prop where
  table : Table l'
  starts : ∀ lf' ∈ l', lf'.lfId = lock.lfId ∧ lock.lfStart ≤ lf'.lfStart ∨
    ∃ lf ∈ l, lf.lfId = lf'.lfId ∧ lf.lfStart ≤ lf'.lfStart
  lockAt_eq : ∀ o x,
    lockAt l' o x = if o = lock.lfId ∧ lock.Covers x then some lock.lfType else lockAt l o x

/-- A lock of another owner, or before the range, stays. -/
theorem Added.cons {lf : Lockf A O} {rest l' : List (Lockf A O)} (h : Added lock rest l')
    (htable : Table (lf :: rest)) (hskip : lf.lfId = lock.lfId → lf.Before lock) :
    Added lock (lf :: rest) (lf :: l') := by
  obtain ⟨hlf, hbefore, -⟩ := table_cons.1 htable
  refine ⟨table_cons.2 ⟨hlf, fun lf' h' hid ↦ ?_, h.table⟩, fun lf' h' ↦ ?_, fun o x ↦ ?_⟩
  · rcases h.starts lf' h' with ⟨hown, hle⟩ | ⟨a, ha, hsame, hle⟩
    · obtain ⟨hne, hlt⟩ := hskip (hid.trans hown)
      exact ⟨hne, hlt.trans_le hle⟩
    · obtain ⟨hne, hlt⟩ := hbefore a ha (hid.trans hsame.symm)
      exact ⟨hne, hlt.trans_le hle⟩
  · rcases List.mem_cons.1 h' with rfl | h'
    · exact Or.inr ⟨lf', List.mem_cons_self, rfl, le_rfl⟩
    · rcases h.starts lf' h' with hown | ⟨a, ha, hsame⟩
      · exact Or.inl hown
      · exact Or.inr ⟨a, List.mem_cons_of_mem lf ha, hsame⟩
  · rw [lockAt_cons, lockAt_cons, h.lockAt_eq]
    by_cases hlfx : lf.lfId = o ∧ lf.Covers x
    · rw [if_pos hlfx, if_pos hlfx, if_neg]
      rintro ⟨ho, hcovers⟩
      obtain ⟨hne, hlt⟩ := hskip (hlfx.1.trans ho)
      have hle := hlfx.2.2.resolve_left hne
      exact absurd (hlt.trans_le hcovers.1) (not_lt.2 hle)
    · rw [if_neg hlfx, if_neg hlfx]

/-- The lock is put into the list from which its range has been cleared. -/
theorem Cleared.add {front back : List (Lockf A O)} {lock' : Lockf A O}
    (h : Cleared lock l (front ++ back)) (hrange : lock.IsRange) (hid : lock'.lfId = lock.lfId)
    (htype : lock'.lfType = lock.lfType) (hstart : lock'.lfStart = lock.lfStart)
    (hend : lock'.lfEnd = lock.lfEnd)
    (hfront : ∀ lf ∈ front, lf.lfId = lock.lfId → lf.Before lock)
    (hback : ∀ lf ∈ back, lf.lfId = lock.lfId → lock.lfStart ≤ lf.lfStart) :
    Added lock l (front ++ lock' :: back) := by
  have hcov : ∀ x, lock'.Covers x ↔ lock.Covers x := by
    intro x
    rw [Lockf.Covers, Lockf.Covers, hstart, hend]
  have hcovers : ∀ o x, lockAt (front ++ lock' :: back) o x =
      if lockAt front o x = none ∧ o = lock.lfId ∧ lock.Covers x then some lock.lfType
      else lockAt (front ++ back) o x := by
    intro o x
    have happend : ∀ tail, lockAt (front ++ tail) o x =
        (lockAt front o x).or (lockAt tail o x) := by
      intro tail
      rw [lockAt, List.find?_append, Option.map_or]
      rfl
    rw [happend, happend, lockAt_cons, hid, htype]
    simp only [hcov]
    rcases lockAt front o x with _ | t
    · by_cases ho : o = lock.lfId ∧ lock.Covers x
      · simp [ho]
      · have ho' : ¬ (lock.lfId = o ∧ lock.Covers x) := fun hboth ↦ ho ⟨hboth.1.symm, hboth.2⟩
        simp [ho, ho']
    · simp
  obtain ⟨htable, hstarts, hlockAt⟩ := h
  obtain ⟨hsorted₁, hsorted₂, hsorted⟩ := List.pairwise_append.1 htable.sorted
  refine ⟨⟨fun lf hlf ↦ ?_, List.pairwise_append.2 ⟨hsorted₁, List.pairwise_cons.2
    ⟨fun lf hlf hsame ↦ ?_, hsorted₂⟩, fun a ha b hb hsame ↦ ?_⟩⟩, fun lf hlf ↦ ?_, fun o x ↦ ?_⟩
  · rcases List.mem_append.1 hlf with hlf | hlf
    · exact htable.ranges lf (List.mem_append_left back hlf)
    · rcases List.mem_cons.1 hlf with rfl | hlf
      · exact ⟨hstart ▸ hrange.nonneg, hstart ▸ hrange.le_max, hstart ▸ hend ▸ hrange.ends⟩
      · exact htable.ranges lf (List.mem_append_right front hlf)
  · have hown := hsame.symm.trans hid
    have hbefore := Cleared.before ⟨htable, hstarts, hlockAt⟩ (List.mem_append_right front hlf) hown
      (hback lf hlf hown)
    exact ⟨hend ▸ hbefore.1, hend ▸ hbefore.2⟩
  · rcases List.mem_cons.1 hb with rfl | hb
    · have hbefore := hfront a ha (hsame.trans hid)
      exact ⟨hbefore.1, hstart ▸ hbefore.2⟩
    · exact hsorted a ha b hb hsame
  · rcases List.mem_append.1 hlf with hlf | hlf
    · exact Or.inr (hstarts lf (List.mem_append_left back hlf))
    · rcases List.mem_cons.1 hlf with rfl | hlf
      · exact Or.inl ⟨hid, hstart.ge⟩
      · exact Or.inr (hstarts lf (List.mem_append_right front hlf))
  · rw [hcovers, hlockAt]
    by_cases ho : o = lock.lfId ∧ lock.Covers x
    · -- Where the range has been cleared, no lock before it covers the byte either
      have hnone : lockAt front o x = none := by
        refine Option.eq_none_iff_forall_ne_some.2 fun t ht ↦ ?_
        obtain ⟨lf, hlf, hlfid, hlfx, -⟩ := lockAt_eq_some ht
        obtain ⟨hne, hlt⟩ := hfront lf hlf (hlfid.trans ho.1)
        have hle := hlfx.2.resolve_left hne
        exact absurd (hlt.trans_le ho.2.1) (not_lt.2 hle)
      rw [if_pos ⟨hnone, ho⟩, if_pos ho]
    · rw [if_neg ho, if_neg ho, if_neg fun hboth ↦ ho hboth.2]

/-- The lock comes before everything that is left of the owner's locks. -/
theorem Cleared.add_first {back : List (Lockf A O)} {lock' : Lockf A O} (h : Cleared lock l back)
    (hrange : lock.IsRange) (hid : lock'.lfId = lock.lfId) (htype : lock'.lfType = lock.lfType)
    (hstart : lock'.lfStart = lock.lfStart) (hend : lock'.lfEnd = lock.lfEnd)
    (hback : ∀ lf ∈ back, lf.lfId = lock.lfId → lock.lfStart ≤ lf.lfStart) :
    Added lock l (lock' :: back) := by
  change Cleared lock l ([] ++ back) at h
  exact h.add hrange hid htype hstart hend (fun a ha ↦ absurd ha List.not_mem_nil) hback

omit [DecidableEq O] in
theorem ovcase_congr {lf : Lockf A O} (hstart : lock.lfStart = unlock.lfStart)
    (hend : lock.lfEnd = unlock.lfEnd) : ovcase lf lock = ovcase lf unlock := by
  unfold ovcase
  rw [hstart, hend]

/-- A lock that is on the list already is still the one that is being added. -/
theorem addLock_lock (splitlock : A) (needtolink : Bool) (lock : Lockf A O)
    (l : List (Lockf A O)) :
    (addLock splitlock needtolink lock l).lock.addr = lock.addr ∧
      (addLock splitlock needtolink lock l).lock.lfType = lock.lfType ∧
      (addLock splitlock needtolink lock l).lock.lfStart = lock.lfStart ∧
      (addLock splitlock needtolink lock l).lock.lfEnd = lock.lfEnd ∧
      (addLock splitlock needtolink lock l).lock.lfId = lock.lfId := by
  induction l generalizing lock needtolink with
  | nil => exact ⟨rfl, rfl, rfl, rfl, rfl⟩
  | cons lf rest ih =>
    by_cases hid : lf.lfId = lock.lfId
    swap
    · rw [addLock_other splitlock needtolink rest hid]
      exact ih needtolink lock
    rw [show addLock splitlock needtolink lock (lf :: rest) = _ from if_neg (not_not.2 hid)]
    cases ovcase lf lock with
    | noOverlap =>
      dsimp only
      split_ifs
      · exact ⟨rfl, rfl, rfl, rfl, rfl⟩
      · exact ⟨rfl, rfl, rfl, rfl, rfl⟩
      · exact ih needtolink lock
    | equal =>
      dsimp only
      split_ifs
      · exact ⟨rfl, rfl, rfl, rfl, rfl⟩
      · exact ⟨rfl, rfl, rfl, rfl, rfl⟩
    | overlapContains =>
      dsimp only
      split_ifs
      · exact ⟨rfl, rfl, rfl, rfl, rfl⟩
      · exact ⟨rfl, rfl, rfl, rfl, rfl⟩
      · exact ⟨rfl, rfl, rfl, rfl, rfl⟩
    | lockContains =>
      dsimp only
      split_ifs with hdown
      · exact ih false lock
      · exact ih false { lock with lfBlock := lf.lfBlock ++ lock.lfBlock }
    | startsBefore => exact ih false lock
    | endsAfter => exact ⟨rfl, rfl, rfl, rfl, rfl⟩

/-- Behind a lock that is on the list already, its range is cleared. -/
theorem addLock_false (splitlock : A) (hid : lock.lfId = unlock.lfId)
    (hstart : lock.lfStart = unlock.lfStart) (hend : lock.lfEnd = unlock.lfEnd)
    (hlater : ∀ lf ∈ l, lf.lfId = unlock.lfId → unlock.lfStart < lf.lfStart) :
    (addLock splitlock false lock l).list = (clearLock splitlock unlock l).list := by
  induction l generalizing lock with
  | nil => rfl
  | cons lf rest ih =>
    obtain ⟨hlf, hrest⟩ := List.forall_mem_cons.1 hlater
    by_cases hown : lf.lfId = unlock.lfId
    swap
    · rw [addLock_other splitlock false rest (hid ▸ hown), clearLock_other splitlock rest hown]
      exact congrArg (List.cons lf) (ih hid hstart hend hrest)
    have hsame : lf.lfId = lock.lfId := hown.trans hid.symm
    rw [show addLock splitlock false lock (lf :: rest) = _ from if_neg (not_not.2 hsame),
      show clearLock splitlock unlock (lf :: rest) = _ from if_neg (not_not.2 hown),
      ovcase_congr hstart hend, hid]
    have hlt := hlf hown
    cases hcase : ovcase lf unlock with
    | noOverlap =>
      dsimp only
      rw [hend]
      by_cases hstop : unlock.lfEnd ≠ -1 ∧ lf.lfStart > unlock.lfEnd
      · rw [if_pos hstop, if_pos hstop]
        rfl
      · rw [if_neg hstop, if_neg hstop]
        exact congrArg (List.cons lf) (ih hid hstart hend hrest)
    | equal => exact absurd (ovcase_equal hcase).1 (by omega)
    | overlapContains => exact absurd (ovcase_overlapContains hcase).1 (by omega)
    | lockContains =>
      dsimp only
      refine ih ?_ ?_ ?_ hrest
      · rw [← hid]
        split_ifs
        · rfl
        · rfl
      · rw [← hstart]
        split_ifs
        · rfl
        · rfl
      · rw [← hend]
        split_ifs
        · rfl
        · rfl
    | startsBefore => exact absurd (ovcase_startsBefore hcase).1 (by omega)
    | endsAfter =>
      dsimp only
      rw [hend]
      rfl

/-! ### The cases of overlap -/

section AddCase

variable {lf : Lockf A O} {rest : List (Lockf A O)} (htable : Table (lf :: rest))
  (hid : lf.lfId = lock.lfId) (hrange : lock.IsRange)
  (hwraps : ∀ w ∈ lf :: rest, w.Wraps lock → w.lfType = lock.lfType ∧ w.lfStart ≤ lock.lfStart)

include htable hid

omit [DecidableEq O] in
/-- Once a lock reaches to the range, the owner's other locks begin behind its start. -/
theorem lfStart_le_of_reach
    (hreach : lock.lfStart ≤ lf.lfStart ∨ lf.lfEnd = -1 ∨ lock.lfStart ≤ lf.lfEnd + 1) :
    ∀ a ∈ rest, a.lfId = lock.lfId → lock.lfStart ≤ a.lfStart := by
  obtain ⟨hlf, hbefore, -⟩ := table_cons.1 htable
  intro a ha hown
  obtain ⟨hne, hlt⟩ := hbefore a ha (hid.trans hown.symm)
  have hends := hlf.ends
  omega

omit [DecidableEq O] in
theorem lfStart_lt_of_not_before (hnot : ¬ lf.Before lock) :
    ∀ a ∈ rest, a.lfId = lock.lfId → lock.lfStart < a.lfStart := by
  obtain ⟨-, hbefore, -⟩ := table_cons.1 htable
  intro a ha hown
  obtain ⟨hne, hlt⟩ := hbefore a ha (hid.trans hown.symm)
  unfold Lockf.Before at hnot
  omega

include hwraps in
omit [DecidableEq O] in
theorem not_wraps_of_not_before (hnot : ¬ lf.Before lock) : ∀ w ∈ rest, ¬ w.Wraps lock := by
  intro w hw hwrapped
  have hlt := lfStart_lt_of_not_before htable hid hnot w hw hwrapped.1
  exact absurd (hwraps w (List.mem_cons_of_mem lf hw) hwrapped).2 (not_le.2 hlt)

include hrange hwraps

/-- When no lock wraps, the range can be cleared. -/
theorem cleared_of_not_before (splitlock : A) (hnot : ¬ lf.Before lock)
    (hhead : ¬ lf.Wraps lock) :
    Cleared lock (lf :: rest) (clearLock splitlock lock (lf :: rest)).list :=
  clearLock_spec htable hrange
    (List.forall_mem_cons.2 ⟨hhead, not_wraps_of_not_before htable hid hwraps hnot⟩)

theorem addLock_noOverlap (htail : Added lock rest (addLock splitlock true lock rest).list)
    (hcase : ovcase lf lock = .noOverlap) :
    Added lock (lf :: rest) (addLock splitlock true lock (lf :: rest)).list := by
  have hno := ovcase_noOverlap hcase
  have hlfends := (table_cons.1 htable).1.ends
  have hlockends := hrange.ends
  have hclear := cleared_of_not_before htable hid hrange hwraps splitlock
  rw [show clearLock splitlock lock (lf :: rest) = _ from if_neg (not_not.2 hid), hcase] at hclear
  rw [show addLock splitlock true lock (lf :: rest) = _ from if_neg (not_not.2 hid), hcase]
  dsimp only at hclear ⊢
  by_cases hstop : lock.lfEnd ≠ -1 ∧ lf.lfStart > lock.lfEnd
  · rw [if_pos hstop] at hclear ⊢
    have hnot : ¬ lf.Before lock := by
      unfold Lockf.Before
      omega
    have hhead : ¬ lf.Wraps lock := by
      intro h
      have hle := (hwraps lf List.mem_cons_self h).2
      omega
    refine (hclear hnot hhead).add_first hrange rfl rfl rfl rfl
      (List.forall_mem_cons.2 ⟨fun _ ↦ ?_, lfStart_le_of_reach htable hid ?_⟩)
    · omega
    · omega
  · rw [if_neg hstop]
    refine htail.cons htable fun _ ↦ ?_
    unfold Lockf.Before
    omega

theorem addLock_equal (hcase : ovcase lf lock = .equal) :
    Added lock (lf :: rest) (addLock splitlock true lock (lf :: rest)).list := by
  obtain ⟨hstart, hend⟩ := ovcase_equal hcase
  have hlockends := hrange.ends
  have hnot : ¬ lf.Before lock := by
    unfold Lockf.Before
    omega
  have hhead : ¬ lf.Wraps lock := by
    unfold Lockf.Wraps
    omega
  have hclear := cleared_of_not_before htable hid hrange hwraps splitlock hnot hhead
  have hback := lfStart_le_of_reach htable hid (Or.inl hstart.ge)
  rw [show clearLock splitlock lock (lf :: rest) = _ from if_neg (not_not.2 hid), hcase] at hclear
  rw [show addLock splitlock true lock (lf :: rest) = _ from if_neg (not_not.2 hid), hcase]
  dsimp only at hclear ⊢
  split_ifs with hdown
  · exact hclear.add_first hrange hid rfl hstart hend hback
  · exact hclear.add_first hrange hid rfl hstart hend hback

theorem addLock_overlapContains (hcase : ovcase lf lock = .overlapContains) :
    Added lock (lf :: rest) (addLock splitlock true lock (lf :: rest)).list := by
  obtain ⟨hlf0, hlfmax, hlfends⟩ := (table_cons.1 htable).1
  obtain ⟨hlock0, hlockmax, hlockends⟩ := hrange
  obtain ⟨hstart, hne, hend, hdiff⟩ := ovcase_overlapContains hcase
  have hnot : ¬ lf.Before lock := by
    unfold Lockf.Before
    omega
  rw [show addLock splitlock true lock (lf :: rest) = _ from if_neg (not_not.2 hid), hcase]
  dsimp only
  by_cases hsame : lf.lfType = lock.lfType
  · rw [if_pos hsame]
    refine ⟨htable, fun a ha ↦ Or.inr ⟨a, ha, rfl, le_rfl⟩, fun o x ↦ ?_⟩
    by_cases hx : o = lock.lfId ∧ lock.Covers x
    · have hlfx : lf.lfId = o ∧ lf.Covers x := by
        refine ⟨hid.trans hx.1.symm, ?_⟩
        have hcovers := hx.2
        unfold Lockf.Covers at hcovers ⊢
        omega
      rw [if_pos hx, lockAt_cons, if_pos hlfx, hsame]
    · rw [if_neg hx]
  have hhead : ¬ lf.Wraps lock := fun h ↦ hsame (hwraps lf List.mem_cons_self h).1
  have hclear := cleared_of_not_before htable hid ⟨hlock0, hlockmax, hlockends⟩ hwraps
    splitlock hnot hhead
  have hsucc : lf.lfEnd ≠ lock.lfEnd → toLong (lock.lfEnd + 1) = lock.lfEnd + 1 := by
    intro hne
    have hnowrap : lf.lfEnd = -1 → lock.lfEnd ≠ 2 ^ 31 - 1 :=
      fun hinf hmax ↦ hhead ⟨hid, hinf, hmax⟩
    exact toLong_of_mem (by omega) (by omega)
  have hpred : toLong (lock.lfStart - 1) = lock.lfStart - 1 :=
    toLong_of_mem (by omega) (by omega)
  have hback := lfStart_le_of_reach htable hid (by omega)
  rw [show clearLock splitlock lock (lf :: rest) = _ from if_neg (not_not.2 hid), hcase] at hclear
  dsimp only at hclear
  rw [if_neg hsame]
  by_cases hfirst : lf.lfStart = lock.lfStart
  · have hlast : lf.lfEnd ≠ lock.lfEnd := fun hlast ↦ hdiff ⟨hfirst, hlast⟩
    rw [if_pos hfirst, hsucc hlast] at hclear ⊢
    refine hclear.add_first ⟨hlock0, hlockmax, hlockends⟩ rfl rfl rfl rfl
      (List.forall_mem_cons.2 ⟨fun _ ↦ ?_, hback⟩)
    dsimp only
    omega
  · have hfirst' : (lfWakelock lf).lfStart ≠ lock.lfStart := hfirst
    rw [if_neg hfirst, lfSplit, if_neg hfirst', hpred] at hclear ⊢
    have hfront : ∀ a ∈ [{ lfWakelock lf with lfEnd := lock.lfStart - 1 }],
        a.lfId = lock.lfId → a.Before lock := by
      refine List.forall_mem_singleton.2 fun _ ↦ ?_
      dsimp only [Lockf.Before]
      omega
    by_cases hlast : lf.lfEnd = lock.lfEnd
    · have hlast' : (lfWakelock lf).lfEnd = lock.lfEnd := hlast
      rw [if_pos hlast'] at hclear ⊢
      exact hclear.add ⟨hlock0, hlockmax, hlockends⟩ rfl rfl rfl rfl hfront hback
    · have hlast' : (lfWakelock lf).lfEnd ≠ lock.lfEnd := hlast
      rw [if_neg hlast', hsucc hlast] at hclear ⊢
      refine hclear.add ⟨hlock0, hlockmax, hlockends⟩ rfl rfl rfl rfl hfront
        (List.forall_mem_cons.2 ⟨fun _ ↦ ?_, hback⟩)
      dsimp only
      omega

theorem addLock_lockContains (hcase : ovcase lf lock = .lockContains) :
    Added lock (lf :: rest) (addLock splitlock true lock (lf :: rest)).list := by
  have hcontains := ovcase_lockContains hcase
  have hlfends := (table_cons.1 htable).1.ends
  have hnot : ¬ lf.Before lock := by
    unfold Lockf.Before
    omega
  have hhead : ¬ lf.Wraps lock := by
    unfold Lockf.Wraps
    omega
  have hclear := cleared_of_not_before htable hid hrange hwraps splitlock hnot hhead
  have hbehind := lfStart_lt_of_not_before htable hid hnot
  rw [show clearLock splitlock lock (lf :: rest) = _ from if_neg (not_not.2 hid), hcase] at hclear
  rw [show addLock splitlock true lock (lf :: rest) = _ from if_neg (not_not.2 hid), hcase]
  dsimp only at hclear ⊢
  set lock' := if lock.lfType = .rdlck ∧ lf.lfType = .wrlck then lock
    else { lock with lfBlock := lf.lfBlock ++ lock.lfBlock } with hlock'
  have hfields : lock'.lfId = lock.lfId ∧ lock'.lfType = lock.lfType ∧
      lock'.lfStart = lock.lfStart ∧ lock'.lfEnd = lock.lfEnd := by
    rw [hlock']
    split_ifs
    · exact ⟨rfl, rfl, rfl, rfl⟩
    · exact ⟨rfl, rfl, rfl, rfl⟩
  obtain ⟨hid', htype', hstart', hend'⟩ := hfields
  obtain ⟨-, htype, hstart, hend, hown⟩ := addLock_lock splitlock false lock' rest
  rw [if_pos rfl, addLock_false splitlock hid' hstart' hend' hbehind]
  refine hclear.add_first hrange (hown.trans hid') (htype.trans htype') (hstart.trans hstart')
    (hend.trans hend') fun a ha hown ↦ ?_
  obtain ⟨b, hb, hsame, hle⟩ := hclear.starts a ha
  rcases List.mem_cons.1 hb with rfl | hb
  · exact hcontains.1.trans hle
  · exact (hbehind b hb (hsame.trans hown)).le.trans hle

theorem addLock_startsBefore (hcase : ovcase lf lock = .startsBefore) :
    Added lock (lf :: rest) (addLock splitlock true lock (lf :: rest)).list := by
  have hstarts := ovcase_startsBefore hcase
  have hlock0 := hrange.nonneg
  have hlockmax := hrange.le_max
  have hlf0 := (table_cons.1 htable).1.nonneg
  have hnot : ¬ lf.Before lock := by
    unfold Lockf.Before
    omega
  have hhead : ¬ lf.Wraps lock := by
    unfold Lockf.Wraps
    omega
  have hclear := cleared_of_not_before htable hid hrange hwraps splitlock hnot hhead
  have hclearRest : Cleared lock rest (clearLock splitlock lock rest).list :=
    clearLock_spec (table_cons.1 htable).2.2 hrange (not_wraps_of_not_before htable hid hwraps hnot)
  have hbehind := lfStart_lt_of_not_before htable hid hnot
  have hpred : toLong (lock.lfStart - 1) = lock.lfStart - 1 :=
    toLong_of_mem (by omega) (by omega)
  rw [show clearLock splitlock lock (lf :: rest) = _ from if_neg (not_not.2 hid), hcase] at hclear
  rw [show addLock splitlock true lock (lf :: rest) = _ from if_neg (not_not.2 hid), hcase]
  dsimp only at hclear ⊢
  obtain ⟨-, htype, hstart, hend, hown⟩ := addLock_lock splitlock false lock rest
  rw [hpred] at hclear ⊢
  rw [addLock_false splitlock rfl rfl rfl hbehind]
  change Cleared lock (lf :: rest) ([_] ++ _) at hclear
  refine hclear.add hrange hown htype hstart hend (List.forall_mem_singleton.2 fun _ ↦ ?_)
    fun a ha hown ↦ ?_
  · dsimp only [Lockf.Before]
    omega
  · obtain ⟨b, hb, hsame, hle⟩ := hclearRest.starts a ha
    exact (hbehind b hb (hsame.trans hown)).le.trans hle

theorem addLock_endsAfter (hcase : ovcase lf lock = .endsAfter) :
    Added lock (lf :: rest) (addLock splitlock true lock (lf :: rest)).list := by
  obtain ⟨hstart, hne, hend, hle⟩ := ovcase_endsAfter hcase
  have hlf := (table_cons.1 htable).1
  have hlf0 := hlf.nonneg
  have hlfends := hlf.ends
  have hlock0 := hrange.nonneg
  have hlockends := hrange.ends
  have hnot : ¬ lf.Before lock := by
    unfold Lockf.Before
    omega
  have hhead : ¬ lf.Wraps lock := by
    intro h
    have hle := (hwraps lf List.mem_cons_self h).2
    omega
  have hclear := cleared_of_not_before htable hid hrange hwraps splitlock hnot hhead
  have hnowrap : lf.lfEnd = -1 → lock.lfEnd ≠ 2 ^ 31 - 1 :=
    fun hinf hmax ↦ hhead ⟨hid, hinf, hmax⟩
  have hsucc : toLong (lock.lfEnd + 1) = lock.lfEnd + 1 := toLong_of_mem (by omega) (by omega)
  have hback := lfStart_le_of_reach htable hid (Or.inl hstart.le)
  rw [show clearLock splitlock lock (lf :: rest) = _ from if_neg (not_not.2 hid), hcase] at hclear
  rw [show addLock splitlock true lock (lf :: rest) = _ from if_neg (not_not.2 hid), hcase]
  dsimp only at hclear ⊢
  rw [if_pos rfl]
  rw [hsucc] at hclear ⊢
  refine hclear.add_first hrange rfl rfl rfl rfl (List.forall_mem_cons.2 ⟨fun _ ↦ ?_, hback⟩)
  dsimp only
  omega

end AddCase

/-- `lf_setlock` gives the bytes of the range to the owner and takes nothing else from anybody,
unless an owner's lock without a bound goes on behind the last byte. -/
theorem addLock_spec (htable : Table l) (hrange : lock.IsRange)
    (hwraps : ∀ lf ∈ l, lf.Wraps lock → lf.lfType = lock.lfType ∧ lf.lfStart ≤ lock.lfStart) :
    Added lock l (addLock splitlock true lock l).list := by
  induction l with
  | nil =>
    refine ⟨table_cons.2 ⟨hrange, fun _ h ↦ absurd h List.not_mem_nil, table_nil⟩,
      fun lf hlf ↦ Or.inl ?_, fun o x ↦ ?_⟩
    · rw [List.mem_singleton.1 hlf]
      exact ⟨rfl, le_rfl⟩
    · change lockAt [lock] o x = _
      rw [lockAt_cons]
      simp only [eq_comm]
  | cons lf rest ih =>
    have htail := ih (table_cons.1 htable).2.2 (List.forall_mem_cons.1 hwraps).2
    by_cases hid : lf.lfId = lock.lfId
    swap
    · rw [addLock_other splitlock true rest hid]
      exact htail.cons htable fun heq ↦ absurd heq hid
    cases hcase : ovcase lf lock with
    | noOverlap => exact addLock_noOverlap htable hid hrange hwraps htail hcase
    | equal => exact addLock_equal htable hid hrange hwraps hcase
    | overlapContains => exact addLock_overlapContains htable hid hrange hwraps hcase
    | lockContains => exact addLock_lockContains htable hid hrange hwraps hcase
    | startsBefore => exact addLock_startsBefore htable hid hrange hwraps hcase
    | endsAfter => exact addLock_endsAfter htable hid hrange hwraps hcase

end Bsd386.Ufs
