import Bsd386.Lib.Paths
import Bsd386.Ufs.Lockf.Blocked

/-!
# Deadlock detection

A process that sleeps in `lf_setlock` waits for the owner of the lock on whose blocked list its
request is. Each process waits for at most one other, so that a cycle can only appear when a process
goes to sleep, and it then runs through this process. The search that `lf_setlock` makes before is
along these edges as long as the blocked lists are sound.
-/

namespace Bsd386.Ufs.LockState

open Function

variable {A P F I : Type} {s : LockState A P F I} {p q b : P} {i : I}
  {lock block : Lockf A (Owner P F)} {maxlockdepth : ℕ}

/-- A process sleeps until a lock of another process is changed. -/
def WaitsFor (s : LockState A P F I) (p q : P) : Prop :=
  ∃ w, s.waiters p = some w ∧ w.asleep = true ∧
    ∃ lf ∈ s.lockf w.inode, w.lock.addr ∈ lf.lfBlock ∧ lf.lfId = .posix q

/-- What the search follows: `lf_next` of the request, to the owner of the structure there. -/
theorem waitsFor_iff (h : s.Queued) : s.WaitsFor p q ↔
    ∃ w, s.waiters p = some w ∧ w.asleep = true ∧ w.lfNext.bind s.structs = some (.posix q) := by
  constructor
  · rintro ⟨w, hw, hasleep, lf, hlf, hmem, hid⟩
    obtain ⟨p', v, hv, haddr, -, hnext⟩ := h.waits w.inode lf hlf _ hmem
    obtain rfl := h.distinct p' p v w hv hw haddr
    rw [hw] at hv
    obtain rfl := Option.some.inj hv
    refine ⟨w, hw, hasleep, ?_⟩
    rw [hnext, Option.bind_some, h.linked w.inode lf hlf, hid]
  · rintro ⟨w, hw, hasleep, howner⟩
    obtain ⟨a, hnext, hstructs⟩ := Option.bind_eq_some_iff.1 howner
    obtain ⟨lf, hlf, rfl, hmem⟩ := h.queued p w a hw hnext
    rw [h.linked w.inode lf hlf] at hstructs
    exact ⟨w, hw, hasleep, lf, hlf, hmem, Option.some.inj hstructs⟩

section Search

variable [DecidableEq P]

/-- The search never reads a structure that has been freed, and comes to the owner of the request
exactly when a path of sleepers of at most the given length does. -/
theorem search_spec (h : s.Queued) (own : P) (n : ℕ) (b : P) :
    ∃ dead, s.search own n b = some dead ∧
      (dead = true ↔ ∃ k, k < n ∧ Path s.WaitsFor (k + 1) b own) := by
  induction n generalizing b with
  | zero => exact ⟨false, rfl, by simp⟩
  | succ n ih =>
    have hnone : (∀ c, ¬ s.WaitsFor b c) →
        (false = true ↔ ∃ k, k < n + 1 ∧ Path s.WaitsFor (k + 1) b own) := by
      intro hstuck
      refine ⟨fun h ↦ (nomatch h), fun ⟨k, _, hpath⟩ ↦ ?_⟩
      cases hpath with
      | cons hstep _ => exact absurd hstep (hstuck _)
    rw [search]
    cases hw : s.waiters b with
    | none =>
      refine ⟨false, rfl, hnone fun c hwaits ↦ ?_⟩
      obtain ⟨w, hw', -⟩ := hwaits
      rw [hw] at hw'
      cases hw'
    | some w =>
      dsimp only
      by_cases hasleep : w.asleep = true
      swap
      · rw [if_neg hasleep]
        refine ⟨false, rfl, hnone fun c hwaits ↦ ?_⟩
        obtain ⟨w', hw', hasleep', -⟩ := hwaits
        rw [hw] at hw'
        exact hasleep (Option.some.inj hw' ▸ hasleep')
      rw [if_pos hasleep]
      obtain ⟨a, hnext⟩ := Option.ne_none_iff_exists'.1 (h.asleep b w hw hasleep)
      obtain ⟨lf, hlf, rfl, -⟩ := h.queued b w a hw hnext
      have howner : w.lfNext.bind s.structs = some lf.lfId := by
        rw [hnext, Option.bind_some, h.linked w.inode lf hlf]
      have hwaits : ∀ c, s.WaitsFor b c ↔ lf.lfId = .posix c := by
        intro c
        rw [waitsFor_iff h]
        refine ⟨fun ⟨w', hw', _, howner'⟩ ↦ ?_, fun hid ↦ ⟨w, hw, hasleep, hid ▸ howner⟩⟩
        rw [hw] at hw'
        rw [← Option.some.inj hw', howner] at howner'
        exact Option.some.inj howner'
      rw [howner]
      cases hid : lf.lfId with
      | flock f =>
        refine ⟨false, rfl, hnone fun c hstep ↦ ?_⟩
        rw [hwaits, hid] at hstep
        cases hstep
      | posix c =>
        dsimp only
        have hstep : s.WaitsFor b c := (hwaits c).2 hid
        by_cases hown : c = own
        · rw [if_pos hown]
          exact ⟨true, rfl, fun _ ↦ ⟨0, Nat.succ_pos n, hown ▸ .cons hstep (.nil c)⟩, fun _ ↦ rfl⟩
        · rw [if_neg hown]
          obtain ⟨dead, hdead, hiff⟩ := ih c
          refine ⟨dead, hdead, hiff.trans ⟨fun ⟨k, hk, hpath⟩ ↦ ?_, fun ⟨k, hk, hpath⟩ ↦ ?_⟩⟩
          · exact ⟨k + 1, Nat.succ_lt_succ hk, .cons hstep hpath⟩
          · cases hpath with
            | @cons _ _ d _ hstep' hrest =>
              have hsame := (hwaits d).1 hstep'
              rw [hid] at hsame
              obtain rfl := Owner.posix.inj hsame
              cases k with
              | zero =>
                cases hrest
                exact absurd rfl hown
              | succ k => exact ⟨k, Nat.lt_of_succ_lt_succ hk, hrest⟩

theorem deadlock_posix (hlock : lock.lfId = .posix p) (hblock : block.lfId = .posix b) :
    s.deadlock maxlockdepth lock block = s.search p maxlockdepth b := by
  unfold deadlock
  rw [hlock, hblock]

end Search

/-! ## Cycles -/

/-- No cycle of at most so many processes waits for itself. -/
def NoDeadlock (s : LockState A P F I) (n : ℕ) : Prop :=
  ∀ p k, k < n → ¬ Path s.WaitsFor (k + 1) p p

theorem NoDeadlock.mono {s' : LockState A P F I} {n : ℕ} (h : s.NoDeadlock n)
    (hle : ∀ p q, s'.WaitsFor p q → s.WaitsFor p q) : s'.NoDeadlock n :=
  fun p k hk hpath ↦ h p k hk (hpath.mono hle)

section Edges

theorem waitsFor_change [DecidableEq A] [DecidableEq I] {u : Update A (Owner P F)}
    {own : Owner P F} {splitlock : A} {new : List A}
    (hmoves : u.Moves splitlock new own (s.lockf i)) (p q : P)
    (hwaits : (s.change i own u).WaitsFor p q) : s.WaitsFor p q := by
  obtain ⟨w, hw, hasleep, lf, hlf, hmem, hid⟩ := hwaits
  obtain ⟨v, hv, -, -, ⟨-, -, hwake⟩ | ⟨-, rfl⟩⟩ := change_waiters hw
  · rw [hwake] at hasleep
    cases hasleep
  refine ⟨w, hv, hasleep, ?_⟩
  rcases eq_or_ne w.inode i with hi | hne
  · rw [hi] at hlf ⊢
    rw [change_lockf_self] at hlf
    rcases hmoves.stays lf hlf with ⟨old, hold, -, hsame, hsub⟩ | ⟨hnil, -⟩
    · exact ⟨old, hold, hsub hmem, hsame.trans hid⟩
    · rw [hnil] at hmem
      exact absurd hmem List.not_mem_nil
  · rw [change_lockf_of_ne hne] at hlf
    exact ⟨lf, hlf, hmem, hid⟩

variable [DecidableEq P]

theorem waitsFor_run (p q r : P) (hwaits : (s.run p).WaitsFor q r) : s.WaitsFor q r := by
  obtain ⟨w, hw, hasleep⟩ := hwaits
  exact ⟨w, (run_waiters_eq_some hw).2, hasleep⟩

theorem waitsFor_signal {w : Waiter A P F I} (q r : P)
    (hwaits : WaitsFor { s with waiters := update s.waiters p (some { w with asleep := false }) }
      q r) : s.WaitsFor q r := by
  obtain ⟨v, hv, hasleep, hlf⟩ := hwaits
  dsimp only at hv hlf
  rcases eq_or_ne q p with rfl | hne
  · rw [update_self] at hv
    obtain rfl := Option.some.inj hv
    cases hasleep
  · rw [update_of_ne hne] at hv
    exact ⟨v, hv, hasleep, hlf⟩

variable [DecidableEq A] [DecidableEq I]

/-- When a process goes to sleep, the others wait for whom they waited for. -/
theorem waitsFor_sleep_of_ne (hspare : s.Spare lock.addr lock.lfId) (hne : q ≠ p) (r : P) :
    (s.sleep p i lock block).WaitsFor q r ↔ s.WaitsFor q r := by
  constructor
  · rintro ⟨w, hw, hasleep, lf, hlf, hmem, hid⟩
    rw [sleep_waiters_of_ne hne] at hw
    obtain ⟨old, hold, rfl⟩ := mem_sleep_lockf.1 hlf
    refine ⟨w, hw, hasleep, old, hold, ?_⟩
    split_ifs at hmem hid
    · rcases List.mem_append.1 hmem with hmem | hmem
      · exact ⟨hmem, hid⟩
      · exact absurd (List.mem_singleton.1 hmem) (hspare.distinct q w hw)
    · exact ⟨hmem, hid⟩
  · rintro ⟨w, hw, hasleep, lf, hlf, hmem, hid⟩
    refine ⟨w, (sleep_waiters_of_ne hne).trans hw, hasleep, _, mem_sleep_lockf.2 ⟨lf, hlf, rfl⟩, ?_⟩
    split_ifs
    · exact ⟨List.mem_append_left _ hmem, hid⟩
    · exact ⟨hmem, hid⟩

/-- The process that goes to sleep waits for the owner of the lock that blocks it. -/
theorem waitsFor_sleep_self (h : s.Queued) (hspare : s.Spare lock.addr lock.lfId)
    (hblock : block ∈ s.lockf i) (r : P) :
    (s.sleep p i lock block).WaitsFor p r ↔ block.lfId = .posix r := by
  constructor
  · rintro ⟨w, hw, -, lf, hlf, hmem, hid⟩
    rw [sleep_waiters_self] at hw
    obtain rfl := Option.some.inj hw
    obtain ⟨old, hold, rfl⟩ := mem_sleep_lockf.1 hlf
    have hnot : lock.addr ∉ old.lfBlock := by
      intro hold'
      obtain ⟨q, v, hv, haddr, -⟩ := h.waits i old hold _ hold'
      exact hspare.distinct q v hv haddr
    split_ifs at hmem hid with hcase
    · rw [← List.inj_on_of_nodup_map (h.nodup i) hold hblock hcase.2]
      exact hid
    · exact absurd hmem hnot
  · intro hid
    refine ⟨_, sleep_waiters_self, rfl, _, mem_sleep_lockf.2 ⟨block, hblock, rfl⟩, ?_⟩
    rw [if_pos ⟨rfl, rfl⟩]
    exact ⟨List.mem_append_right _ List.mem_cons_self, hid⟩

/-- When the search finds no cycle, none appears. -/
theorem NoDeadlock.sleep (h : s.Queued) (hspare : s.Spare lock.addr lock.lfId)
    (hblock : block ∈ s.lockf i) (hid : block.lfId ≠ lock.lfId) (hlock : lock.lfId = .posix p)
    (hsearch : s.deadlock maxlockdepth lock block = some false)
    (hno : s.NoDeadlock (maxlockdepth + 1)) :
    (s.sleep p i lock block).NoDeadlock (maxlockdepth + 1) := by
  have hself := fun r ↦ waitsFor_sleep_self (p := p) h hspare hblock r
  have hrest : ∀ a c, a ≠ p → (s.sleep p i lock block).WaitsFor a c → s.WaitsFor a c :=
    fun a c hne ↦ (waitsFor_sleep_of_ne hspare hne c).1
  cases hown : block.lfId with
  | flock f =>
    refine hno.mono fun a c hwaits ↦ ?_
    rcases eq_or_ne a p with rfl | hne
    · rw [hself, hown] at hwaits
      cases hwaits
    · exact hrest a c hne hwaits
  | posix b =>
    have hedge : ∀ c, (s.sleep p i lock block).WaitsFor p c → c = b := by
      intro c hwaits
      rw [hself, hown] at hwaits
      exact (Owner.posix.inj hwaits).symm
    intro a k hk hpath
    rcases hpath.of_cycle hrest hedge with hold | ⟨j, hj, hback⟩
    · exact hno a k hk hold
    · cases j with
      | zero =>
        cases hback
        exact hid (hown.trans hlock.symm)
      | succ j =>
        obtain ⟨dead, hdead, hiff⟩ := search_spec h p maxlockdepth b
        rw [deadlock_posix hlock hown, hdead] at hsearch
        have hfalse := hiff.2 ⟨j, by omega, hback⟩
        rw [Option.some.inj hsearch] at hfalse
        cases hfalse

/-- The search ends at the owner of the request when the wait would close a cycle of at most so many
processes, and it may have one process more. -/
theorem closes_of_deadlock (h : s.Queued) (hspare : s.Spare lock.addr lock.lfId)
    (hrun : s.waiters p = none) (hblock : block ∈ s.lockf i) (hlock : lock.lfId = .posix p)
    (hsearch : s.deadlock maxlockdepth lock block = some true) :
    ∃ b, block.lfId = .posix b ∧ ∃ k, k < maxlockdepth ∧ Path s.WaitsFor (k + 1) b p ∧
      Path (s.sleep p i lock block).WaitsFor (k + 2) p p := by
  cases hown : block.lfId with
  | flock f =>
    unfold deadlock at hsearch
    rw [hlock, hown] at hsearch
    cases hsearch
  | posix b =>
    obtain ⟨dead, hdead, hiff⟩ := search_spec h p maxlockdepth b
    rw [deadlock_posix hlock hown, hdead] at hsearch
    obtain ⟨k, hk, hpath⟩ := hiff.1 (Option.some.inj hsearch)
    refine ⟨b, rfl, k, hk, hpath, .cons ((waitsFor_sleep_self h hspare hblock b).2 hown) ?_⟩
    refine hpath.mono fun a c hwaits ↦ ?_
    have hne : a ≠ p := by
      rintro rfl
      obtain ⟨w, hw, -⟩ := hwaits
      rw [hrun] at hw
      cases hw
    exact (waitsFor_sleep_of_ne hspare hne c).2 hwaits

end Edges

/-! ## Runs -/

/-- Only byte-range locks of processes are set and cleared. -/
def IsPosix : Event A P F I → Prop
  | .setlock _ _ _ _ lock => ∃ q, lock.lfId = .posix q
  | .clearlock _ _ _ unlock => ∃ q, unlock.lfId = .posix q
  | _ => True

section Closes

variable [DecidableEq P] [DecidableEq F]

/-- The owner of the lock that blocks the request does not come to wait for the request's process
through as many processes as the search looks at. -/
def Short (s : LockState A P F I) (maxlockdepth : ℕ) (p : P) (i : I)
    (lock : Lockf A (Owner P F)) : Prop :=
  ∀ block b, lfGetblock lock (s.lockf i) = some block → block.lfId = .posix b →
    ¬ Path s.WaitsFor maxlockdepth b p

/-- No search ends with the last process that it looks at. -/
def ShortSearch (s : LockState A P F I) (maxlockdepth : ℕ) : Event A P F I → Prop
  | .setlock p i _ _ lock => s.Short maxlockdepth p i lock
  | .resume p _ => ∀ w, s.waiters p = some w → s.Short maxlockdepth p w.inode w.lock
  | _ => True

variable [DecidableEq A] [DecidableEq I]

/-- If the request went to sleep, its process would be in a cycle of at most `maxlockdepth`
processes. -/
def Closes (s : LockState A P F I) (maxlockdepth : ℕ) (p : P) (i : I)
    (lock : Lockf A (Owner P F)) : Prop :=
  ∃ block, lfGetblock lock (s.lockf i) = some block ∧
    ∃ k, k < maxlockdepth ∧ Path (s.sleep p i lock block).WaitsFor (k + 1) p p

/-- The request of the call, or the one that its process goes on with, would close a cycle. -/
def WouldClose (s : LockState A P F I) (maxlockdepth : ℕ) : Event A P F I → Prop
  | .setlock p i _ _ lock => (s.alloc lock).Closes maxlockdepth p i lock
  | .resume p _ => ∃ w, s.waiters p = some w ∧ (s.run p).Closes maxlockdepth p w.inode w.lock
  | _ => False

end Closes

/-- What holds of every state of a run of byte-range locks: no cycle is as short as the search is
long. -/
structure Detected (s : LockState A P F I) (maxlockdepth : ℕ) : Prop where
  queued : s.Queued
  posix : ∀ p w, s.waiters p = some w → w.lock.lfId = .posix p
  acyclic : s.NoDeadlock (maxlockdepth + 1)

theorem lfId_eq_of_askedBy (hasked : lock.AskedBy p) (hposix : ∃ q, lock.lfId = .posix q) :
    lock.lfId = .posix p := by
  obtain ⟨q, hid⟩ := hposix
  unfold Lockf.AskedBy at hasked
  rw [hid] at hasked
  exact hasked ▸ hid

section Runs

variable [DecidableEq A] [DecidableEq P] [DecidableEq F] [DecidableEq I] {splitlock : A}

omit [DecidableEq P] [DecidableEq F] in
theorem posix_change {u : Update A (Owner P F)} {own : Owner P F}
    (h : ∀ p w, s.waiters p = some w → w.lock.lfId = .posix p) (p : P) (w : Waiter A P F I)
    (hw : (s.change i own u).waiters p = some w) : w.lock.lfId = .posix p := by
  obtain ⟨v, hv, hlock, -⟩ := change_waiters hw
  exact hlock ▸ h p v hv

/-- A call closes no short cycle, and it returns `EDEADLK` only when it would. -/
theorem Detected.setlock {wait : Bool} {s' : LockState A P F I} {answer : Answer}
    (h : s.Detected maxlockdepth) (hspare : s.Spare lock.addr lock.lfId)
    (hrun : s.waiters p = none) (hasked : lock.AskedBy p) (hnil : lock.lfBlock = [])
    (hsplit : s.structs splitlock = none) (hcareful : s.CarefulSet i splitlock lock)
    (hposix : ∃ q, lock.lfId = .posix q) (hshort : s.Short maxlockdepth p i lock)
    (hset : s.setlock maxlockdepth p i wait splitlock lock = some (s', answer)) :
    s'.Detected maxlockdepth ∧ (answer = .edeadlk → s.Closes maxlockdepth p i lock) := by
  have hqueued := h.queued.setlock hspare hrun hasked hnil hsplit hcareful hset
  have hlock := lfId_eq_of_askedBy hasked hposix
  unfold LockState.setlock at hset
  cases hgetblock : lfGetblock lock (s.lockf i) with
  | none =>
    rw [hgetblock] at hset
    obtain ⟨rfl, rfl⟩ := Prod.mk.inj (Option.some.inj hset)
    have hmoves := addLock_moves splitlock hnil (h.queued.table i) (hcareful.2 hgetblock)
    exact ⟨⟨hqueued, posix_change h.posix, h.acyclic.mono (waitsFor_change hmoves)⟩,
      fun hanswer ↦ nomatch hanswer⟩
  | some block =>
    obtain ⟨hmem, hid⟩ := lfGetblock_eq_some hgetblock
    rw [hgetblock] at hset
    dsimp only at hset
    by_cases hwait : wait = false
    · rw [if_pos hwait] at hset
      obtain ⟨rfl, rfl⟩ := Prod.mk.inj (Option.some.inj hset)
      exact ⟨⟨hqueued, h.posix, h.acyclic⟩, fun hanswer ↦ nomatch hanswer⟩
    rw [if_neg hwait] at hset
    cases hdead : s.deadlock maxlockdepth lock block with
    | none =>
      rw [hdead] at hset
      cases hset
    | some dead =>
      rw [hdead] at hset
      cases dead with
      | true =>
        obtain ⟨rfl, rfl⟩ := Prod.mk.inj (Option.some.inj hset)
        refine ⟨⟨hqueued, h.posix, h.acyclic⟩, fun _ ↦ ⟨block, hgetblock, ?_⟩⟩
        obtain ⟨b, hown, k, hk, hback, hcycle⟩ :=
          closes_of_deadlock h.queued hspare hrun hmem hlock hdead
        have hne : k + 1 ≠ maxlockdepth := by
          rintro rfl
          exact hshort block b hgetblock hown hback
        exact ⟨k + 1, by omega, hcycle⟩
      | false =>
        have hupgrade : s.upgrade i splitlock lock = s := by
          unfold LockState.upgrade
          rw [hlock]
        rw [hupgrade] at hset
        obtain ⟨rfl, rfl⟩ := Prod.mk.inj (Option.some.inj hset)
        refine ⟨⟨hqueued, sleep_waiters_forall h.posix hlock, ?_⟩, fun hanswer ↦ nomatch hanswer⟩
        exact NoDeadlock.sleep h.queued hspare hmem hid hlock hdead h.acyclic

/-- A careful step keeps short cycles away. -/
theorem Detected.step {s' : LockState A P F I} {e : Event A P F I} {answer : Option Answer}
    (h : s.Detected maxlockdepth) (hcareful : s.Careful e) (hposix : IsPosix e)
    (hshort : s.ShortSearch maxlockdepth e) (hstep : Step maxlockdepth s e answer s') :
    s'.Detected maxlockdepth ∧ (answer = some .edeadlk → s.WouldClose maxlockdepth e) := by
  have hqueued := h.queued.step hcareful hstep
  cases hstep with
  | @setlock p i wait splitlock lock _ _ hrun hasked hblock hlock hsplit hne hset =>
    obtain ⟨halloc, hspare⟩ := h.queued.alloc hlock
    have hsplit' : (s.alloc lock).structs splitlock = none :=
      (update_of_ne hne _ _).trans hsplit
    have hdetected : (s.alloc lock).Detected maxlockdepth := ⟨halloc, h.posix, h.acyclic⟩
    obtain ⟨hs', hcloses⟩ :=
      hdetected.setlock hspare hrun hasked hblock hsplit' hcareful hposix hshort hset
    exact ⟨hs', fun hanswer ↦ hcloses (Option.some.inj hanswer)⟩
  | clearlock hrun hasked hsplit =>
    exact ⟨⟨hqueued, posix_change h.posix,
      h.acyclic.mono (waitsFor_change (clearLock_moves _ _ _))⟩,
      fun hanswer ↦ nomatch hanswer⟩
  | @resume p splitlock w _ _ hw hrun hsplit hset =>
    obtain ⟨hnext, hcarefulSet⟩ := hcareful w hw
    obtain ⟨hrunQueued, hspare⟩ := h.queued.run hw hnext
    obtain ⟨hasked, hblock⟩ := h.queued.asked p w hw
    have hdetected : (s.run p).Detected maxlockdepth :=
      ⟨hrunQueued, fun q v hv ↦ h.posix q v (run_waiters_eq_some hv).2,
        h.acyclic.mono (waitsFor_run p)⟩
    have hshort' : (s.run p).Short maxlockdepth p w.inode w.lock :=
      fun block b hgetblock hown hpath ↦
        hshort w hw block b hgetblock hown (hpath.mono (waitsFor_run p))
    obtain ⟨hs', hcloses⟩ := hdetected.setlock hspare (run_waiters_self s p) hasked hblock hsplit
      hcarefulSet ⟨p, h.posix p w hw⟩ hshort' hset
    exact ⟨hs', fun hanswer ↦ ⟨w, hw, hcloses (Option.some.inj hanswer)⟩⟩
  | @interrupt p w hw hrun =>
    exact ⟨⟨hqueued, fun q v hv ↦ h.posix q v (run_waiters_eq_some hv).2,
      h.acyclic.mono (waitsFor_run p)⟩, fun hanswer ↦ nomatch hanswer⟩
  | @signal p w hw =>
    refine ⟨⟨hqueued, fun q v hv ↦ ?_, h.acyclic.mono waitsFor_signal⟩,
      fun hanswer ↦ nomatch hanswer⟩
    dsimp only at hv
    rcases eq_or_ne q p with rfl | hne
    · rw [update_self] at hv
      exact Option.some.inj hv ▸ h.posix q w hw
    · rw [update_of_ne hne] at hv
      exact h.posix q v hv

/-- What has to hold of the steps of a run for every deadlock to be found. -/
def DeadlockCond (maxlockdepth : ℕ) (s : LockState A P F I) (e : Event A P F I) : Prop :=
  s.Careful e ∧ IsPosix e ∧ s.ShortSearch maxlockdepth e

theorem Reach.detected (h : Reach maxlockdepth (DeadlockCond maxlockdepth) s) :
    s.Detected maxlockdepth := by
  induction h with
  | @init s h =>
    refine ⟨h.queued, fun p w hw ↦ ?_, fun p k _ hpath ↦ ?_⟩
    · rw [h.2 p] at hw
      cases hw
    · cases hpath with
      | cons hstep _ =>
        obtain ⟨w, hw, -⟩ := hstep
        rw [h.2 p] at hw
        cases hw
  | step _ hcond hstep ih => exact (ih.step hcond.1 hcond.2.1 hcond.2.2 hstep).1

/-- In a careful run of byte-range locks no cycle of at most `maxlockdepth` processes is asleep, and
`EDEADLK` is returned only when the request would close such a cycle. -/
theorem deadlock_detection (h : Reach maxlockdepth (DeadlockCond maxlockdepth) s) :
    s.NoDeadlock maxlockdepth ∧
      ∀ e s', DeadlockCond maxlockdepth s e → Step maxlockdepth s e (some .edeadlk) s' →
        s.WouldClose maxlockdepth e := by
  have hdetected := h.detected
  refine ⟨fun p k hk ↦ hdetected.acyclic p k (Nat.lt_succ_of_lt hk), fun e s' hcond hstep ↦ ?_⟩
  exact (hdetected.step hcond.1 hcond.2.1 hcond.2.2 hstep).2 rfl

end Runs

/-- A second process waits for a byte that the first one has locked. -/
theorem deadlock_detection_waiting :
    ∃ s : LockState ℕ ℕ ℕ Unit, Reach 50 (DeadlockCond 50) s ∧ s.WaitsFor 2 1 ∧
      s.NoDeadlock 50 ∧ ∀ e s', DeadlockCond 50 s e → Step 50 s e (some .edeadlk) s' →
        s.WouldClose 50 e := by
  have hinit : Reach 50 (DeadlockCond 50) start := .init initial_start
  have hcareful : start.CarefulSet () 9 ⟨1, .wrlck, 5, 5, .posix 1, []⟩ :=
    ⟨fun _ ↦ ⟨⟨by decide, by decide, by decide⟩, fun _ h ↦ absurd h List.not_mem_nil⟩,
      fun _ _ h ↦ absurd h List.not_mem_nil⟩
  have hlock := hinit.step (e := .setlock 1 () true 9 ⟨1, .wrlck, 5, 5, .posix 1, []⟩)
    ⟨hcareful, ⟨1, rfl⟩, fun _ _ h ↦ nomatch h⟩ (.setlock rfl rfl rfl rfl rfl (by decide) rfl)
  have hwait := hlock.step (e := .setlock 2 () true 9 ⟨2, .wrlck, 5, 5, .posix 2, []⟩)
    ⟨⟨fun h ↦ (nomatch h), fun h ↦ (nomatch h)⟩, ⟨2, rfl⟩, ?_⟩
    (.setlock rfl rfl rfl rfl rfl (by decide) rfl)
  · exact ⟨_, hwait, ⟨_, rfl, rfl, _, List.mem_cons_self, List.mem_cons_self, rfl⟩,
      deadlock_detection hwait⟩
  · intro block b hgetblock hown hpath
    obtain rfl := Option.some.inj hgetblock
    obtain rfl := Owner.posix.inj hown
    cases hpath with
    | cons hstep _ =>
      obtain ⟨w, hw, -⟩ := hstep
      cases hw

/-- When the first process locks more bytes around a lock that the second one waits for, and a third
process is given the memory of the freed lock, the first process can wait for the second one. -/
theorem deadlock_of_takeover :
    ∃ s : LockState ℕ ℕ ℕ Unit, Reach 50 (fun _ e ↦ IsPosix e) s ∧ ¬ s.NoDeadlock 50 := by
  have hinit : Reach 50 (fun _ e ↦ IsPosix e) start := .init initial_start
  have hlock := hinit.step (e := .setlock 1 () true 9 ⟨1, .wrlck, 5, 5, .posix 1, []⟩) ⟨1, rfl⟩
    (.setlock rfl rfl rfl rfl rfl (by decide) rfl)
  have hother := hlock.step (e := .setlock 2 () true 9 ⟨2, .wrlck, 20, 20, .posix 2, []⟩)
    ⟨2, rfl⟩ (.setlock rfl rfl rfl rfl rfl (by decide) rfl)
  have hwait := hother.step (e := .setlock 2 () true 9 ⟨3, .wrlck, 5, 5, .posix 2, []⟩) ⟨2, rfl⟩
    (.setlock rfl rfl rfl rfl rfl (by decide) rfl)
  have htake := hwait.step (e := .setlock 1 () true 9 ⟨4, .wrlck, 0, 10, .posix 1, []⟩) ⟨1, rfl⟩
    (.setlock rfl rfl rfl rfl rfl (by decide) rfl)
  have hreuse := htake.step (e := .setlock 3 () true 9 ⟨1, .wrlck, 30, 30, .posix 3, []⟩) ⟨3, rfl⟩
    (.setlock rfl rfl rfl rfl rfl (by decide) rfl)
  have hcycle := hreuse.step (e := .setlock 1 () true 9 ⟨5, .wrlck, 20, 20, .posix 1, []⟩) ⟨1, rfl⟩
    (.setlock rfl rfl rfl rfl rfl (by decide) rfl)
  refine ⟨_, hcycle, fun hno ↦ hno 1 1 (by decide) (.cons (b := 2) ?_ (.cons (b := 1) ?_ (.nil 1)))⟩
  · exact ⟨_, rfl, rfl, _, List.mem_cons_of_mem _ List.mem_cons_self, List.mem_cons_self, rfl⟩
  · exact ⟨_, rfl, rfl, _, List.mem_cons_self, List.mem_cons_self, rfl⟩

end Bsd386.Ufs.LockState
