import Bsd386.Ufs.Lockf.Set
import Bsd386.Ufs.Lockf.Waiters
import Mathlib.Logic.Function.Basic

/-!
# Runs of lock requests

Any number of owners set and clear ranges of one file. A request to set a range is granted when no
lock of another owner blocks it, and is refused or put on a blocked list otherwise. As long as no
request runs into the last byte that a `long` can name below a lock without a bound, the list stands
for a function from owners and bytes to types of lock which every request changes in its own range
only, and no byte is locked exclusively beside another lock.
-/

namespace Bsd386.Ufs

variable {A O : Type} [DecidableEq O]

/-- A call of `lf_setlock` or `lf_clearlock`, with the structure that a split would allocate. -/
inductive Request (A O : Type)
  | set (splitlock : A) (lock : Lockf A O)
  | clear (splitlock : A) (unlock : Lockf A O)

/-- The call names a range, and when the range ends with the last byte its owner has no lock without
a bound, except that a lock which is set may lie in such a lock of its own type. -/
def Fits (l : List (Lockf A O)) : Request A O → Prop
  | .set _ lock => lfGetblock lock l = none → lock.IsRange ∧
      ∀ lf ∈ l, lf.Wraps lock → lf.lfType = lock.lfType ∧ lf.lfStart ≤ lock.lfStart
  | .clear _ unlock => unlock.IsRange ∧ ∀ lf ∈ l, ¬ lf.Wraps unlock

/-! ## The function that a list stands for -/

/-- An owner's bytes in a range are given a value. -/
def assign (f : O → ℤ → Option LfType) (lock : Lockf A O) (t : Option LfType) :
    O → ℤ → Option LfType :=
  fun o x ↦ if o = lock.lfId ∧ lock.Covers x then t else f o x

/-- What a call should make of the function: a range is set when the request is granted, and cleared
without a condition. -/
def Request.apply (l : List (Lockf A O)) (f : O → ℤ → Option LfType) :
    Request A O → O → ℤ → Option LfType
  | .set _ lock => if lfGetblock lock l = none then assign f lock (some lock.lfType) else f
  | .clear _ unlock => assign f unlock none

/-- A byte that is locked exclusively is locked by one owner. -/
def Exclusive (f : O → ℤ → Option LfType) : Prop :=
  ∀ o o' x, o ≠ o' → f o x = some .wrlck → f o' x = none

omit [DecidableEq O] in
/-- Locks that share a byte overlap. -/
theorem ovcase_ne_noOverlap {lf lock : Lockf A O} {x : ℤ} (hlf : lf.Covers x)
    (hlock : lock.Covers x) : ovcase lf lock ≠ .noOverlap := by
  intro hcase
  have hno := ovcase_noOverlap hcase
  unfold Lockf.Covers at hlf hlock
  omega

/-- Where no lock blocks a request, the locks that overlap it are shared. -/
theorem lfGetblock_eq_none {lock : Lockf A O} {l : List (Lockf A O)} (h : lfGetblock lock l = none)
    {lf : Lockf A O} (hlf : lf ∈ l) (hid : lf.lfId ≠ lock.lfId)
    (hcase : ovcase lf lock ≠ .noOverlap) : lock.lfType = .rdlck ∧ lf.lfType = .rdlck := by
  induction l with
  | nil => exact absurd hlf List.not_mem_nil
  | cons a l ih =>
    rw [lfGetblock] at h
    split_ifs at h with hblocks
    rcases List.mem_cons.1 hlf with rfl | hlf
    · have hshared : ¬ (lock.lfType = .wrlck ∨ lf.lfType = .wrlck) :=
        fun hexcl ↦ hblocks ⟨hid, hcase, hexcl⟩
      cases hlock : lock.lfType <;> cases htype : lf.lfType <;> simp_all
    · exact ih h hlf

/-- What blocks a request is a lock of another owner. -/
theorem lfGetblock_eq_some {lock block : Lockf A O} {l : List (Lockf A O)}
    (h : lfGetblock lock l = some block) : block ∈ l ∧ block.lfId ≠ lock.lfId := by
  induction l with
  | nil => cases h
  | cons a l ih =>
    rw [lfGetblock] at h
    split_ifs at h with hblocks
    · obtain rfl := Option.some.inj h
      exact ⟨List.mem_cons_self, hblocks.1⟩
    · exact ⟨List.mem_cons_of_mem a (ih h).1, (ih h).2⟩

theorem lockAt_of_granted {lock : Lockf A O} {l : List (Lockf A O)} (h : lfGetblock lock l = none)
    {o : O} {x : ℤ} {t : LfType} (ho : o ≠ lock.lfId) (hcovers : lock.Covers x)
    (hlockAt : lockAt l o x = some t) : lock.lfType = .rdlck ∧ t = .rdlck := by
  obtain ⟨lf, hlf, rfl, hlfx, rfl⟩ := lockAt_eq_some hlockAt
  exact lfGetblock_eq_none h hlf ho (ovcase_ne_noOverlap hlfx hcovers)

/-- A request that nothing blocks gives no byte to a second owner unless both share it. -/
theorem Exclusive.assign_lock {lock : Lockf A O} {l : List (Lockf A O)}
    (hexcl : Exclusive (lockAt l)) (h : lfGetblock lock l = none) :
    Exclusive (assign (lockAt l) lock (some lock.lfType)) := by
  intro o o' x hne hwrlck
  unfold assign at hwrlck ⊢
  split_ifs at hwrlck with hown
  · obtain ⟨rfl, hcovers⟩ := hown
    rw [if_neg fun hboth ↦ hne hboth.1.symm]
    refine Option.eq_none_iff_forall_ne_some.2 fun t ht ↦ ?_
    have hshared := (lockAt_of_granted h hne.symm hcovers ht).1
    rw [Option.some.inj hwrlck] at hshared
    cases hshared
  · rw [if_neg]
    · exact hexcl o o' x hne hwrlck
    · rintro ⟨rfl, hcovers⟩
      exact absurd (lockAt_of_granted h hne hcovers hwrlck).2 (by decide)

theorem Exclusive.assign_none {f : O → ℤ → Option LfType} (hexcl : Exclusive f)
    (unlock : Lockf A O) : Exclusive (assign f unlock none) := by
  intro o o' x hne hwrlck
  unfold assign at hwrlck ⊢
  split_ifs at hwrlck
  split_ifs
  · rfl
  · exact hexcl o o' x hne hwrlck

/-! ## Runs -/

variable [DecidableEq A]

/-- What a call makes of the list. -/
inductive Step (l : List (Lockf A O)) : Request A O → List (Lockf A O) → Prop
  | granted {splitlock : A} {lock : Lockf A O} (h : lfGetblock lock l = none) :
      Step l (.set splitlock lock) (addLock splitlock true lock l).list
  /-- `EAGAIN` or `EDEADLK` -/
  | refused {splitlock : A} {lock block : Lockf A O} (h : lfGetblock lock l = some block) :
      Step l (.set splitlock lock) l
  | blocked {splitlock : A} {lock block : Lockf A O} (h : lfGetblock lock l = some block) :
      Step l (.set splitlock lock) (lfAddblock block.addr [lock.addr] l)
  | cleared {splitlock : A} {unlock : Lockf A O} :
      Step l (.clear splitlock unlock) (clearLock splitlock unlock l).list

/-- The lists that calls which meet a condition can reach. -/
inductive Reach (cond : List (Lockf A O) → Request A O → Prop) : List (Lockf A O) → Prop
  | empty : Reach cond []
  | step {l l' : List (Lockf A O)} {r : Request A O} (h : Reach cond l) (hcond : cond l r)
      (hstep : Step l r l') : Reach cond l'

theorem lockAt_lfAddblock (block : A) (blocked : List A) (l : List (Lockf A O)) :
    lockAt (lfAddblock block blocked l) = lockAt l := by
  funext o x
  induction l with
  | nil => rfl
  | cons lf l ih =>
    rw [lfAddblock, List.map_cons, lockAt_cons, lockAt_cons]
    unfold lfAddblock at ih
    rw [ih]
    by_cases hblock : lf.addr = block
    · rw [if_pos hblock]
      rfl
    · rw [if_neg hblock]

omit [DecidableEq O] in
theorem Table.lfAddblock {l : List (Lockf A O)} (h : Table l) (block : A) (blocked : List A) :
    Table (lfAddblock block blocked l) := by
  refine ⟨List.forall_mem_map.2 fun lf hlf ↦ ?_, List.pairwise_map.2 (h.sorted.imp ?_)⟩
  · obtain ⟨hnonneg, hmax, hends⟩ := h.ranges lf hlf
    split_ifs <;> exact ⟨hnonneg, hmax, hends⟩
  · intro a b hbefore
    split_ifs <;> exact hbefore

/-- What holds of every list in a run whose calls fit. -/
structure Sound (l : List (Lockf A O)) : Prop where
  table : Table l
  exclusive : Exclusive (lockAt l)

/-- A call changes the function as it should. -/
theorem Step.lockAt_eq {l l' : List (Lockf A O)} {r : Request A O} (hstep : Step l r l')
    (h : Table l) (hfits : Fits l r) : Table l' ∧ lockAt l' = r.apply l (lockAt l) := by
  cases hstep with
  | @granted splitlock lock hnone =>
    obtain ⟨hrange, hwraps⟩ := hfits hnone
    have hadded : Added lock l (addLock splitlock true lock l).list :=
      addLock_spec h hrange hwraps
    refine ⟨hadded.table, ?_⟩
    rw [Request.apply, if_pos hnone]
    funext o x
    exact hadded.lockAt_eq o x
  | refused hsome =>
    refine ⟨h, ?_⟩
    rw [Request.apply, if_neg]
    rw [hsome]
    exact Option.some_ne_none _
  | blocked hsome =>
    refine ⟨h.lfAddblock _ _, ?_⟩
    rw [lockAt_lfAddblock, Request.apply, if_neg]
    rw [hsome]
    exact Option.some_ne_none _
  | @cleared splitlock unlock =>
    obtain ⟨hrange, hwraps⟩ := hfits
    have hcleared : Cleared unlock l (clearLock splitlock unlock l).list :=
      clearLock_spec h hrange hwraps
    refine ⟨hcleared.table, ?_⟩
    funext o x
    exact hcleared.lockAt_eq o x

theorem Sound.step {l l' : List (Lockf A O)} {r : Request A O} (h : Sound l) (hfits : Fits l r)
    (hstep : Step l r l') : Sound l' := by
  obtain ⟨htable, hlockAt⟩ := hstep.lockAt_eq h.table hfits
  refine ⟨htable, ?_⟩
  rw [hlockAt]
  cases r with
  | set splitlock lock =>
    rw [Request.apply]
    split_ifs with hnone
    · exact h.exclusive.assign_lock hnone
    · exact h.exclusive
  | clear splitlock unlock => exact h.exclusive.assign_none unlock

theorem Reach.sound {l : List (Lockf A O)} (h : Reach Fits l) : Sound l := by
  induction h with
  | empty => exact ⟨table_nil, fun _ _ _ _ hwrlck ↦ nomatch hwrlck⟩
  | step _ hfits hstep ih => exact ih.step hfits hstep

end Bsd386.Ufs

/-!
# Processes that lock files

Any number of processes call `lf_setlock` and `lf_clearlock` for any number of inodes. A call runs
without interruption up to `tsleep`. A process that sleeps there is woken by `lf_wakelock` or by a
signal, and goes on with another search for a lock that blocks it, or frees its request and returns
an error.

The memory holds the allocated `lockf` structures, each with the owner that its `lf_flags` and
`lf_id` name. These two never change, and the search for a deadlock reads nothing else but the
`lf_next` of sleeping requests.
-/

namespace Bsd386.Ufs

open Function

/-- `F_POSIX` with a process, or `F_FLOCK` with an open file: what `lf_flags` and `lf_id` name. -/
inductive Owner (P F : Type)
  | posix (p : P)
  | flock (f : F)
  deriving DecidableEq

/-- A process that has gone to sleep in `lf_setlock`: its request, whose `lf_next` names the lock
that blocked it until the request is woken, and whether the process still sleeps. -/
structure Waiter (A P F I : Type) where
  lock : Lockf A (Owner P F)
  inode : I
  lfNext : Option A
  asleep : Bool

/-- The lists of locks, the allocated structures and the processes in `tsleep`. -/
structure LockState (A P F I : Type) where
  lockf : I → List (Lockf A (Owner P F))
  structs : A → Option (Owner P F)
  waiters : P → Option (Waiter A P F I)

/-- How a call of `lf_setlock` ends, or that it sleeps. -/
inductive Answer
  | granted
  | eagain
  | edeadlk
  | sleeps
  deriving DecidableEq

variable {A P F I : Type}

/-- What the callers of `lf_setlock` promise: a byte-range lock belongs to the process that asks for
it, and a lock of an open file covers the whole file. -/
def Lockf.AskedBy (lock : Lockf A (Owner P F)) (p : P) : Prop :=
  match lock.lfId with
  | .posix q => q = p
  | .flock _ => lock.lfStart = 0 ∧ lock.lfEnd = -1

namespace LockState

variable [DecidableEq A] [DecidableEq P] [DecidableEq F] [DecidableEq I]

/-- A request is allocated. -/
def alloc (s : LockState A P F I) (lock : Lockf A (Owner P F)) : LockState A P F I :=
  { s with structs := update s.structs lock.addr (some lock.lfId) }

/-- A request is freed. -/
def free (s : LockState A P F I) (a : A) : LockState A P F I :=
  { s with structs := update s.structs a none }

/-- A process is in `tsleep` no more. -/
def run (s : LockState A P F I) (p : P) : LockState A P F I :=
  { s with waiters := update s.waiters p none }

/-- The list of an inode changes: structures are freed and allocated, and the processes that sleep
on the requests which are woken can go on. -/
def change (s : LockState A P F I) (i : I) (own : Owner P F) (u : Update A (Owner P F)) :
    LockState A P F I where
  lockf := update s.lockf i u.list
  structs a := if a ∈ u.made then some own else if a ∈ u.freed then none else s.structs a
  waiters p := (s.waiters p).map fun w ↦
    if w.lock.addr ∈ u.woken then { w with lfNext := none, asleep := false } else w

/-- A request is put on the blocked list of a lock and its process sleeps. -/
def sleep (s : LockState A P F I) (p : P) (i : I) (lock block : Lockf A (Owner P F)) :
    LockState A P F I where
  lockf := update s.lockf i (lfAddblock block.addr [lock.addr] (s.lockf i))
  structs := s.structs
  waiters := update s.waiters p
    (some { lock, inode := i, lfNext := some block.addr, asleep := true })

/-- The search for a cycle from a process on, for at most so many processes: whether it comes to the
owner of the request. It has no result when it would read a structure that is not allocated. -/
def search (s : LockState A P F I) (own : P) : ℕ → P → Option Bool
  | 0, _ => some false
  | n + 1, wproc =>
    match s.waiters wproc with
    | none => some false
    | some w =>
      if w.asleep then
        match w.lfNext.bind s.structs with
        | none => none
        | some (.flock _) => some false
        | some (.posix q) => if q = own then some true else s.search own n q
      else some false

/-- The check for a deadlock before a request sleeps on a lock. -/
def deadlock (s : LockState A P F I) (maxlockdepth : ℕ) (lock block : Lockf A (Owner P F)) :
    Option Bool :=
  match lock.lfId, block.lfId with
  | .posix own, .posix wproc => s.search own maxlockdepth wproc
  | _, _ => some false

/-- For flock type locks, shared locks are removed before an exclusive lock is waited for. -/
def upgrade (s : LockState A P F I) (i : I) (splitlock : A) (lock : Lockf A (Owner P F)) :
    LockState A P F I :=
  match lock.lfId, lock.lfType with
  | .flock _, .wrlck => s.change i lock.lfId (clearLock splitlock lock (s.lockf i))
  | _, _ => s

/-- `lf_setlock` from the search for a lock that blocks the request, up to its end or to `tsleep`.
-/
def setlock (s : LockState A P F I) (maxlockdepth : ℕ) (p : P) (i : I) (wait : Bool) (splitlock : A)
    (lock : Lockf A (Owner P F)) : Option (LockState A P F I × Answer) :=
  match lfGetblock lock (s.lockf i) with
  | none => some (s.change i lock.lfId (addLock splitlock true lock (s.lockf i)), .granted)
  | some block =>
    if wait = false then some (s.free lock.addr, .eagain)
    else
      match s.deadlock maxlockdepth lock block with
      | none => none
      | some true => some (s.free lock.addr, .edeadlk)
      | some false => some ((s.upgrade i splitlock lock).sleep p i lock block, .sleeps)

end LockState

/-- What happens: a call, the end of a sleep, or a signal for a process that sleeps. -/
inductive Event (A P F I : Type)
  | setlock (p : P) (i : I) (wait : Bool) (splitlock : A) (lock : Lockf A (Owner P F))
  | clearlock (p : P) (i : I) (splitlock : A) (unlock : Lockf A (Owner P F))
  | resume (p : P) (splitlock : A)
  | interrupt (p : P)
  | signal (p : P)

namespace LockState

variable [DecidableEq A] [DecidableEq P] [DecidableEq F] [DecidableEq I]

/-- The steps of the processes. A structure that a call allocates is any one that is free. -/
inductive Step (maxlockdepth : ℕ) (s : LockState A P F I) :
    Event A P F I → Option Answer → LockState A P F I → Prop
  | setlock {p : P} {i : I} {wait : Bool} {splitlock : A} {lock : Lockf A (Owner P F)}
      {s' : LockState A P F I} {answer : Answer} (hrun : s.waiters p = none)
      (hasked : lock.AskedBy p) (hblock : lock.lfBlock = []) (hlock : s.structs lock.addr = none)
      (hsplit : s.structs splitlock = none) (hne : splitlock ≠ lock.addr)
      (h : (s.alloc lock).setlock maxlockdepth p i wait splitlock lock = some (s', answer)) :
      Step maxlockdepth s (.setlock p i wait splitlock lock) (some answer) s'
  | clearlock {p : P} {i : I} {splitlock : A} {unlock : Lockf A (Owner P F)}
      (hrun : s.waiters p = none) (hasked : unlock.AskedBy p)
      (hsplit : s.structs splitlock = none) :
      Step maxlockdepth s (.clearlock p i splitlock unlock) none
        (s.change i unlock.lfId (clearLock splitlock unlock (s.lockf i)))
  /-- `tsleep` returns 0 -/
  | resume {p : P} {splitlock : A} {w : Waiter A P F I} {s' : LockState A P F I} {answer : Answer}
      (hw : s.waiters p = some w) (hrun : w.asleep = false) (hsplit : s.structs splitlock = none)
      (h : (s.run p).setlock maxlockdepth p w.inode true splitlock w.lock = some (s', answer)) :
      Step maxlockdepth s (.resume p splitlock) (some answer) s'
  /-- `tsleep` returns an error -/
  | interrupt {p : P} {w : Waiter A P F I} (hw : s.waiters p = some w) (hrun : w.asleep = false) :
      Step maxlockdepth s (.interrupt p) none ((s.run p).free w.lock.addr)
  | signal {p : P} {w : Waiter A P F I} (hw : s.waiters p = some w) :
      Step maxlockdepth s (.signal p) none
        { s with waiters := update s.waiters p (some { w with asleep := false }) }

/-- No file is locked and nobody waits. -/
def Initial (s : LockState A P F I) : Prop :=
  (∀ i, s.lockf i = []) ∧ ∀ p, s.waiters p = none

/-- The states that steps which meet a condition can reach. -/
inductive Reach (maxlockdepth : ℕ) (cond : LockState A P F I → Event A P F I → Prop) :
    LockState A P F I → Prop
  | init {s : LockState A P F I} (h : s.Initial) : Reach maxlockdepth cond s
  | step {s s' : LockState A P F I} {e : Event A P F I} {answer : Option Answer}
      (h : Reach maxlockdepth cond s) (hcond : cond s e) (hstep : Step maxlockdepth s e answer s') :
      Reach maxlockdepth cond s'

end LockState

end Bsd386.Ufs
