import Mathlib.Algebra.Group.Nat.Defs
import Mathlib.Logic.Function.Basic
import Mathlib.Logic.Relation
import Bsd386.Kern.Fault

/-!
# Sleep locks

`kern/lock.c` implements shared and exclusive locks with upgrades, downgrades and a recursive mode.
Every routine runs without interruption up to a `tsleep`, so each is a function from the lock to
the lock and an outcome: it has returned, or it has gone to sleep at one of five points. The system
around one lock is any set of threads, switching at those points, together with a record of the
holds granted and not yet released, which the code itself does not keep.
-/

namespace Bsd386.Kern.Lock

variable {Tid : Type*} [DecidableEq Tid]

/-- `struct lock`. The two counters are bit fields, 16 and 8 bits wide; `thread` is `none` for
the address of `nothread`. -/
structure LockData (Tid : Type*) where
  readCount : ℕ
  recursionDepth : ℕ
  wantWrite : Bool
  wantUpgrade : Bool
  waiting : Bool
  thread : Option Tid

/-- The calls of `tsleep`, in source order. -/
inductive Point
  | writeReserve
  | writeDrain
  | read
  | upgrade
  | tryUpgrade
  deriving DecidableEq, Repr

/-- How the running segment of a routine ends. -/
inductive Outcome
  | returned (value : Bool)
  | sleeps (point : Point)
  deriving DecidableEq, Repr

/-- The effect of one segment: the new lock, whether it called `wakeup`, and how it ended. -/
structure Effect (Tid : Type*) where
  lock : LockData Tid
  woke : Bool
  outcome : Outcome

namespace LockData

/-- `lock_init`, over whatever the memory held before; `waiting` is not initialised. -/
def lockInit (l : LockData Tid) : LockData Tid :=
  { l with wantWrite := false, wantUpgrade := false, readCount := 0, thread := none,
           recursionDepth := 0 }

/-- `read_count++` and `read_count--` on the 16-bit field. -/
def readCountInc (l : LockData Tid) : LockData Tid :=
  { l with readCount := (l.readCount + 1) % 2 ^ 16 }

def readCountDec (l : LockData Tid) : LockData Tid :=
  { l with readCount := if l.readCount = 0 then 2 ^ 16 - 1 else l.readCount - 1 }

/-- `recursion_depth++` and `recursion_depth--` on the 8-bit field. -/
def depthInc (l : LockData Tid) : LockData Tid :=
  { l with recursionDepth := (l.recursionDepth + 1) % 2 ^ 8 }

def depthDec (l : LockData Tid) : LockData Tid :=
  { l with recursionDepth := if l.recursionDepth = 0 then 2 ^ 8 - 1 else l.recursionDepth - 1 }

/-- Return without having called `wakeup`. -/
def return_ (l : LockData Tid) (value : Bool) : Effect Tid := ⟨l, false, .returned value⟩

/-- `waiting = TRUE` and `tsleep`. -/
def sleep (l : LockData Tid) (point : Point) : Effect Tid :=
  ⟨{ l with waiting := true }, false, .sleeps point⟩

/-- `if (l->waiting)`: clear the bit, `wakeup` every sleeper, and return. -/
def wakeReturn (l : LockData Tid) (value : Bool) : Effect Tid :=
  ⟨{ l with waiting := false }, l.waiting, .returned value⟩

/-- The second loop of `lock_write`: wait for readers and upgrades to release. -/
def lockWriteDrain (l : LockData Tid) : Effect Tid :=
  if l.readCount ≠ 0 ∨ l.wantUpgrade then l.sleep .writeDrain else l.return_ true

/-- The first loop of `lock_write`: wait for the write lock, then reserve it. -/
def lockWriteReserve (l : LockData Tid) : Effect Tid :=
  if l.wantWrite then l.sleep .writeReserve else lockWriteDrain { l with wantWrite := true }

def lockWrite (l : LockData Tid) (curproc : Tid) : Effect Tid :=
  if l.thread = some curproc then l.depthInc.return_ true else l.lockWriteReserve

/-- Undo the write access that the fields suggest: recursion, then upgrade, then write. -/
def releaseWrite (l : LockData Tid) : LockData Tid :=
  if l.recursionDepth ≠ 0 then l.depthDec
  else if l.wantUpgrade then { l with wantUpgrade := false }
  else { l with wantWrite := false }

def lockDone (l : LockData Tid) : Effect Tid :=
  (if l.readCount ≠ 0 then l.readCountDec else l.releaseWrite).wakeReturn true

/-- The loop of `lock_read`. -/
def lockReadWait (l : LockData Tid) : Effect Tid :=
  if l.wantWrite ∨ l.wantUpgrade then l.sleep .read else l.readCountInc.return_ true

def lockRead (l : LockData Tid) (curproc : Tid) : Effect Tid :=
  if l.thread = some curproc then l.readCountInc.return_ true else l.lockReadWait

/-- The loop of `lock_read_to_write`; `FALSE` means that the upgrade succeeded. -/
def lockUpgradeWait (l : LockData Tid) : Effect Tid :=
  if l.readCount ≠ 0 then l.sleep .upgrade else l.return_ false

def lockReadToWrite (l : LockData Tid) (curproc : Tid) : Effect Tid :=
  if l.thread = some curproc then l.readCountDec.depthInc.return_ false
  else if l.wantUpgrade then l.readCountDec.wakeReturn true
  else lockUpgradeWait { l.readCountDec with wantUpgrade := true }

def lockWriteToRead (l : LockData Tid) : Effect Tid :=
  l.readCountInc.releaseWrite.wakeReturn true

def lockTryWrite (l : LockData Tid) (curproc : Tid) : Effect Tid :=
  if l.thread = some curproc then l.depthInc.return_ true
  else if l.wantWrite ∨ l.wantUpgrade ∨ l.readCount ≠ 0 then l.return_ false
  else { l with wantWrite := true }.return_ true

def lockTryRead (l : LockData Tid) (curproc : Tid) : Effect Tid :=
  if l.thread = some curproc then l.readCountInc.return_ true
  else if l.wantWrite ∨ l.wantUpgrade then l.return_ false
  else l.readCountInc.return_ true

/-- The loop of `lock_try_read_to_write`; here `TRUE` means that the upgrade succeeded. -/
def lockTryUpgradeWait (l : LockData Tid) : Effect Tid :=
  if l.readCount ≠ 0 then l.sleep .tryUpgrade else l.return_ true

def lockTryReadToWrite (l : LockData Tid) (curproc : Tid) : Effect Tid :=
  if l.thread = some curproc then l.readCountDec.depthInc.return_ true
  else if l.wantUpgrade then l.return_ false
  else lockTryUpgradeWait { l.readCountDec with wantUpgrade := true }

def lockSetRecursive (l : LockData Tid) (curproc : Tid) : Except Fault (Effect Tid) :=
  if ¬ l.wantWrite then .error (.panic "lock_set_recursive: don't have write lock")
  else if l.thread ≠ some curproc ∧ l.thread ≠ none then
    .error (.panic "lock_set_recursive: already set recursive")
  else .ok ({ l with thread := some curproc }.return_ true)

def lockClearRecursive (l : LockData Tid) (curproc : Tid) : Except Fault (Effect Tid) :=
  if l.thread ≠ some curproc then .error (.panic "lock_clear_recursive: wrong thread")
  else .ok ((if l.recursionDepth = 0 then { l with thread := none } else l).return_ true)

end LockData

/-! ## Threads around one lock -/

/-- The routines a thread may call. -/
inductive Call
  | write
  | read
  | readToWrite
  | writeToRead
  | tryWrite
  | tryRead
  | tryReadToWrite
  | done
  | setRecursive
  | clearRecursive
  deriving DecidableEq, Repr

/-- Run the first segment of a routine. -/
def LockData.call (l : LockData Tid) (curproc : Tid) : Call → Except Fault (Effect Tid)
  | .write => .ok (l.lockWrite curproc)
  | .read => .ok (l.lockRead curproc)
  | .readToWrite => .ok (l.lockReadToWrite curproc)
  | .writeToRead => .ok l.lockWriteToRead
  | .tryWrite => .ok (l.lockTryWrite curproc)
  | .tryRead => .ok (l.lockTryRead curproc)
  | .tryReadToWrite => .ok (l.lockTryReadToWrite curproc)
  | .done => .ok l.lockDone
  | .setRecursive => l.lockSetRecursive curproc
  | .clearRecursive => l.lockClearRecursive curproc

/-- Continue a routine after its `tsleep` returned. -/
def LockData.resume (l : LockData Tid) : Point → Effect Tid
  | .writeReserve => l.lockWriteReserve
  | .writeDrain => l.lockWriteDrain
  | .read => l.lockReadWait
  | .upgrade => l.lockUpgradeWait
  | .tryUpgrade => l.lockTryUpgradeWait

/-- A thread is outside every lock routine, asleep in one, or runnable inside one. -/
inductive Status
  | idle
  | asleep (point : Point)
  | woken (point : Point)
  deriving DecidableEq, Repr

/-- The point of a routine at which a thread is. -/
def Status.point : Status → Option Point
  | .idle => none
  | .asleep point => some point
  | .woken point => some point

/-- The effect of `wakeup` on a thread. -/
def Status.wake : Status → Status
  | .asleep point => .woken point
  | status => status

/-- One lock and its threads. `readers` and `writers` list the holds granted and not yet released,
once for each; `downgraded` marks the threads that have downgraded since they set recursion. -/
structure System (Tid : Type*) where
  lock : LockData Tid
  status : Tid → Status
  readers : List Tid
  writers : List Tid
  downgraded : Tid → Bool

namespace System

/-- The holds as a completed routine leaves them. An upgrade gives up the shared hold when it
starts; `lock_done` gives up a shared hold if the thread has one and an exclusive one if not. -/
def settle (s : System Tid) (t : Tid) : Call → Outcome → System Tid
  | .write, .returned _ => { s with writers := t :: s.writers }
  | .read, .returned _ => { s with readers := t :: s.readers }
  | .readToWrite, .returned failed =>
    if failed then { s with readers := s.readers.erase t }
    else { s with readers := s.readers.erase t, writers := t :: s.writers }
  | .readToWrite, .sleeps _ => { s with readers := s.readers.erase t }
  | .writeToRead, .returned _ =>
    { s with
      writers := s.writers.erase t
      readers := t :: s.readers
      downgraded :=
        if s.lock.thread = some t then Function.update s.downgraded t true else s.downgraded }
  | .tryWrite, .returned granted => if granted then { s with writers := t :: s.writers } else s
  | .tryRead, .returned granted => if granted then { s with readers := t :: s.readers } else s
  | .tryReadToWrite, .returned granted =>
    if granted then { s with readers := s.readers.erase t, writers := t :: s.writers } else s
  | .tryReadToWrite, .sleeps _ => { s with readers := s.readers.erase t }
  | .done, .returned _ =>
    if t ∈ s.readers then { s with readers := s.readers.erase t }
    else { s with writers := s.writers.erase t }
  | .setRecursive, .returned _ => { s with downgraded := Function.update s.downgraded t false }
  | _, _ => s

/-- The hold a resumed routine grants when it returns. -/
def settleResumed (s : System Tid) (t : Tid) : Point → Outcome → System Tid
  | .read, .returned _ => { s with readers := t :: s.readers }
  | _, .returned _ => { s with writers := t :: s.writers }
  | _, .sleeps _ => s

/-- Install the effect of a segment run by `t`: the lock, the wakeup, and where `t` now is. -/
def install (s : System Tid) (t : Tid) (effect : Effect Tid) : System Tid :=
  { s with
    lock := effect.lock
    status := Function.update
      (fun x ↦ if effect.woke then (s.status x).wake else s.status x) t
      (match effect.outcome with
        | .returned _ => .idle
        | .sleeps point => .asleep point) }

/-- The discipline: a thread releases, upgrades or downgrades only what it holds, sets recursion
only as an exclusive holder, clears it before its last release, and while it is recursive and has
downgraded asks for read access only. -/
def Allowed (s : System Tid) (t : Tid) : Call → Prop
  | .write | .tryWrite => s.lock.thread = some t → s.downgraded t = false
  | .read | .tryRead => True
  | .readToWrite | .tryReadToWrite =>
    t ∈ s.readers ∧ (s.lock.thread = some t → s.downgraded t = false)
  | .writeToRead => t ∈ s.writers
  | .done =>
    (t ∈ s.readers ∨ t ∈ s.writers) ∧
      (s.readers.count t + s.writers.count t = 1 → s.lock.thread ≠ some t)
  | .setRecursive => t ∈ s.writers
  | .clearRecursive => s.lock.thread = some t

/-- One segment of one thread. A panic stops the system, so it has no successor. -/
inductive Step (s : System Tid) : System Tid → Prop
  | call (t : Tid) (call : Call) (effect : Effect Tid) : s.status t = .idle → s.Allowed t call →
      s.lock.call t call = .ok effect → Step s ((s.settle t call effect.outcome).install t effect)
  | resume (t : Tid) (point : Point) : s.status t = .woken point →
      Step s ((s.settleResumed t point (s.lock.resume point).outcome).install t
        (s.lock.resume point))

/-- The lock as `lock_init` leaves it, held and used by nobody. -/
def Initial (s : System Tid) : Prop :=
  (∃ l : LockData Tid, s.lock = l.lockInit) ∧ (∀ t, s.status t = .idle) ∧ s.readers = [] ∧
    s.writers = []

/-- The states of all runs. -/
def Reachable (s : System Tid) : Prop := ∃ start, Initial start ∧ Relation.ReflTransGen Step start s

/-- At most one thread holds the lock exclusively, and while one does no other holds it shared. -/
def Exclusive (s : System Tid) : Prop :=
  (∀ t ∈ s.writers, ∀ u ∈ s.writers, t = u) ∧ ∀ t ∈ s.writers, ∀ u ∈ s.readers, u = t

/-- Nobody holds the lock and nobody is about to run inside a lock routine, yet someone sleeps. -/
def Stranded (s : System Tid) : Prop :=
  s.readers = [] ∧ s.writers = [] ∧ (∀ t point, s.status t ≠ .woken point) ∧
    ∃ t point, s.status t = .asleep point

end System

end Bsd386.Kern.Lock
