import Bsd386.Lib.Machine
import Mathlib.Algebra.Ring.Int.Defs
import Mathlib.Data.List.Count
import Mathlib.Logic.Function.Basic

/-!
# Forking

`fork1` of `kern/fork.c` up to the point where the new process is in the list of all processes. It
checks the limits, looks for a process id, and allocates the process entry, where it can sleep while
other processes fork, exit and are waited for. When it wakes up and another search has moved
`nextpid`, it starts again.
-/

namespace Bsd386.Kern.Fork

open Function

/-- `PID_MAX`. -/
def pidMax : ℕ := 30000

/-- `ROLE_MGMT`. -/
def roleMgmt : ℕ := 1

/-- `EPERM`. -/
def eperm : ℕ := 1

/-- A process, with the user, the role and the limit `RLIMIT_NPROC` that its children take over. -/
structure Proc where
  pPid : ℕ
  pgId : ℕ
  crUid : ℕ
  crRole : ℕ
  rlimCur : ℤ
  deriving DecidableEq, Repr

/-- `use_priv` for `PRV_NO_UPROCLIMIT`. -/
def Proc.usePriv (p : Proc) : ℕ :=
  if roleMgmt < p.crRole then eperm else if p.crUid = 0 then 0 else eperm

/-- Lower `pidchecked` to an id above the candidate. -/
def bound (nextpid pidchecked id : ℕ) : ℕ :=
  if nextpid < id ∧ id < pidchecked then id else pidchecked

/-- The scan of the processes, first those of `allproc` and then those of `zombproc`: whether it
goes back to `retry`, `nextpid` and `pidchecked`. -/
def scan : List Proc → ℕ → ℕ → Bool × ℕ × ℕ
  | [], nextpid, pidchecked => (false, nextpid, pidchecked)
  | p2 :: rest, nextpid, pidchecked =>
    if p2.pPid = nextpid ∨ p2.pgId = nextpid then
      if pidchecked ≤ nextpid + 1 then (true, nextpid + 1, pidchecked)
      else
        scan rest (nextpid + 1)
          (bound (nextpid + 1) (bound (nextpid + 1) pidchecked p2.pPid) p2.pgId)
    else scan rest nextpid (bound nextpid (bound nextpid pidchecked p2.pPid) p2.pgId)

/-- The candidate behind the test for the end of the ids. -/
def wrapPid (nextpid : ℕ) : ℕ := if pidMax ≤ nextpid then 100 else nextpid

/-- `pidchecked` behind that test. -/
def wrapChecked (nextpid pidchecked : ℕ) : ℕ := if pidMax ≤ nextpid then 0 else pidchecked

/-- The search from `retry` on, for at most `fuel` turns. -/
def search (procs : List Proc) : ℕ → ℕ → ℕ → Option (ℕ × ℕ)
  | 0, _, _ => none
  | fuel + 1, nextpid, pidchecked =>
    if wrapChecked nextpid pidchecked ≤ wrapPid nextpid then
      if (scan procs (wrapPid nextpid) pidMax).1 then
        search procs fuel (scan procs (wrapPid nextpid) pidMax).2.1
          (scan procs (wrapPid nextpid) pidMax).2.2
      else some (scan procs (wrapPid nextpid) pidMax).2
    else some (wrapPid nextpid, wrapChecked nextpid pidchecked)

/-- A number of turns that is enough. -/
def searchFuel : ℕ := 2 * pidMax

/-- A call of `fork1` that waits for memory: its `mypid`, and the number of searches that were made
when it took it. -/
structure Waiting where
  mypid : ℕ
  stamp : ℕ
  deriving DecidableEq, Repr

/-- The processes by their addresses, the two lists, `nprocs`, `nextpid` and `pidchecked`, and the
calls that wait. `searches` only counts. -/
structure System (A : Type) where
  proc : A → Proc
  allproc : List A
  zombproc : List A
  nprocs : ℕ
  nextpid : ℕ
  pidchecked : ℕ
  waiting : A → Option Waiting
  searches : ℕ

/-- Why a call returns `EAGAIN`: the table of processes, or the limit of the user. -/
inductive Refusal
  | table
  | limit
  deriving DecidableEq, Repr

/-- How a step ends. -/
inductive Outcome
  | ignored
  | eagain (why : Refusal)
  | endless
  | asleep
  | child (pid : ℕ)
  | done
  deriving DecidableEq, Repr

/-- What happens: a call of `fork1`, the end of its allocation of the entry `p2`, the exit of a
process, the end of a zombie, and a process that is put into a process group. -/
inductive Event (A : Type)
  | fork1 (p1 : A)
  | malloc (p1 p2 : A)
  | exit (p : A)
  | wait4 (p : A)
  | enterpgrp (p : A) (pgid : ℕ)

variable {A : Type} [DecidableEq A]

/-- The processes of both lists. -/
def System.members (s : System A) : List A := s.allproc ++ s.zombproc

/-- The ids that are in use. -/
def System.ids (s : System A) : List ℕ :=
  s.members.flatMap fun a ↦ [(s.proc a).pPid, (s.proc a).pgId]

/-- The processes of a user, zombies included. -/
def System.count (s : System A) (uid : ℕ) : ℕ :=
  s.members.countP fun a ↦ (s.proc a).crUid = uid

/-- The checks from `redo` on. -/
def System.refusal (s : System A) (maxproc : ℕ) (p1 : A) : Option Refusal :=
  if maxproc ≤ s.nprocs ∨ (s.proc p1).usePriv ≠ 0 ∧ maxproc + 1 ≤ s.nprocs then some .table
  else if (s.proc p1).usePriv = 0 ∧ (s.proc p1).rlimCur < s.count (s.proc p1).crUid then some .limit
  else none

/-- `fork1` from `redo` to the allocation. -/
def System.redo (s : System A) (maxproc : ℕ) (p1 : A) : Outcome × System A :=
  match s.refusal maxproc p1 with
  | some why => (.eagain why, { s with waiting := update s.waiting p1 none })
  | none =>
    match search (s.members.map s.proc) searchFuel (s.nextpid + 1) s.pidchecked with
    | none => (.endless, s)
    | some found =>
      (.asleep,
        { s with
          nextpid := found.1
          pidchecked := found.2
          waiting := update s.waiting p1 (some ⟨found.1, s.searches + 1⟩)
          searches := s.searches + 1 })

/-- The new entry in the list of all processes. -/
def System.insert (s : System A) (p1 p2 : A) (mypid : ℕ) : System A :=
  { s with
    proc := update s.proc p2 { s.proc p1 with pPid := mypid }
    allproc := p2 :: s.allproc
    nprocs := s.nprocs + 1
    waiting := update s.waiting p1 none }

/-- `fork1` from the end of the allocation on. -/
def System.malloc (s : System A) (maxproc : ℕ) (p1 p2 : A) (w : Waiting) : Outcome × System A :=
  if w.mypid ≠ s.nextpid then s.redo maxproc p1
  else (.child w.mypid, s.insert p1 p2 w.mypid)

/-- One step. A process makes one call at a time, an entry that is allocated is not in use, and a
process can enter its own process group and those of other processes. -/
def System.exec (maxproc : ℕ) (s : System A) : Event A → Outcome × System A
  | .fork1 p1 =>
    if p1 ∈ s.allproc ∧ (s.waiting p1).isNone then s.redo maxproc p1 else (.ignored, s)
  | .malloc p1 p2 =>
    match s.waiting p1 with
    | none => (.ignored, s)
    | some w => if p2 ∈ s.members then (.ignored, s) else s.malloc maxproc p1 p2 w
  | .exit p =>
    if p ∈ s.allproc ∧ (s.waiting p).isNone then
      (.done, { s with allproc := s.allproc.erase p, zombproc := p :: s.zombproc })
    else (.ignored, s)
  | .wait4 p =>
    if p ∈ s.zombproc then
      (.done, { s with zombproc := s.zombproc.erase p, nprocs := s.nprocs - 1 })
    else (.ignored, s)
  | .enterpgrp p pgid =>
    if p ∈ s.allproc ∧ (pgid = (s.proc p).pPid ∨ ∃ q ∈ s.members, (s.proc q).pgId = pgid) then
      (.done, { s with proc := update s.proc p { s.proc p with pgId := pgid } })
    else (.ignored, s)

end Bsd386.Kern.Fork
