import Mathlib.Algebra.Ring.Int.Defs

/-!
# Byte-range locks

`ufs/ufs_lockf.c` keeps the advisory locks of a file in a list hanging off its inode. Each owner's
locks are sorted by their first byte. A request that is granted replaces what its owner holds in
its range: overlapping locks change their type, shrink, are split or go away.

A list of locks is the list of its structures, each with its address and the list of the
structures blocked on it. The first and last byte are `long` values of 32 bits, and a last byte of
`-1` means that there is no bound.
-/

namespace Bsd386.Ufs

variable {A O : Type}

/-- `F_RDLCK` and `F_WRLCK` -/
inductive LfType
  | rdlck
  | wrlck
  deriving DecidableEq

/-- `struct lockf`, with the list of blocked locks that begins at `lf_block`. The owner stands for
`lf_id` and the kind of lock in `lf_flags`. -/
structure Lockf (A O : Type) where
  addr : A
  lfType : LfType
  lfStart : ℤ
  lfEnd : ℤ
  lfId : O
  lfBlock : List A
  deriving DecidableEq

/-- What a `long` holds after a value has been assigned to it. -/
def toLong (x : ℤ) : ℤ := (x + 2 ^ 31) % 2 ^ 32 - 2 ^ 31

/-- The six cases of overlap. -/
inductive Ovcase
  | noOverlap
  | equal
  | overlapContains
  | lockContains
  | startsBefore
  | endsAfter
  deriving DecidableEq

/-- How a lock on the list overlaps another: the tests of `lf_findoverlap`, the last of which
always holds. -/
def ovcase (lf lock : Lockf A O) : Ovcase :=
  if lf.lfEnd ≠ -1 ∧ lock.lfStart > lf.lfEnd ∨ lock.lfEnd ≠ -1 ∧ lf.lfStart > lock.lfEnd then
    .noOverlap
  else if lf.lfStart = lock.lfStart ∧ lf.lfEnd = lock.lfEnd then .equal
  else if lf.lfStart ≤ lock.lfStart ∧ lock.lfEnd ≠ -1 ∧
      (lf.lfEnd ≥ lock.lfEnd ∨ lf.lfEnd = -1) then .overlapContains
  else if lock.lfStart ≤ lf.lfStart ∧
      (lock.lfEnd = -1 ∨ lf.lfEnd ≠ -1 ∧ lock.lfEnd ≥ lf.lfEnd) then .lockContains
  else if lf.lfStart < lock.lfStart ∧ (lf.lfEnd ≥ lock.lfStart ∨ lf.lfEnd = -1) then .startsBefore
  else .endsAfter

/-- What a change of a list makes: the new list, the lock when it is on the list before, the
requests that are woken, and the structures that are freed or allocated. -/
structure Update (A O : Type) where
  lock : Lockf A O
  list : List (Lockf A O)
  woken : List A := []
  freed : List A := []
  made : List A := []

/-- The search goes on behind a lock. -/
def Update.cons (lf : Lockf A O) (u : Update A O) : Update A O := { u with list := lf :: u.list }

/-- `lf_wakelock`: what is left of the lock. Its list of blocked requests is woken. -/
def lfWakelock (lf : Lockf A O) : Lockf A O := { lf with lfBlock := [] }

/-- `lf_split`: what comes before and behind the second lock on the list, and whether the new
structure has been allocated. -/
def lfSplit (splitlock : A) (lock1 lock2 : Lockf A O) :
    List (Lockf A O) × List (Lockf A O) × List A :=
  if lock1.lfStart = lock2.lfStart then
    ([], [{ lock1 with lfStart := toLong (lock2.lfEnd + 1) }], [])
  else if lock1.lfEnd = lock2.lfEnd then
    ([{ lock1 with lfEnd := toLong (lock2.lfStart - 1) }], [], [])
  else
    ([{ lock1 with lfEnd := toLong (lock2.lfStart - 1) }],
      [{ lock1 with addr := splitlock, lfStart := toLong (lock2.lfEnd + 1), lfBlock := [] }],
      [splitlock])

variable [DecidableEq O]

/-- `lf_getblock`: the first lock of another owner that blocks a request. -/
def lfGetblock (lock : Lockf A O) : List (Lockf A O) → Option (Lockf A O)
  | [] => none
  | lf :: rest =>
    if lf.lfId ≠ lock.lfId ∧ ovcase lf lock ≠ .noOverlap ∧
        (lock.lfType = .wrlck ∨ lf.lfType = .wrlck) then some lf
    else lfGetblock lock rest

/-- `lf_addblock`: requests are put at the end of the blocked list of a lock. -/
def lfAddblock [DecidableEq A] (block : A) (blocked : List A) (l : List (Lockf A O)) :
    List (Lockf A O) :=
  l.map fun lf ↦ if lf.addr = block then { lf with lfBlock := lf.lfBlock ++ blocked } else lf

/-- The loop of `lf_setlock` that adds the lock, from a place on the list on. -/
def addLock (splitlock : A) (needtolink : Bool) (lock : Lockf A O) :
    List (Lockf A O) → Update A O
  | [] => { lock, list := if needtolink then [lock] else [] }
  | lf :: rest =>
    if lf.lfId ≠ lock.lfId then (addLock splitlock needtolink lock rest).cons lf
    else
      match ovcase lf lock with
      | .noOverlap =>
        if lock.lfEnd ≠ -1 ∧ lf.lfStart > lock.lfEnd then
          { lock, list := if needtolink then lock :: lf :: rest else lf :: rest }
        else (addLock splitlock needtolink lock rest).cons lf
      | .equal =>
        -- If downgrading lock, others may be able to acquire it
        if lock.lfType = .rdlck ∧ lf.lfType = .wrlck then
          { lock
            list := { lfWakelock lf with lfType := lock.lfType } :: rest
            woken := lf.lfBlock
            freed := [lock.addr] }
        else { lock, list := { lf with lfType := lock.lfType } :: rest, freed := [lock.addr] }
      | .overlapContains =>
        if lf.lfType = lock.lfType then { lock, list := lf :: rest, freed := [lock.addr] }
        else if lf.lfStart = lock.lfStart then
          { lock
            list := lock :: { lfWakelock lf with lfStart := toLong (lock.lfEnd + 1) } :: rest
            woken := lf.lfBlock }
        else
          let pieces := lfSplit splitlock (lfWakelock lf) lock
          { lock
            list := pieces.1 ++ lock :: (pieces.2.1 ++ rest)
            woken := lf.lfBlock
            made := pieces.2.2 }
      | .lockContains =>
        -- If downgrading lock, others may be able to acquire it, otherwise take the list
        let down := lock.lfType = .rdlck ∧ lf.lfType = .wrlck
        let lock := if down then lock else { lock with lfBlock := lf.lfBlock ++ lock.lfBlock }
        let u := addLock splitlock false lock rest
        { u with
          list := if needtolink then u.lock :: u.list else u.list
          woken := if down then lf.lfBlock ++ u.woken else u.woken
          freed := lf.addr :: u.freed }
      | .startsBefore =>
        let u := addLock splitlock false lock rest
        { u with
          list := { lfWakelock lf with lfEnd := toLong (lock.lfStart - 1) } :: u.lock :: u.list
          woken := lf.lfBlock ++ u.woken }
      | .endsAfter =>
        let lf' := { lfWakelock lf with lfStart := toLong (lock.lfEnd + 1) }
        { lock
          list := if needtolink then lock :: lf' :: rest else lf' :: rest
          woken := lf.lfBlock }

/-- The loop of `lf_clearlock`, from a place on the list on. -/
def clearLock (splitlock : A) (unlock : Lockf A O) : List (Lockf A O) → Update A O
  | [] => { lock := unlock, list := [] }
  | lf :: rest =>
    if lf.lfId ≠ unlock.lfId then (clearLock splitlock unlock rest).cons lf
    else
      match ovcase lf unlock with
      | .noOverlap =>
        if unlock.lfEnd ≠ -1 ∧ lf.lfStart > unlock.lfEnd then
          { lock := unlock, list := lf :: rest }
        else (clearLock splitlock unlock rest).cons lf
      | .equal => { lock := unlock, list := rest, woken := lf.lfBlock, freed := [lf.addr] }
      | .overlapContains =>
        if lf.lfStart = unlock.lfStart then
          { lock := unlock
            list := { lfWakelock lf with lfStart := toLong (unlock.lfEnd + 1) } :: rest
            woken := lf.lfBlock }
        else
          let pieces := lfSplit splitlock (lfWakelock lf) unlock
          { lock := unlock
            list := pieces.1 ++ (pieces.2.1 ++ rest)
            woken := lf.lfBlock
            made := pieces.2.2 }
      | .lockContains =>
        let u := clearLock splitlock unlock rest
        { u with woken := lf.lfBlock ++ u.woken, freed := lf.addr :: u.freed }
      | .startsBefore =>
        let u := clearLock splitlock unlock rest
        { u with
          list := { lfWakelock lf with lfEnd := toLong (unlock.lfStart - 1) } :: u.list
          woken := lf.lfBlock ++ u.woken }
      | .endsAfter =>
        { lock := unlock
          list := { lfWakelock lf with lfStart := toLong (unlock.lfEnd + 1) } :: rest
          woken := lf.lfBlock }

/-! ## The locks of other owners -/

section Other

variable {lf lock : Lockf A O}

theorem addLock_other (splitlock : A) (needtolink : Bool) (rest : List (Lockf A O))
    (hid : lf.lfId ≠ lock.lfId) : addLock splitlock needtolink lock (lf :: rest) =
      (addLock splitlock needtolink lock rest).cons lf :=
  if_pos hid

theorem clearLock_other (splitlock : A) (rest : List (Lockf A O)) (hid : lf.lfId ≠ lock.lfId) :
    clearLock splitlock lock (lf :: rest) = (clearLock splitlock lock rest).cons lf :=
  if_pos hid

end Other

/-! ## The cases of overlap -/

section Ovcase

variable {lf lock : Lockf A O}

omit [DecidableEq O]

theorem ovcase_noOverlap (h : ovcase lf lock = .noOverlap) :
    lf.lfEnd ≠ -1 ∧ lock.lfStart > lf.lfEnd ∨ lock.lfEnd ≠ -1 ∧ lf.lfStart > lock.lfEnd := by
  unfold ovcase at h
  split_ifs at h with hno
  exact hno

theorem ovcase_equal (h : ovcase lf lock = .equal) :
    lf.lfStart = lock.lfStart ∧ lf.lfEnd = lock.lfEnd := by
  unfold ovcase at h
  split_ifs at h with _ heq
  exact heq

theorem ovcase_overlapContains (h : ovcase lf lock = .overlapContains) :
    lf.lfStart ≤ lock.lfStart ∧ lock.lfEnd ≠ -1 ∧ (lf.lfEnd ≥ lock.lfEnd ∨ lf.lfEnd = -1) ∧
      ¬ (lf.lfStart = lock.lfStart ∧ lf.lfEnd = lock.lfEnd) := by
  unfold ovcase at h
  split_ifs at h with _ hne hcontains
  exact ⟨hcontains.1, hcontains.2.1, hcontains.2.2, hne⟩

theorem ovcase_lockContains (h : ovcase lf lock = .lockContains) :
    lock.lfStart ≤ lf.lfStart ∧ (lock.lfEnd = -1 ∨ lf.lfEnd ≠ -1 ∧ lock.lfEnd ≥ lf.lfEnd) := by
  unfold ovcase at h
  split_ifs at h with _ _ _ hcontains
  exact hcontains

theorem ovcase_startsBefore (h : ovcase lf lock = .startsBefore) :
    lf.lfStart < lock.lfStart ∧ (lf.lfEnd ≥ lock.lfStart ∨ lf.lfEnd = -1) ∧
      (lock.lfEnd = -1 ∨ lf.lfEnd ≠ -1 ∧ lf.lfEnd < lock.lfEnd) := by
  unfold ovcase at h
  split_ifs at h with _ _ _ _ hbefore
  omega

/-- The last test of `lf_findoverlap` holds when none of the others does. -/
theorem ovcase_endsAfter (h : ovcase lf lock = .endsAfter) :
    lf.lfStart > lock.lfStart ∧ lock.lfEnd ≠ -1 ∧ (lf.lfEnd > lock.lfEnd ∨ lf.lfEnd = -1) ∧
      lf.lfStart ≤ lock.lfEnd := by
  unfold ovcase at h
  split_ifs at h
  omega

end Ovcase

end Bsd386.Ufs
