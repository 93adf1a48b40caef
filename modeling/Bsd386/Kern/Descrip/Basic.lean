import Mathlib.Algebra.GroupWithZero.Nat
import Mathlib.Algebra.Ring.Int.Defs
import Mathlib.Logic.Function.Basic
import Bsd386.Kern.Fault

/-!
# Descriptor tables

The descriptor calls of `kern/descrip.c`. A table has two arrays of `fd_nfiles` entries, the open
files and their flags, which are kept here as one list of pairs. `fd_lastfile` and `fd_freefile`
bound the descriptors in use and are kept in 16 bits, as is the reference count of a file. An access
behind the end of an array, and one to a file that was freed, are faults. Closing a mapped
descriptor clears `UF_MAPPED` first, which changes nothing, as the flags are overwritten next; what
`fo_close` returns is left out.
-/

namespace Bsd386.Kern.Descrip

/-- `NDFILE`. -/
def ndfile : ℕ := 20

/-- `NDEXTENT`. -/
def ndextent : ℕ := 50

/-- `UF_EXCLOSE`. -/
def ufExclose : BitVec 8 := 0x01

/-- The errors of the calls. -/
inductive Errno
  | ebadf
  | einval
  | emfile
  | enfile
  deriving DecidableEq, Repr

/-- The value that a `u_short` keeps. -/
def ushort (n : ℕ) : ℕ := n % 2 ^ 16

/-- The value that a `short` keeps. -/
def short (n : ℤ) : ℤ := n.bmod (2 ^ 16)

/-- An entry of `fd_ofiles` and of `fd_ofileflags`. -/
structure Slot (F : Type) where
  file : Option F
  flags : BitVec 8
  deriving DecidableEq

/-- `struct filedesc`, with both arrays in `slots`. -/
structure Filedesc (F : Type) where
  slots : List (Slot F)
  lastfile : ℕ
  freefile : ℕ
  refcnt : ℕ

/-- The global file table: `f_count` of the files that are allocated, and `nfiles`. -/
structure Files (F : Type) where
  count : F → Option ℤ
  nfiles : ℤ

variable {F : Type}

/-- `fd_nfiles`. -/
def Filedesc.nfiles (fdp : Filedesc F) : ℕ := fdp.slots.length

/-- The entry at `fd`. -/
def Filedesc.entry (fdp : Filedesc F) (fd : ℕ) : Except Fault (Slot F) :=
  match fdp.slots[fd]? with
  | some x => .ok x
  | none => .error .wildPointer

/-- Store an entry at `fd`. -/
def Filedesc.store (fdp : Filedesc F) (fd : ℕ) (x : Slot F) : Except Fault (Filedesc F) :=
  if fd < fdp.nfiles then .ok { fdp with slots := fdp.slots.set fd x } else .error .wildPointer

/-- The entry of a descriptor that a call was given, if the descriptor is open. -/
def Filedesc.opened (fdp : Filedesc F) (fd : ℕ) : Option (F × BitVec 8) :=
  (fdp.slots[fd]?).bind fun x ↦ x.file.map fun fp ↦ (fp, x.flags)

/-- Raise `fd_lastfile` to `fd`. -/
def Filedesc.raise (fdp : Filedesc F) (fd : ℕ) : Filedesc F :=
  if fdp.lastfile < fd then { fdp with lastfile := ushort fd } else fdp

/-! ### The file table -/

section Files

variable [DecidableEq F]

/-- `fp->f_count++`. -/
def Files.hold (files : Files F) (fp : F) : Except Fault (Files F) :=
  match files.count fp with
  | some n => .ok { files with count := Function.update files.count fp (some (short (n + 1))) }
  | none => .error .wildPointer

/-- `closef`, without the locks. -/
def Files.closef (files : Files F) (fp : F) : Except Fault (Files F) :=
  match files.count fp with
  | some n =>
    if 0 < short (n - 1) then
      .ok { files with count := Function.update files.count fp (some (short (n - 1))) }
    else .ok ⟨Function.update files.count fp none, files.nfiles - 1⟩
  | none => .error .wildPointer

end Files

/-! ### Allocation of a descriptor -/

/-- The first entry from `i` on and before `last` without a file. -/
def scan (slots : List (Slot F)) (i last : ℕ) : Option ℕ :=
  (List.range' i (last - i)).find? fun i ↦ ((slots[i]?).bind Slot.file).isNone

/-- `min(fd_nfiles, lim)`, which compares as unsigned. -/
def scanLimit (nfiles : ℕ) (lim : ℤ) : ℕ := if lim < 0 then nfiles else min nfiles lim.toNat

/-- The new size of a table that is full. -/
def newSize (nfiles : ℕ) (lim : ℤ) : ℕ :=
  if nfiles < ndextent then ndextent else 2 * nfiles % lim.toNat

/-- Enlarge the table. The old entries are copied whatever the new size is, and the count of the
bytes to clear is taken as unsigned. -/
def Filedesc.enlarge (fdp : Filedesc F) (lim : ℤ) : Except Fault (Filedesc F) :=
  if newSize fdp.nfiles lim < fdp.nfiles then .error .wildPointer
  else
    .ok { fdp with
      slots := fdp.slots ++ List.replicate (newSize fdp.nfiles lim - fdp.nfiles) ⟨none, 0⟩ }

/-- The loop of `fdalloc`, for at most `fuel` turns. -/
def fdallocLoop (lim : ℤ) (want : ℕ) :
    ℕ → Filedesc F → Except Fault (Filedesc F × Except Errno ℕ)
  | 0, _ => .error .endless
  | fuel + 1, fdp =>
    match scan fdp.slots (max want fdp.freefile) (scanLimit fdp.nfiles lim) with
    | some i => do
      let fdp ← fdp.store i ⟨none, 0⟩
      let fdp := fdp.raise i
      return (if want ≤ fdp.freefile then { fdp with freefile := ushort i } else fdp, .ok i)
    | none =>
      if lim ≤ fdp.nfiles then .ok (fdp, .error .emfile)
      else do
        fdallocLoop lim want fuel (← fdp.enlarge lim)

/-- `fdalloc`. Every turn but the last makes the table larger. -/
def fdalloc (lim : ℤ) (want : ℕ) (fdp : Filedesc F) :
    Except Fault (Filedesc F × Except Errno ℕ) :=
  fdallocLoop lim want (lim.toNat + 2) fdp

/-! ### The calls -/

/-- What a call leaves: the table of the process, the file table, and its result. -/
abbrev Outcome (F : Type) : Type := Filedesc F × Files F × Except Errno ℕ

/-- Open the descriptor `fd`, raising `fd_lastfile`. -/
def Filedesc.install (fdp : Filedesc F) (fd : ℕ) (fp : F) (flags : BitVec 8) :
    Except Fault (Filedesc F) := do
  let fdp ← fdp.store fd ⟨some fp, flags⟩
  return fdp.raise fd

variable [DecidableEq F]

/-- `falloc`, when `MALLOC` gives the address `fp`. -/
def falloc (maxfiles : ℤ) (lim : ℤ) (fp : F) (fdp : Filedesc F) (files : Files F) :
    Except Fault (Outcome F) := do
  match ← fdalloc lim 0 fdp with
  | (fdp, .error e) => return (fdp, files, .error e)
  | (fdp, .ok i) =>
    if maxfiles ≤ files.nfiles then return (fdp, files, .error .enfile)
    else
      let x ← fdp.entry i
      let fdp ← fdp.store i { x with file := some fp }
      return (fdp, ⟨Function.update files.count fp (some 1), files.nfiles + 1⟩, .ok i)

/-- `dup`. -/
def dup (lim : ℤ) (i : ℕ) (fdp : Filedesc F) (files : Files F) : Except Fault (Outcome F) :=
  match fdp.opened i with
  | none => .ok (fdp, files, .error .ebadf)
  | some (fp, _) => do
    match ← fdalloc lim 0 fdp with
    | (fdp, .error e) => return (fdp, files, .error e)
    | (fdp, .ok fd) =>
      let x ← fdp.entry i
      let fdp ← fdp.install fd fp (x.flags &&& ~~~ufExclose)
      return (fdp, ← files.hold fp, .ok fd)

/-- `dup2`. -/
def dup2 (lim : ℤ) (old new : ℕ) (fdp : Filedesc F) (files : Files F) :
    Except Fault (Outcome F) :=
  match fdp.opened old with
  | none => .ok (fdp, files, .error .ebadf)
  | some (fp, _) =>
    if lim % 2 ^ 32 ≤ new then .ok (fdp, files, .error .ebadf)
    else if old = new then .ok (fdp, files, .ok new)
    else if fdp.nfiles ≤ new then do
      match ← fdalloc lim new fdp with
      | (fdp, .error e) => return (fdp, files, .error e)
      | (fdp, .ok _) =>
        let x ← fdp.entry old
        let fdp ← fdp.install new fp (x.flags &&& ~~~ufExclose)
        return (fdp, ← files.hold fp, .ok new)
    else do
      let files ← match fdp.opened new with
        | some (fq, _) => files.closef fq
        | none => .ok files
      let x ← fdp.entry old
      let fdp ← fdp.install new fp (x.flags &&& ~~~ufExclose)
      return (fdp, ← files.hold fp, .ok new)

/-- `fcntl` with `F_DUPFD`. The pointer to the flags of `fd` is taken before `fdalloc`, which frees
the arrays it replaces unless they are those inside of the table; it then reads what the freed
memory holds, `freed`. -/
def dupfd (lim : ℤ) (fd arg : ℕ) (freed : BitVec 8) (fdp : Filedesc F) (files : Files F) :
    Except Fault (Outcome F) :=
  match fdp.opened fd with
  | none => .ok (fdp, files, .error .ebadf)
  | some (fp, flags) =>
    if lim % 2 ^ 32 ≤ arg then .ok (fdp, files, .error .einval)
    else do
      match ← fdalloc lim arg fdp with
      | (fdp', .error e) => return (fdp', files, .error e)
      | (fdp', .ok i) =>
        let pop := if ndfile < fdp.nfiles ∧ fdp'.nfiles ≠ fdp.nfiles then freed else flags
        let fdp' ← fdp'.install i fp (pop &&& ~~~ufExclose)
        return (fdp', ← files.hold fp, .ok i)

/-- `fcntl` with `F_SETFD`. -/
def setfd (fd : ℕ) (arg : BitVec 8) (fdp : Filedesc F) (files : Files F) :
    Except Fault (Outcome F) :=
  match fdp.opened fd with
  | none => .ok (fdp, files, .error .ebadf)
  | some (fp, flags) => do
    let fdp ← fdp.store fd ⟨some fp, flags &&& ~~~ufExclose ||| arg &&& 1⟩
    return (fdp, files, .ok 0)

/-- Lower `fd_lastfile` to a descriptor in use. -/
def lower (slots : List (Slot F)) : ℕ → Except Fault ℕ
  | 0 => .ok 0
  | n + 1 =>
    match slots[n + 1]? with
    | none => .error .wildPointer
    | some x => if x.file.isNone then lower slots n else .ok (n + 1)

/-- `close`. -/
def close (fd : ℕ) (fdp : Filedesc F) (files : Files F) : Except Fault (Outcome F) :=
  match fdp.opened fd with
  | none => .ok (fdp, files, .error .ebadf)
  | some (fp, _) => do
    let fdp ← fdp.store fd ⟨none, 0⟩
    let lastfile ← lower fdp.slots fdp.lastfile
    let freefile := if fd < fdp.freefile then ushort fd else fdp.freefile
    return ({ fdp with lastfile := lastfile, freefile := freefile }, ← files.closef fp, .ok 0)

/-- The loop of `fdcloseexec`, over `n` entries from `i` on. -/
def closeexecLoop : ℕ → ℕ → Filedesc F → Files F → Except Fault (Filedesc F × Files F)
  | 0, _, fdp, files => .ok (fdp, files)
  | n + 1, i, fdp, files => do
    let x ← fdp.entry i
    match x.file with
    | some fp =>
      if x.flags &&& ufExclose ≠ 0 then
        let files ← files.closef fp
        let fdp ← fdp.store i ⟨none, 0⟩
        let freefile := if i < fdp.freefile then ushort i else fdp.freefile
        closeexecLoop n (i + 1) { fdp with freefile := freefile } files
      else closeexecLoop n (i + 1) fdp files
    | none => closeexecLoop n (i + 1) fdp files

/-- `fdcloseexec`. -/
def fdcloseexec (fdp : Filedesc F) (files : Files F) : Except Fault (Outcome F) := do
  let (fdp, files) ← closeexecLoop (fdp.lastfile + 1) 0 fdp files
  let lastfile ← lower fdp.slots fdp.lastfile
  return ({ fdp with lastfile := lastfile }, files, .ok 0)

/-- The size of the copy of a table, halved while it seems to be too large. -/
def shrink (lastfile i : ℕ) : ℕ :=
  if h : 2 * ndextent < i ∧ lastfile * 2 ≤ i then shrink lastfile (i / 2) else i
termination_by i
decreasing_by
  exact Nat.div_lt_self (Nat.lt_of_le_of_lt (Nat.zero_le _) h.1) Nat.one_lt_two

/-- Count the references of `n` entries from `i` on. -/
def holdLoop (fdp : Filedesc F) : ℕ → ℕ → Files F → Except Fault (Files F)
  | 0, _, files => .ok files
  | n + 1, i, files => do
    let x ← fdp.entry i
    match x.file with
    | some fp => holdLoop fdp n (i + 1) (← files.hold fp)
    | none => holdLoop fdp n (i + 1) files

/-- `fdcopy`. -/
def fdcopy (fdp : Filedesc F) (files : Files F) : Except Fault (Filedesc F × Files F) :=
  let i := if fdp.lastfile < ndfile then ndfile else shrink fdp.lastfile fdp.nfiles
  if fdp.nfiles < i then .error .wildPointer
  else do
    let newfdp := { fdp with slots := fdp.slots.take i, refcnt := 1 }
    return (newfdp, ← holdLoop newfdp (newfdp.lastfile + 1) 0 files)

/-- Close `n` entries from `i` on. -/
def closeLoop (fdp : Filedesc F) : ℕ → ℕ → Files F → Except Fault (Files F)
  | 0, _, files => .ok files
  | n + 1, i, files => do
    let x ← fdp.entry i
    match x.file with
    | some fp => closeLoop fdp n (i + 1) (← files.closef fp)
    | none => closeLoop fdp n (i + 1) files

/-- `fdfree`, which leaves no table when the last reference to it goes. -/
def fdfree (fdp : Filedesc F) (files : Files F) : Except Fault (Option (Filedesc F) × Files F) :=
  if 0 < fdp.refcnt - 1 then .ok (some { fdp with refcnt := fdp.refcnt - 1 }, files)
  else do
    return (none, ← closeLoop fdp (fdp.lastfile + 1) 0 files)

end Bsd386.Kern.Descrip
