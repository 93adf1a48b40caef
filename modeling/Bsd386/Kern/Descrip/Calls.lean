import Bsd386.Kern.Descrip.Table

/-!
# The descriptor calls

Each call on a table whose bounds are right leaves such a table, counts the references it makes and
drops, and changes the map of the open descriptors as its name says. The counts are those of the
table together with `others`, the references from elsewhere.
-/

namespace Bsd386.Kern.Descrip

variable {F : Type} [DecidableEq F]

/-- The calls of a process on its own table, with their arguments: the address that `MALLOC` gives
to `falloc`, and what the freed memory holds for `F_DUPFD`. -/
inductive Call (F : Type)
  | fdalloc (want : ℕ)
  | falloc (fp : F)
  | dup (i : ℕ)
  | dup2 (old new : ℕ)
  | dupfd (fd arg : ℕ) (freed : BitVec 8)
  | setfd (fd : ℕ) (arg : BitVec 8)
  | close (fd : ℕ)
  | fdcloseexec

/-- The code of a call. -/
def Call.run (maxfiles lim : ℤ) (fdp : Filedesc F) (files : Files F) :
    Call F → Except Fault (Outcome F)
  | .fdalloc want => do
    let result ← Descrip.fdalloc lim want fdp
    return (result.1, files, result.2)
  | .falloc fp => Descrip.falloc maxfiles lim fp fdp files
  | .dup i => Descrip.dup lim i fdp files
  | .dup2 old new => Descrip.dup2 lim old new fdp files
  | .dupfd fd arg freed => Descrip.dupfd lim fd arg freed fdp files
  | .setfd fd arg => Descrip.setfd fd arg fdp files
  | .close fd => Descrip.close fd fdp files
  | .fdcloseexec => Descrip.fdcloseexec fdp files

section Run

variable {maxfiles lim : ℤ} {fdp : Filedesc F} {files : Files F}

theorem run_falloc (fp : F) :
    (Call.falloc fp).run maxfiles lim fdp files = falloc maxfiles lim fp fdp files := rfl

theorem run_dup (i : ℕ) : (Call.dup i).run maxfiles lim fdp files = dup lim i fdp files := rfl

theorem run_dup2 (old new : ℕ) :
    (Call.dup2 old new).run maxfiles lim fdp files = dup2 lim old new fdp files := rfl

theorem run_dupfd (fd arg : ℕ) (freed : BitVec 8) :
    (Call.dupfd fd arg freed).run maxfiles lim fdp files = dupfd lim fd arg freed fdp files := rfl

theorem run_setfd (fd : ℕ) (arg : BitVec 8) :
    (Call.setfd fd arg).run maxfiles lim fdp files = setfd fd arg fdp files := rfl

theorem run_close (fd : ℕ) :
    (Call.close fd).run maxfiles lim fdp files = close fd fdp files := rfl

end Run

/-- A descriptor marked to be closed by `execve`. -/
def closesOnExec (entry : Option (F × BitVec 8)) : Bool :=
  entry.any fun opened ↦ opened.2 &&& ufExclose ≠ 0

/-- What a call returns and how it changes the open descriptors: only the descriptor that it opens,
replaces or closes. -/
def Call.Spec (lim : ℤ) (full : Prop) (table : Table F) (r : Except Errno ℕ) (table' : Table F) :
    Call F → Prop
  | .fdalloc want => Allocates table lim want r ∧ table' = table
  | .falloc fp =>
    (∃ fd, r = .ok fd ∧ Allocates table lim 0 r ∧
      table' = Function.update table fd (some (fp, 0))) ∨
      (r = .error .emfile ∧ Allocates table lim 0 r ∧ table' = table) ∨
        (r = .error .enfile ∧ full ∧ table' = table)
  | .dup i =>
    match table i with
    | none => r = .error .ebadf ∧ table' = table
    | some (fp, flags) =>
      Allocates table lim 0 r ∧
        ((∃ fd, r = .ok fd ∧
          table' = Function.update table fd (some (fp, flags &&& ~~~ufExclose))) ∨
            (r = .error .emfile ∧ table' = table))
  | .dup2 old new =>
    match table old with
    | none => r = .error .ebadf ∧ table' = table
    | some (fp, flags) =>
      if lim % 2 ^ 32 ≤ new then r = .error .ebadf ∧ table' = table
      else
        r = .ok new ∧
          table' = if old = new then table
            else Function.update table new (some (fp, flags &&& ~~~ufExclose))
  | .dupfd fd arg _ =>
    match table fd with
    | none => r = .error .ebadf ∧ table' = table
    | some (fp, _) =>
      if lim % 2 ^ 32 ≤ arg then r = .error .einval ∧ table' = table
      else
        Allocates table lim arg r ∧
          ((∃ i flags, r = .ok i ∧ table' = Function.update table i (some (fp, flags))) ∨
            (r = .error .emfile ∧ table' = table))
  | .setfd fd arg =>
    match table fd with
    | none => r = .error .ebadf ∧ table' = table
    | some (fp, flags) =>
      r = .ok 0 ∧ table' = Function.update table fd
        (some (fp, flags &&& ~~~ufExclose ||| arg &&& 1))
  | .close fd =>
    if table fd = none then r = .error .ebadf ∧ table' = table
    else r = .ok 0 ∧ table' = Function.update table fd none
  | .fdcloseexec =>
    r = .ok 0 ∧ table' = fun d ↦ if closesOnExec (table d) then none else table d

/-- What a call needs of the arithmetic: `fdalloc` enlarges the table to the right sizes, a
descriptor fits into a `u_short` and one more reference into a `short`. -/
def Call.Meets (lim : ℤ) (fdp : Filedesc F) (total : F → ℕ) : Call F → Prop
  | .fdalloc want => fdp.Allocatable lim want
  | .falloc _ => fdp.Allocatable lim 0
  | .dup i =>
    ∀ fp flags, fdp.opened i = some (fp, flags) → fdp.Allocatable lim 0 ∧ total fp + 1 < 2 ^ 15
  | .dup2 old new =>
    ∀ fp flags, fdp.opened old = some (fp, flags) → new < lim % 2 ^ 32 → old ≠ new →
      (fdp.nfiles ≤ new → fdp.Allocatable lim new) ∧ new < 2 ^ 16 ∧ total fp + 1 < 2 ^ 15
  | .dupfd fd arg _ =>
    ∀ fp flags, fdp.opened fd = some (fp, flags) → arg < lim % 2 ^ 32 →
      fdp.Allocatable lim arg ∧ total fp + 1 < 2 ^ 15
  | .setfd _ _ | .close _ | .fdcloseexec => True

/-- The address that `MALLOC` gives is free. -/
def Call.Possible (files : Files F) : Call F → Prop
  | .falloc fp => files.count fp = none
  | _ => True

/-- The table is right, and so are the reference counts, none of which has left a `short`. -/
structure Kept (others : F → ℕ) (fdp : Filedesc F) (files : Files F) : Prop where
  sound : fdp.Sound
  counts : files.Counts fun f ↦ fdp.uses f + others f
  small : ∀ f, fdp.uses f + others f < 2 ^ 15

variable {others : F → ℕ} {fdp fdp' : Filedesc F} {files : Files F} {lim : ℤ} {fd : ℕ} {fp : F}
  {flags : BitVec 8}

namespace Filedesc

/-- A table with another entry at `fd`. -/
def stored (fdp : Filedesc F) (fd : ℕ) (x : Slot F) (lastfile : ℕ) : Filedesc F :=
  ⟨fdp.slots.set fd x, lastfile, fdp.freefile, fdp.refcnt⟩

omit [DecidableEq F] in
theorem opened_stored {x : Slot F} {lastfile : ℕ} (hlt : fd < fdp.nfiles) :
    (fdp.stored fd x lastfile).opened =
      Function.update fdp.opened fd (x.file.map fun fp ↦ (fp, x.flags)) :=
  opened_set hlt

omit [DecidableEq F] in
theorem nfiles_stored {x : Slot F} {lastfile : ℕ} :
    (fdp.stored fd x lastfile).nfiles = fdp.nfiles :=
  List.length_set

omit [DecidableEq F] in
/-- An entry with a file is stored. -/
theorem Sound.stored {lastfile : ℕ} (hsound : fdp.Sound) (hlast : fdp.lastfile ≤ lastfile)
    (hlt : lastfile < fdp.nfiles) (hle : fd ≤ lastfile) :
    (fdp.stored fd ⟨some fp, flags⟩ lastfile).Sound where
  refcnt := hsound.refcnt
  ndfile_le := nfiles_stored.symm ▸ hsound.ndfile_le
  lastfile_lt := nfiles_stored.symm ▸ hlt
  le_lastfile d hd := by
    by_cases hfd : d = fd
    · exact hfd ▸ hle
    · rw [opened_stored (Nat.lt_of_le_of_lt hle hlt), Function.update_of_ne hfd] at hd
      exact Nat.le_trans (hsound.le_lastfile d hd) hlast
  below_freefile d hd := by
    rw [opened_stored (Nat.lt_of_le_of_lt hle hlt)]
    by_cases hfd : d = fd
    · rw [hfd, Function.update_self]
      exact Option.some_ne_none _
    · rw [Function.update_of_ne hfd]
      exact hsound.below_freefile d hd

omit [DecidableEq F] in
/-- A descriptor is opened. -/
theorem install_spec (fp : F) (flags : BitVec 8) (hsound : fdp.Sound) (hlt : fd < fdp.nfiles)
    (hsmall : fd < 2 ^ 16) :
    ∃ fdp', fdp.install fd fp flags = .ok fdp' ∧ fdp'.Sound ∧
      fdp'.opened = Function.update fdp.opened fd (some (fp, flags)) := by
  refine ⟨fdp.stored fd ⟨some fp, flags⟩ (max fdp.lastfile fd), ?_,
    hsound.stored (Nat.le_max_left _ _) (Nat.max_lt.mpr ⟨hsound.lastfile_lt, hlt⟩)
      (Nat.le_max_right _ _), opened_stored hlt⟩
  rw [install, store_eq hlt]
  change Except.ok _ = _
  rw [raise_eq hsmall]
  rfl

/-- What `close` and `fdcloseexec` leave of a table when they close `fd`. -/
def removed (fdp : Filedesc F) (fd lastfile : ℕ) : Filedesc F :=
  ⟨fdp.slots.set fd ⟨none, 0⟩, lastfile, if fd < fdp.freefile then ushort fd else fdp.freefile,
    fdp.refcnt⟩

omit [DecidableEq F] in
theorem opened_removed {lastfile : ℕ} (hlt : fd < fdp.nfiles) :
    (fdp.removed fd lastfile).opened = Function.update fdp.opened fd none :=
  opened_set hlt

omit [DecidableEq F] in
/-- A descriptor is closed. -/
theorem Sound.removed {lastfile : ℕ} (hsound : fdp.Sound) (hlt : fd < fdp.nfiles)
    (hlast : lastfile ≤ fdp.lastfile)
    (hle : ∀ d, d ≠ fd → fdp.opened d ≠ none → d ≤ lastfile) :
    (fdp.removed fd lastfile).Sound where
  refcnt := hsound.refcnt
  ndfile_le := by
    rw [nfiles, Filedesc.removed, List.length_set]
    exact hsound.ndfile_le
  lastfile_lt := by
    rw [nfiles, Filedesc.removed, List.length_set]
    exact Nat.lt_of_le_of_lt hlast hsound.lastfile_lt
  le_lastfile d hd := by
    rw [opened_removed hlt] at hd
    have hne : d ≠ fd := by
      rintro rfl
      exact hd (Function.update_self _ _ _)
    rw [Function.update_of_ne hne] at hd
    exact hle d hne hd
  below_freefile d hd := by
    have hbelow : d < fdp.freefile ∧ d < fd := by
      change d < (if fd < fdp.freefile then ushort fd else fdp.freefile) at hd
      have hmod : ushort fd ≤ fd := Nat.mod_le _ _
      split_ifs at hd with hfree
      · omega
      · omega
    rw [opened_removed hlt, Function.update_of_ne (Nat.ne_of_lt hbelow.2)]
    exact hsound.below_freefile d hbelow.1

omit [DecidableEq F] in
/-- The loop that lowers `fd_lastfile` stops at the highest open descriptor. -/
theorem lower_spec {slots : List (Slot F)} {n : ℕ} (hlt : n < slots.length) :
    ∃ n', lower slots n = .ok n' ∧ n' ≤ n ∧
      ∀ d, d ≤ n → ((slots[d]?).bind Slot.file).isSome → d ≤ n' := by
  induction n with
  | zero => exact ⟨0, rfl, Nat.le_refl 0, fun d hd _ ↦ hd⟩
  | succ n ih =>
    obtain ⟨n', hrun, hle, habove⟩ := ih (by omega)
    rw [lower, List.getElem?_eq_getElem hlt]
    dsimp only
    by_cases hfile : slots[n + 1].file.isNone
    · rw [if_pos hfile]
      refine ⟨n', hrun, by omega, fun d hd hsome ↦ ?_⟩
      by_cases hdn : d = n + 1
      · subst hdn
        rw [List.getElem?_eq_getElem hlt, Option.bind_some, Option.isSome_iff_ne_none] at hsome
        exact absurd (Option.isNone_iff_eq_none.mp hfile) hsome
      · exact habove d (by omega) hsome
    · rw [if_neg hfile]
      exact ⟨n + 1, rfl, Nat.le_refl _, fun d hd _ ↦ hd⟩

omit [DecidableEq F] in
theorem entry_of_opened (hopen : fdp.opened fd = some (fp, flags)) :
    fdp.entry fd = .ok ⟨some fp, flags⟩ := by
  rw [opened] at hopen
  rw [entry]
  cases hx : fdp.slots[fd]? with
  | none =>
    rw [hx] at hopen
    cases hopen
  | some x =>
    rw [hx, Option.bind_some, Option.map_eq_some_iff] at hopen
    obtain ⟨fq, hfile, heq⟩ := hopen
    cases heq
    rw [← hfile]

omit [DecidableEq F] in
/-- An entry that the loops look at. -/
theorem entry_cases (hlt : fd < fdp.nfiles) :
    (fdp.opened fd = none ∧ ∃ x, fdp.entry fd = .ok x ∧ x.file = none) ∨
      ∃ fp flags, fdp.opened fd = some (fp, flags) ∧ fdp.entry fd = .ok ⟨some fp, flags⟩ := by
  cases hopen : fdp.opened fd with
  | none =>
    refine .inl ⟨rfl, _, entry_eq hlt, ?_⟩
    exact opened_eq_none_iff.mp hopen _ (List.getElem?_eq_getElem hlt)
  | some entry =>
    exact .inr ⟨entry.1, entry.2, rfl, entry_of_opened hopen⟩

end Filedesc

open Filedesc

/-- The table and the counts after `fdalloc`. -/
theorem Kept.fdalloc {want : ℕ} (hkept : Kept others fdp files) (hroom : fdp.Allocatable lim want) :
    ∃ fdp' r, Descrip.fdalloc lim want fdp = .ok (fdp', r) ∧ Kept others fdp' files ∧
      fdp'.opened = fdp.opened ∧ Allocates fdp.opened lim want r ∧
      ∀ fd, r = .ok fd → fd ≤ fdp'.lastfile ∧ fd < 2 ^ 16 ∧ fdp'.slots[fd]? = some ⟨none, 0⟩ := by
  obtain ⟨fdp', r, hrun, halloc⟩ := fdalloc_spec hkept.sound hroom
  have huses := uses_congr halloc.opened_eq
  refine ⟨fdp', r, hrun, ⟨halloc.sound, hkept.counts.congr fun f ↦ ?_, fun f ↦ ?_⟩,
    halloc.opened_eq, halloc.allocates, ?_⟩
  · rw [huses f]
  · rw [huses f]
    exact hkept.small f
  · rintro fd rfl
    exact ⟨(halloc.fresh fd rfl).1, hroom.small fd halloc.allocates, (halloc.fresh fd rfl).2⟩

/-- A free descriptor is opened for a file that has another one. -/
theorem Kept.install (flags : BitVec 8) (hkept : Kept others fdp files) (hlt : fd < fdp.nfiles)
    (hsmall : fd < 2 ^ 16)
    (hfree : fdp.opened fd = none) (hpos : 0 < fdp.uses fp + others fp)
    (hcount : fdp.uses fp + others fp + 1 < 2 ^ 15) :
    ∃ fdp' files', fdp.install fd fp flags = .ok fdp' ∧ files.hold fp = .ok files' ∧
      Kept others fdp' files' ∧
      fdp'.opened = Function.update fdp.opened fd (some (fp, flags)) := by
  obtain ⟨fdp', hrun, hsound, hopened⟩ := install_spec fp flags hkept.sound hlt hsmall
  have huses : ∀ f, fdp'.uses f = fdp.uses f + if f = fp then 1 else 0 := by
    intro f
    have hupdate := uses_update hopened f
    rwa [hfree, names_none, Nat.add_zero, names_some] at hupdate
  have hnext : ∀ f, fdp'.uses f + others f =
      fdp.uses f + others f + if f = fp then 1 else 0 := by
    intro f
    rw [huses f]
    omega
  obtain ⟨files', hhold, hcounts, -⟩ := hkept.counts.hold hpos hcount hnext
  refine ⟨fdp', files', hrun, hhold, ⟨hsound, hcounts, fun f ↦ ?_⟩, hopened⟩
  have hold := hkept.small f
  rw [huses f]
  split_ifs with hf
  · subst hf
    omega
  · omega

/-- A call does what it should. -/
def Correct (maxfiles lim : ℤ) (others : F → ℕ) (fdp : Filedesc F) (files : Files F)
    (call : Call F) :
    Prop :=
  ∃ fdp' files' r, call.run maxfiles lim fdp files = .ok (fdp', files', r) ∧
    Kept others fdp' files' ∧
    call.Spec lim (maxfiles ≤ files.nfiles) fdp.opened r fdp'.opened

variable {maxfiles : ℤ}

omit [DecidableEq F] in
theorem ok_bind {α β : Type} (v : α) (f : α → Except Fault β) : (.ok v >>= f) = f v := rfl

/-- The result of a call that leaves everything as it is. -/
theorem correct_of_unchanged {call : Call F} {e : Errno} (hkept : Kept others fdp files)
    (hrun : call.run maxfiles lim fdp files = .ok (fdp, files, .error e))
    (hspec : call.Spec lim (maxfiles ≤ files.nfiles) fdp.opened (.error e) fdp.opened) :
    Correct maxfiles lim others fdp files call :=
  ⟨fdp, files, .error e, hrun, hkept, hspec⟩

theorem Kept.correct_fdalloc {want : ℕ} (hkept : Kept others fdp files)
    (hroom : fdp.Allocatable lim want) :
    Correct maxfiles lim others fdp files (.fdalloc want) := by
  obtain ⟨fdp', r, hrun, hkept', hopened, halloc, -⟩ := hkept.fdalloc hroom
  refine ⟨fdp', files, r, ?_, hkept', halloc, hopened⟩
  rw [Call.run, hrun]
  rfl

theorem Kept.correct_dup {i : ℕ} (hkept : Kept others fdp files)
    (hmeets : (Call.dup i).Meets lim fdp fun f ↦ fdp.uses f + others f) :
    Correct maxfiles lim others fdp files (.dup i) := by
  cases hopen : fdp.opened i with
  | none =>
    apply correct_of_unchanged hkept
    · rw [run_dup, dup, hopen]
    · rw [Call.Spec, hopen]
      exact ⟨rfl, rfl⟩
  | some entry =>
    obtain ⟨fp, flags⟩ := entry
    obtain ⟨hroom, hcount⟩ := hmeets fp flags hopen
    obtain ⟨fdp', r, hrun, hkept', hopened, halloc, hfresh⟩ := hkept.fdalloc hroom
    have hopen' : fdp'.opened i = some (fp, flags) := by rw [hopened, hopen]
    cases r with
    | error e =>
      refine ⟨fdp', files, .error e, ?_, hkept', ?_⟩
      · rw [run_dup, dup, hopen]
        simp only [hrun, ok_bind]
        rfl
      · rw [Call.Spec, hopen]
        exact ⟨halloc, .inr ⟨congrArg _ halloc.1, hopened⟩⟩
    | ok fd =>
      obtain ⟨hle, hsmall, -⟩ := hfresh fd rfl
      have hlt := Nat.lt_of_le_of_lt hle hkept'.sound.lastfile_lt
      have huses := uses_congr hopened fp
      obtain ⟨fdp'', files', hinstall, hhold, hkept'', hopened'⟩ :=
        Kept.install (flags &&& ~~~ufExclose) hkept' hlt hsmall (hopened ▸ halloc.2.2.1)
          (Nat.add_pos_left (uses_pos hopen') _) (huses ▸ hcount)
      refine ⟨fdp'', files', .ok fd, ?_, hkept'', ?_⟩
      · rw [run_dup, dup, hopen]
        simp only [hrun, ok_bind, entry_of_opened hopen', hinstall, hhold]
        rfl
      · rw [Call.Spec, hopen]
        exact ⟨halloc, .inl ⟨fd, rfl, by rw [hopened', hopened]⟩⟩

theorem Kept.correct_dupfd {arg : ℕ} {freed : BitVec 8} (hkept : Kept others fdp files)
    (hmeets : (Call.dupfd fd arg freed).Meets lim fdp fun f ↦ fdp.uses f + others f) :
    Correct maxfiles lim others fdp files (.dupfd fd arg freed) := by
  cases hopen : fdp.opened fd with
  | none =>
    apply correct_of_unchanged hkept
    · rw [run_dupfd, dupfd, hopen]
    · rw [Call.Spec, hopen]
      exact ⟨rfl, rfl⟩
  | some entry =>
    obtain ⟨fp, flags⟩ := entry
    by_cases hlim : lim % 2 ^ 32 ≤ arg
    · apply correct_of_unchanged hkept
      · rw [run_dupfd, dupfd, hopen]
        exact if_pos hlim
      · rw [Call.Spec, hopen]
        dsimp only
        rw [if_pos hlim]
        exact ⟨rfl, rfl⟩
    obtain ⟨hroom, hcount⟩ := hmeets fp flags hopen (Int.lt_of_not_ge hlim)
    obtain ⟨fdp', r, hrun, hkept', hopened, halloc, hfresh⟩ := hkept.fdalloc hroom
    have hspec : ∀ r' table', (Call.dupfd fd arg freed).Spec lim (maxfiles ≤ files.nfiles)
        fdp.opened r' table' ↔ Allocates fdp.opened lim arg r' ∧
          ((∃ i flags, r' = .ok i ∧ table' = Function.update fdp.opened i (some (fp, flags))) ∨
            (r' = .error .emfile ∧ table' = fdp.opened)) := by
      intro r' table'
      rw [Call.Spec, hopen]
      dsimp only
      rw [if_neg hlim]
    cases r with
    | error e =>
      refine ⟨fdp', files, .error e, ?_, hkept', ?_⟩
      · rw [run_dupfd, dupfd, hopen]
        simp only [if_neg hlim, hrun, ok_bind]
        rfl
      · rw [hspec]
        exact ⟨halloc, .inr ⟨congrArg _ halloc.1, hopened⟩⟩
    | ok i =>
      obtain ⟨hle, hsmall, -⟩ := hfresh i rfl
      have hlt := Nat.lt_of_le_of_lt hle hkept'.sound.lastfile_lt
      have huses := uses_congr hopened fp
      obtain ⟨fdp'', files', hinstall, hhold, hkept'', hopened'⟩ :=
        Kept.install ((if ndfile < fdp.nfiles ∧ fdp'.nfiles ≠ fdp.nfiles then freed
          else flags) &&& ~~~ufExclose) hkept' hlt hsmall (hopened ▸ halloc.2.2.1)
          (Nat.add_pos_left (huses ▸ uses_pos hopen) _) (huses ▸ hcount)
      refine ⟨fdp'', files', .ok i, ?_, hkept'', ?_⟩
      · rw [run_dupfd, dupfd, hopen]
        simp only [if_neg hlim, hrun, ok_bind, hinstall, hhold]
        rfl
      · rw [hspec]
        exact ⟨halloc, .inl ⟨i, _, rfl, by rw [hopened', hopened]⟩⟩

theorem Kept.correct_setfd {arg : BitVec 8} (hkept : Kept others fdp files) :
    Correct maxfiles lim others fdp files (.setfd fd arg) := by
  cases hopen : fdp.opened fd with
  | none =>
    apply correct_of_unchanged hkept
    · rw [run_setfd, setfd, hopen]
    · rw [Call.Spec, hopen]
      exact ⟨rfl, rfl⟩
  | some entry =>
    obtain ⟨fp, flags⟩ := entry
    have hlt := opened_lt (hopen ▸ Option.some_ne_none _)
    have hle := hkept.sound.le_lastfile fd (hopen ▸ Option.some_ne_none _)
    have hopened : (fdp.stored fd ⟨some fp, flags &&& ~~~ufExclose ||| arg &&& 1⟩
        fdp.lastfile).opened =
          Function.update fdp.opened fd (some (fp, flags &&& ~~~ufExclose ||| arg &&& 1)) :=
      opened_stored hlt
    have huses : ∀ f, (fdp.stored fd ⟨some fp, flags &&& ~~~ufExclose ||| arg &&& 1⟩
        fdp.lastfile).uses f = fdp.uses f := by
      intro f
      have hupdate := uses_update hopened f
      rw [hopen, names_some, names_some] at hupdate
      exact Nat.add_right_cancel hupdate
    refine ⟨_, files, .ok 0, ?_, ⟨hkept.sound.stored (Nat.le_refl _) hkept.sound.lastfile_lt hle,
      hkept.counts.congr fun f ↦ by rw [huses f], fun f ↦ by rw [huses f]; exact hkept.small f⟩, ?_⟩
    · rw [run_setfd, setfd, hopen]
      simp only [store_eq hlt, ok_bind]
      rfl
    · rw [Call.Spec, hopen]
      exact ⟨rfl, hopened⟩

omit [DecidableEq F] in
/-- A file that is not allocated has no references. -/
theorem Files.Counts.eq_zero {n : F → ℕ} (hcounts : files.Counts n)
    (hfree : files.count fp = none) :
    n fp = 0 := by
  have hfp := hcounts fp
  rw [hfree] at hfp
  by_contra hne
  rw [if_neg hne] at hfp
  cases hfp

theorem Kept.correct_falloc (hkept : Kept others fdp files) (hfree : files.count fp = none)
    (hroom : fdp.Allocatable lim 0) : Correct maxfiles lim others fdp files (.falloc fp) := by
  obtain ⟨fdp', r, hrun, hkept', hopened, halloc, hfresh⟩ := hkept.fdalloc hroom
  cases r with
  | error e =>
    refine ⟨fdp', files, .error e, ?_, hkept', .inr (.inl ⟨congrArg _ halloc.1, halloc, hopened⟩)⟩
    rw [run_falloc, falloc]
    simp only [hrun, ok_bind]
    rfl
  | ok fd =>
    by_cases hfull : maxfiles ≤ files.nfiles
    · refine ⟨fdp', files, .error .enfile, ?_, hkept', .inr (.inr ⟨rfl, hfull, hopened⟩)⟩
      rw [run_falloc, falloc]
      simp only [hrun, ok_bind, if_pos hfull]
      rfl
    obtain ⟨hle, -, hslot⟩ := hfresh fd rfl
    have hlast := hkept'.sound.lastfile_lt
    have hlt := Nat.lt_of_le_of_lt hle hlast
    have hentry : fdp'.entry fd = .ok ⟨none, 0⟩ := by
      rw [entry, hslot]
    have hopened' : (fdp'.stored fd ⟨some fp, 0⟩ fdp'.lastfile).opened =
        Function.update fdp.opened fd (some (fp, 0)) := by
      rw [opened_stored hlt, hopened]
      rfl
    have hzero := hkept.counts.eq_zero hfree
    have huses : ∀ f, (fdp'.stored fd ⟨some fp, 0⟩ fdp'.lastfile).uses f =
        fdp.uses f + if f = fp then 1 else 0 := by
      intro f
      have hupdate := uses_update hopened' f
      rwa [halloc.2.2.1, names_none, Nat.add_zero, names_some] at hupdate
    refine ⟨fdp'.stored fd ⟨some fp, 0⟩ fdp'.lastfile,
      ⟨Function.update files.count fp (some 1), files.nfiles + 1⟩, .ok fd, ?_,
      ⟨hkept'.sound.stored (Nat.le_refl _) hlast hle, hkept.counts.update ?_ fun f hf ↦ ?_,
        fun f ↦ ?_⟩, .inl ⟨fd, rfl, halloc, hopened'⟩⟩
    · rw [run_falloc, falloc]
      simp only [hrun, ok_bind, if_neg hfull, hentry, store_eq hlt]
      rfl
    · have hone : fdp.uses fp + 1 + others fp = 1 := by omega
      rw [huses fp, if_pos rfl, hone]
      rfl
    · rw [huses f, if_neg hf, Nat.add_zero]
    · have hsmall := hkept.small f
      rw [huses f]
      split_ifs with hf
      · subst hf
        omega
      · omega

/-- A descriptor in use gets another file. -/
theorem Kept.replace {new : ℕ} {fq : F} {flags' : BitVec 8} (hkept : Kept others fdp files)
    (hnew : fdp.opened new = some (fq, flags')) (hopen : fdp.opened fd = some (fp, flags))
    (hne : fd ≠ new) (hsmall : new < 2 ^ 16) (hcount : fdp.uses fp + others fp + 1 < 2 ^ 15)
    (flags'' : BitVec 8) :
    ∃ files' fdp' files'', files.closef fq = .ok files' ∧ fdp.install new fp flags'' = .ok fdp' ∧
      files'.hold fp = .ok files'' ∧ Kept others fdp' files'' ∧
      fdp'.opened = Function.update fdp.opened new (some (fp, flags'')) := by
  have hlt := opened_lt (hnew ▸ Option.some_ne_none _)
  obtain ⟨fdp', hinstall, hsound, hopened⟩ := install_spec fp flags'' hkept.sound hlt hsmall
  -- the table without the old entry, which the counts agree with after `closef`
  have hclear : (fdp.stored new ⟨none, 0⟩ fdp.lastfile).opened =
      Function.update fdp.opened new none := opened_stored hlt
  have hcleared : ∀ f, (fdp.stored new ⟨none, 0⟩ fdp.lastfile).uses f +
      (if f = fq then 1 else 0) = fdp.uses f := by
    intro f
    have hupdate := uses_update hclear f
    rwa [hnew, names_some, names_none, Nat.add_zero] at hupdate
  have huses : ∀ f, fdp'.uses f =
      (fdp.stored new ⟨none, 0⟩ fdp.lastfile).uses f + if f = fp then 1 else 0 := by
    intro f
    have hupdate := uses_update hopened f
    rw [hnew, names_some, names_some] at hupdate
    have hold := hcleared f
    omega
  have hnext : ∀ f, (fdp.stored new ⟨none, 0⟩ fdp.lastfile).uses f + others f +
      (if f = fq then 1 else 0) = fdp.uses f + others f := by
    intro f
    have hold := hcleared f
    omega
  obtain ⟨files', hclosef, hcounts⟩ := hkept.counts.closef (hkept.small fq) hnext
  have hpos : 0 < (fdp.stored new ⟨none, 0⟩ fdp.lastfile).uses fp := by
    have hstill : (fdp.stored new ⟨none, 0⟩ fdp.lastfile).opened fd = some (fp, flags) := by
      rw [hclear, Function.update_of_ne hne, hopen]
    exact uses_pos hstill
  have hsum : ∀ f, fdp'.uses f + others f = (fdp.stored new ⟨none, 0⟩ fdp.lastfile).uses f +
      others f + if f = fp then 1 else 0 := by
    intro f
    rw [huses f]
    omega
  have hcount' : (fdp.stored new ⟨none, 0⟩ fdp.lastfile).uses fp + others fp + 1 < 2 ^ 15 := by
    have hold := hcleared fp
    omega
  obtain ⟨files'', hhold, hcounts', -⟩ :=
    hcounts.hold (Nat.add_pos_left hpos _) hcount' hsum
  refine ⟨files', fdp', files'', hclosef, hinstall, hhold, ⟨hsound, hcounts', fun f ↦ ?_⟩, hopened⟩
  have hold := hkept.small f
  have hthis := hcleared f
  rw [hsum f]
  split_ifs with hf
  · subst hf
    exact hcount'
  · omega

theorem Kept.correct_dup2 {old new : ℕ} (hkept : Kept others fdp files)
    (hmeets : (Call.dup2 old new).Meets lim fdp fun f ↦ fdp.uses f + others f) :
    Correct maxfiles lim others fdp files (.dup2 old new) := by
  cases hopen : fdp.opened old with
  | none =>
    apply correct_of_unchanged hkept
    · rw [run_dup2, dup2, hopen]
    · rw [Call.Spec, hopen]
      exact ⟨rfl, rfl⟩
  | some entry =>
    obtain ⟨fp, flags⟩ := entry
    by_cases hlim : lim % 2 ^ 32 ≤ new
    · apply correct_of_unchanged hkept
      · rw [run_dup2, dup2, hopen]
        exact if_pos hlim
      · rw [Call.Spec, hopen]
        dsimp only
        rw [if_pos hlim]
        exact ⟨rfl, rfl⟩
    have hspec : ∀ r' table', (Call.dup2 old new).Spec lim (maxfiles ≤ files.nfiles)
        fdp.opened r' table' ↔ r' = .ok new ∧ table' = if old = new then fdp.opened
          else Function.update fdp.opened new (some (fp, flags &&& ~~~ufExclose)) := by
      intro r' table'
      rw [Call.Spec, hopen]
      dsimp only
      rw [if_neg hlim]
    by_cases hsame : old = new
    · refine ⟨fdp, files, .ok new, ?_, hkept, ?_⟩
      · rw [run_dup2, dup2, hopen]
        simp only [if_neg hlim, if_pos hsame]
      · rw [hspec, if_pos hsame]
        exact ⟨rfl, rfl⟩
    obtain ⟨hroom, hsmall, hcount⟩ := hmeets fp flags hopen (Int.lt_of_not_ge hlim) hsame
    by_cases hnew : fdp.nfiles ≤ new
    · obtain ⟨fdp', r, hrun, hkept', hopened, halloc, hfresh⟩ := hkept.fdalloc (hroom hnew)
      have hfree : fdp.opened new = none := opened_of_nfiles_le hnew
      have hbelow : (new : ℤ) < lim := by
        have hnonneg := (hroom hnew).nonneg
        omega
      have hresult : r = .ok new := by
        cases r with
        | error e => exact absurd hfree (halloc.2 new (Nat.le_refl new) hbelow)
        | ok fd =>
          by_contra hfd
          have hlt : new < fd := Nat.lt_of_le_of_ne halloc.1 fun h ↦ hfd (congrArg _ h.symm)
          exact halloc.2.2.2 new (Nat.le_refl new) hlt hfree
      subst hresult
      obtain ⟨hle, -, -⟩ := hfresh new rfl
      have hlt := Nat.lt_of_le_of_lt hle hkept'.sound.lastfile_lt
      have huses := uses_congr hopened fp
      have hopen' : fdp'.opened old = some (fp, flags) := by rw [hopened, hopen]
      obtain ⟨fdp'', files', hinstall, hhold, hkept'', hopened'⟩ :=
        Kept.install (flags &&& ~~~ufExclose) hkept' hlt hsmall (hopened ▸ hfree)
          (Nat.add_pos_left (uses_pos hopen') _) (huses ▸ hcount)
      refine ⟨fdp'', files', .ok new, ?_, hkept'', ?_⟩
      · rw [run_dup2, dup2, hopen]
        simp only [if_neg hlim, if_neg hsame, if_pos hnew, hrun, ok_bind, entry_of_opened hopen',
          hinstall, hhold]
        rfl
      · rw [hspec, if_neg hsame, hopened', hopened]
        exact ⟨rfl, rfl⟩
    · cases hold : fdp.opened new with
      | none =>
        obtain ⟨fdp', files', hinstall, hhold, hkept', hopened⟩ :=
          Kept.install (flags &&& ~~~ufExclose) hkept (Nat.lt_of_not_le hnew) hsmall hold
            (Nat.add_pos_left (uses_pos hopen) _) hcount
        refine ⟨fdp', files', .ok new, ?_, hkept', ?_⟩
        · rw [run_dup2, dup2, hopen]
          simp only [if_neg hlim, if_neg hsame, if_neg hnew, hold, ok_bind, entry_of_opened hopen,
            hinstall, hhold]
          rfl
        · rw [hspec, if_neg hsame, hopened]
          exact ⟨rfl, rfl⟩
      | some entry =>
        obtain ⟨files', fdp', files'', hclosef, hinstall, hhold, hkept', hopened⟩ :=
          hkept.replace hold hopen hsame hsmall hcount (flags &&& ~~~ufExclose)
        refine ⟨fdp', files'', .ok new, ?_, hkept', ?_⟩
        · rw [run_dup2, dup2, hopen]
          simp only [if_neg hlim, if_neg hsame, if_neg hnew, hold, hclosef, ok_bind,
            entry_of_opened hopen, hinstall, hhold]
          rfl
        · rw [hspec, if_neg hsame, hopened]
          exact ⟨rfl, rfl⟩

/-- A descriptor is closed, without another bound for the last one. -/
theorem Kept.remove (hkept : Kept others fdp files) (hopen : fdp.opened fd = some (fp, flags)) :
    ∃ files', files.closef fp = .ok files' ∧
      ∀ fdp', fdp'.Sound → fdp'.opened = Function.update fdp.opened fd none →
        Kept others fdp' files' := by
  have hlt := opened_lt (hopen ▸ Option.some_ne_none _)
  have hclear : (fdp.stored fd ⟨none, 0⟩ fdp.lastfile).opened =
      Function.update fdp.opened fd none := opened_stored hlt
  have hnext : ∀ f, (fdp.stored fd ⟨none, 0⟩ fdp.lastfile).uses f + others f +
      (if f = fp then 1 else 0) = fdp.uses f + others f := by
    intro f
    have hupdate := uses_update hclear f
    rw [hopen, names_some, names_none] at hupdate
    omega
  obtain ⟨files', hclosef, hcounts⟩ := hkept.counts.closef (hkept.small fp) hnext
  refine ⟨files', hclosef, fun fdp' hsound hopened ↦ ?_⟩
  have huses := uses_congr (hopened.trans hclear.symm)
  refine ⟨hsound, hcounts.congr fun f ↦ by rw [huses f], fun f ↦ ?_⟩
  have hsmall := hkept.small f
  have hthis := hnext f
  rw [huses f]
  omega

theorem Kept.correct_close (hkept : Kept others fdp files) :
    Correct maxfiles lim others fdp files (.close fd) := by
  cases hopen : fdp.opened fd with
  | none =>
    apply correct_of_unchanged hkept
    · rw [run_close, close, hopen]
    · rw [Call.Spec, if_pos hopen]
      exact ⟨rfl, rfl⟩
  | some entry =>
    obtain ⟨fp, flags⟩ := entry
    have hne : fdp.opened fd ≠ none := hopen ▸ Option.some_ne_none _
    have hlt := opened_lt hne
    have hlength : fdp.lastfile < (fdp.slots.set fd ⟨none, 0⟩).length := by
      rw [List.length_set]
      exact hkept.sound.lastfile_lt
    obtain ⟨lastfile, hlower, hle, habove⟩ := lower_spec hlength
    obtain ⟨files', hclosef, hrest⟩ := hkept.remove hopen
    have hsound : (fdp.removed fd lastfile).Sound := by
      refine hkept.sound.removed hlt hle fun d hd hdopen ↦ ?_
      apply habove d (hkept.sound.le_lastfile d hdopen)
      rw [List.getElem?_set_ne (Ne.symm hd), Option.isSome_iff_ne_none]
      intro hnone
      exact hdopen (isNone_iff.mp (Option.isNone_iff_eq_none.mpr hnone))
    refine ⟨fdp.removed fd lastfile, files', .ok 0, ?_, hrest _ hsound (opened_removed hlt), ?_⟩
    · rw [run_close, close, hopen]
      simp only [store_eq hlt, ok_bind, hlower, hclosef]
      rfl
    · rw [Call.Spec, if_neg hne]
      exact ⟨rfl, opened_removed hlt⟩

/-! ### Calls with a loop over the table -/

/-- What is left of a table when the marked descriptors among the `n` from `i` on are closed. -/
def closedFrom (table : Table F) (n i : ℕ) : Table F :=
  fun d ↦ if (i ≤ d ∧ d < i + n) ∧ closesOnExec (table d) then none else table d

omit [DecidableEq F] in
theorem closedFrom_zero (table : Table F) (i : ℕ) : closedFrom table 0 i = table := by
  funext d
  rw [closedFrom, if_neg]
  omega

omit [DecidableEq F] in
/-- A marked descriptor is closed first. -/
theorem closedFrom_closed {table : Table F} {n i : ℕ} (hmarked : closesOnExec (table i)) :
    closedFrom (Function.update table i none) n (i + 1) = closedFrom table (n + 1) i := by
  funext d
  rw [closedFrom, closedFrom]
  by_cases hd : d = i
  · subst hd
    rw [Function.update_self, ite_self, if_pos (And.intro (by omega) hmarked)]
  · rw [Function.update_of_ne hd]
    refine if_congr (and_congr_left fun _ ↦ ?_) rfl rfl
    omega

omit [DecidableEq F] in
/-- A descriptor that is not marked stays. -/
theorem closedFrom_kept {table : Table F} {n i : ℕ} (hkeep : closesOnExec (table i) = false) :
    closedFrom table n (i + 1) = closedFrom table (n + 1) i := by
  funext d
  rw [closedFrom, closedFrom]
  by_cases hd : d = i
  · subst hd
    rw [if_neg (by omega), if_neg (by simp [hkeep])]
  · refine if_congr (and_congr_left fun _ ↦ ?_) rfl rfl
    omega

theorem closeexecLoop_spec {n i : ℕ} (hkept : Kept others fdp files) (hlt : i + n ≤ fdp.nfiles) :
    ∃ fdp' files', closeexecLoop n i fdp files = .ok (fdp', files') ∧ Kept others fdp' files' ∧
      fdp'.opened = closedFrom fdp.opened n i := by
  induction n generalizing i fdp files with
  | zero => exact ⟨fdp, files, rfl, hkept, (closedFrom_zero _ _).symm⟩
  | succ n ih =>
    have hi : i < fdp.nfiles := by omega
    rcases entry_cases hi with ⟨hnone, x, hentry, hfile⟩ | ⟨fp, flags, hopen, hentry⟩
    · rw [closeexecLoop, hentry, ok_bind, hfile]
      obtain ⟨fdp', files', hrun, hkept', hopened⟩ := ih hkept (i := i + 1) (by omega)
      exact ⟨fdp', files', hrun, hkept',
        hopened.trans (closedFrom_kept (by rw [hnone]; rfl))⟩
    · rw [closeexecLoop, hentry, ok_bind]
      dsimp only
      by_cases hmark : flags &&& ufExclose ≠ 0
      · obtain ⟨files', hclosef, hrest⟩ := hkept.remove hopen
        have hkept' := hrest _ (hkept.sound.removed hi (Nat.le_refl _)
          fun d _ hd ↦ hkept.sound.le_lastfile d hd) (opened_removed hi)
        have hnfiles : (fdp.removed i fdp.lastfile).nfiles = fdp.nfiles := List.length_set
        obtain ⟨fdp', files'', hrun, hkept'', hopened⟩ := ih hkept' (i := i + 1) (by omega)
        refine ⟨fdp', files'', ?_, hkept'', ?_⟩
        · rw [if_pos hmark, hclosef, ok_bind, store_eq hi, ok_bind]
          exact hrun
        · rw [hopened, opened_removed hi]
          exact closedFrom_closed (by rw [hopen]; exact decide_eq_true hmark)
      · rw [if_neg hmark]
        obtain ⟨fdp', files', hrun, hkept', hopened⟩ := ih hkept (i := i + 1) (by omega)
        exact ⟨fdp', files', hrun, hkept',
          hopened.trans (closedFrom_kept (by rw [hopen]; exact decide_eq_false hmark))⟩

omit [DecidableEq F] in
/-- The bound for the last descriptor is lowered. -/
theorem Filedesc.Sound.lowered (hsound : fdp.Sound) :
    ∃ lastfile, lower fdp.slots fdp.lastfile = .ok lastfile ∧
      ({ fdp with lastfile := lastfile } : Filedesc F).Sound := by
  obtain ⟨lastfile, hlower, hle, habove⟩ := lower_spec hsound.lastfile_lt
  refine ⟨lastfile, hlower, hsound.refcnt, hsound.ndfile_le,
    Nat.lt_of_le_of_lt hle hsound.lastfile_lt, fun d hd ↦ ?_, hsound.below_freefile⟩
  apply habove d (hsound.le_lastfile d hd)
  rw [Option.isSome_iff_ne_none]
  intro hnone
  exact hd (isNone_iff.mp (Option.isNone_iff_eq_none.mpr hnone))

theorem Kept.correct_fdcloseexec (hkept : Kept others fdp files) :
    Correct maxfiles lim others fdp files .fdcloseexec := by
  have hlast := hkept.sound.lastfile_lt
  obtain ⟨fdp', files', hloop, hkept', hopened⟩ :=
    closeexecLoop_spec hkept (n := fdp.lastfile + 1) (i := 0) (by omega)
  obtain ⟨lastfile, hlower, hsound⟩ := hkept'.sound.lowered
  refine ⟨{ fdp' with lastfile := lastfile }, files', .ok 0, ?_,
    ⟨hsound, hkept'.counts, hkept'.small⟩, rfl, ?_⟩
  · rw [Call.run, fdcloseexec, hloop, ok_bind]
    simp only [hlower, ok_bind]
    rfl
  · change fdp'.opened = _
    rw [hopened]
    funext d
    rw [closedFrom]
    by_cases hd : fdp.opened d = none
    · rw [hd, ite_self, ite_self]
    · have hle := hkept.sound.le_lastfile d hd
      exact if_congr (and_iff_right (by omega)) rfl rfl

/-- The loop of `fdfree` drops the references of the entries it closes. -/
theorem closeLoop_spec {n i : ℕ} {rest : F → ℕ} (hlt : i + n ≤ fdp.nfiles)
    (hcounts : files.Counts fun f ↦ held fdp.opened f n i + rest f)
    (hsmall : ∀ f, held fdp.opened f n i + rest f < 2 ^ 15) :
    ∃ files', closeLoop fdp n i files = .ok files' ∧ files'.Counts rest := by
  induction n generalizing i files with
  | zero => exact ⟨files, rfl, hcounts.congr fun f ↦ (Nat.zero_add _).symm⟩
  | succ n ih =>
    have hi : i < fdp.nfiles := by omega
    rcases entry_cases hi with ⟨hnone, x, hentry, hfile⟩ | ⟨fp, flags, hopen, hentry⟩
    · have hheld : ∀ f, held fdp.opened f (n + 1) i = held fdp.opened f n (i + 1) := by
        intro f
        rw [held_succ, hnone, names_none, Nat.zero_add]
      rw [closeLoop, hentry, ok_bind, hfile]
      exact ih (by omega) (hcounts.congr fun f ↦ by rw [hheld f]) fun f ↦ hheld f ▸ hsmall f
    · have hnext : ∀ f, held fdp.opened f n (i + 1) + rest f + (if f = fp then 1 else 0) =
          held fdp.opened f (n + 1) i + rest f := by
        intro f
        rw [held_succ, hopen, names_some]
        omega
      obtain ⟨files', hclosef, hcounts'⟩ := hcounts.closef (hsmall fp) hnext
      rw [closeLoop, hentry, ok_bind]
      simp only [hclosef, ok_bind]
      refine ih (by omega) hcounts' fun f ↦ ?_
      have hold := hsmall f
      have hthis := hnext f
      omega

/-- The loop of `fdcopy` counts the references of the entries it copied. -/
theorem holdLoop_spec {n i : ℕ} {rest : F → ℕ} (hlt : i + n ≤ fdp.nfiles)
    (hcounts : files.Counts rest)
    (hpos : ∀ f, 0 < held fdp.opened f n i → 0 < rest f)
    (hsmall : ∀ f, held fdp.opened f n i + rest f < 2 ^ 15) :
    ∃ files', holdLoop fdp n i files = .ok files' ∧
      files'.Counts fun f ↦ held fdp.opened f n i + rest f := by
  induction n generalizing i files rest with
  | zero => exact ⟨files, rfl, hcounts.congr fun f ↦ Nat.zero_add _⟩
  | succ n ih =>
    have hi : i < fdp.nfiles := by omega
    rcases entry_cases hi with ⟨hnone, x, hentry, hfile⟩ | ⟨fp, flags, hopen, hentry⟩
    · have hheld : ∀ f, held fdp.opened f (n + 1) i = held fdp.opened f n (i + 1) := by
        intro f
        rw [held_succ, hnone, names_none, Nat.zero_add]
      rw [holdLoop, hentry, ok_bind, hfile]
      obtain ⟨files', hrun, hcounts'⟩ := ih (i := i + 1) (by omega) hcounts
        (fun f hf ↦ hpos f (hheld f ▸ hf)) fun f ↦ hheld f ▸ hsmall f
      exact ⟨files', hrun, hcounts'.congr fun f ↦ by rw [hheld f]⟩
    · have hheld : ∀ f, held fdp.opened f (n + 1) i =
          held fdp.opened f n (i + 1) + if f = fp then 1 else 0 := by
        intro f
        rw [held_succ, hopen, names_some, Nat.add_comm]
      have hfp := hpos fp (by rw [hheld fp, if_pos rfl]; omega)
      have hone := hsmall fp
      rw [hheld fp, if_pos rfl] at hone
      have hnext : ∀ f, (fun f ↦ rest f + if f = fp then 1 else 0) f =
          rest f + if f = fp then 1 else 0 := fun f ↦ rfl
      obtain ⟨files', hhold, hcounts', -⟩ := hcounts.hold hfp (by omega) hnext
      rw [holdLoop, hentry, ok_bind]
      simp only [hhold, ok_bind]
      obtain ⟨files'', hrun, hcounts''⟩ := ih (i := i + 1) (by omega) hcounts'
        (fun f hf ↦ Nat.add_pos_left (hpos f (by rw [hheld f]; omega)) _) fun f ↦ by
          have hold := hsmall f
          rw [hheld f] at hold
          omega
      refine ⟨files'', hrun, hcounts''.congr fun f ↦ ?_⟩
      rw [hheld f]
      omega

/-- The references of a table are those of the descriptors up to the last one. -/
theorem held_lastfile (hsound : fdp.Sound) (f : F) :
    held fdp.opened f (fdp.lastfile + 1) 0 = fdp.uses f := by
  refine (held_of_le hsound.lastfile_lt fun d hd ↦ ?_).symm
  by_contra hopen
  have hle := hsound.le_lastfile d hopen
  omega

/-- `fdcopy` halves the size of the copy to one that still has an entry for the last descriptor. -/
def Filedesc.Copyable (fdp : Filedesc F) : Prop :=
  ∀ k, 2 * ndextent < fdp.nfiles / 2 ^ k → fdp.lastfile * 2 ≤ fdp.nfiles / 2 ^ k →
    fdp.lastfile < fdp.nfiles / 2 ^ k / 2

/-- The size of the copy. -/
theorem shrink_spec {lastfile i : ℕ} (hlt : lastfile < i) (hmin : ndfile ≤ i)
    (hhalves : ∀ k, 2 * ndextent < i / 2 ^ k → lastfile * 2 ≤ i / 2 ^ k →
    lastfile < i / 2 ^ k / 2) :
    lastfile < shrink lastfile i ∧ ndfile ≤ shrink lastfile i ∧ shrink lastfile i ≤ i := by
  induction i using Nat.strong_induction_on with
  | _ i ih =>
    rw [shrink]
    split_ifs with hloop
    · have hlarge : 100 < i := hloop.1
      have hfirst := hhalves 0
      rw [Nat.pow_zero, Nat.div_one] at hfirst
      have hhalf := ih (i / 2) (by omega) (hfirst hloop.1 hloop.2)
        (by change 20 ≤ i / 2; omega) fun k ↦ by
          have hnext := hhalves (k + 1)
          rwa [Nat.pow_succ, Nat.mul_comm (2 ^ k) 2, ← Nat.div_div_eq_div_mul] at hnext
      exact ⟨hhalf.1, hhalf.2.1, by omega⟩
    · exact ⟨hlt, hmin, Nat.le_refl i⟩

/-- `fdcopy` gives a table with the same open descriptors and counts its references. -/
theorem Kept.fdcopy (hkept : Kept others fdp files) (hcopy : fdp.Copyable)
    (hcount : ∀ f, 2 * fdp.uses f + others f < 2 ^ 15) :
    ∃ newfdp files', Descrip.fdcopy fdp files = .ok (newfdp, files') ∧ newfdp.Sound ∧
      newfdp.opened = fdp.opened ∧
      files'.Counts fun f ↦ newfdp.uses f + (fdp.uses f + others f) := by
  have hsound := hkept.sound
  have hsize : ∃ i, (if fdp.lastfile < ndfile then ndfile else shrink fdp.lastfile fdp.nfiles) = i ∧
      fdp.lastfile < i ∧ ndfile ≤ i ∧ i ≤ fdp.nfiles := by
    refine ⟨_, rfl, ?_⟩
    split_ifs with hinside
    · exact ⟨hinside, Nat.le_refl _, hsound.ndfile_le⟩
    · exact shrink_spec hsound.lastfile_lt hsound.ndfile_le hcopy
  obtain ⟨i, hi, hlast, hmin, hle⟩ := hsize
  have hopened : ({ fdp with slots := fdp.slots.take i, refcnt := 1 } : Filedesc F).opened =
      fdp.opened := by
    funext d
    rw [opened, List.getElem?_take]
    split_ifs with hd
    · rfl
    · symm
      by_contra hopen
      have hdlast := hsound.le_lastfile d hopen
      omega
  have hnfiles : ({ fdp with slots := fdp.slots.take i, refcnt := 1 } : Filedesc F).nfiles = i := by
    rw [nfiles, List.length_take]
    exact Nat.min_eq_left hle
  have hnew : ({ fdp with slots := fdp.slots.take i, refcnt := 1 } : Filedesc F).Sound :=
    ⟨rfl, hnfiles.symm ▸ hmin, hnfiles.symm ▸ hlast, hopened.symm ▸ hsound.le_lastfile,
      hopened.symm ▸ hsound.below_freefile⟩
  have hheld := held_lastfile hnew
  have huses := uses_congr hopened
  obtain ⟨files', hrun, hcounts⟩ := holdLoop_spec (n := fdp.lastfile + 1) (i := 0)
    (by rw [hnfiles]; omega) hkept.counts
    (fun f hf ↦ Nat.add_pos_left (by rw [hheld f, huses f] at hf; exact hf) _)
    fun f ↦ by
      have hcountf := hcount f
      rw [hheld f, huses f]
      omega
  refine ⟨_, files', ?_, hnew, hopened, hcounts.congr fun f ↦ by rw [hheld f]⟩
  rw [Descrip.fdcopy, hi, if_neg (Nat.not_lt.mpr hle)]
  simp only [hrun, ok_bind]
  rfl

/-- `fdfree` drops the references of the table. -/
theorem Kept.fdfree (hkept : Kept others fdp files) :
    ∃ files', Descrip.fdfree fdp files = .ok (none, files') ∧ files'.Counts others := by
  have hheld := held_lastfile hkept.sound
  have hlast := hkept.sound.lastfile_lt
  have hle : 0 + (fdp.lastfile + 1) ≤ fdp.nfiles := by omega
  have hbefore : files.Counts fun f ↦ held fdp.opened f (fdp.lastfile + 1) 0 + others f :=
    hkept.counts.congr fun f ↦ by rw [hheld f]
  obtain ⟨files', hrun, hcounts⟩ := closeLoop_spec hle hbefore fun f ↦ by
    rw [hheld f]
    exact hkept.small f
  refine ⟨files', ?_, hcounts⟩
  rw [Descrip.fdfree, hkept.sound.refcnt, if_neg (Nat.lt_irrefl 0), hrun]
  rfl

/-- Every call does what it should. -/
theorem Kept.correct {call : Call F} (hkept : Kept others fdp files)
    (hpossible : call.Possible files)
    (hmeets : call.Meets lim fdp fun f ↦ fdp.uses f + others f) :
    Correct maxfiles lim others fdp files call := by
  cases call with
  | fdalloc want => exact hkept.correct_fdalloc hmeets
  | falloc fp => exact hkept.correct_falloc hpossible hmeets
  | dup i => exact hkept.correct_dup hmeets
  | dup2 old new => exact hkept.correct_dup2 hmeets
  | dupfd fd arg freed => exact hkept.correct_dupfd hmeets
  | setfd fd arg => exact hkept.correct_setfd
  | close fd => exact hkept.correct_close
  | fdcloseexec => exact hkept.correct_fdcloseexec

end Bsd386.Kern.Descrip
