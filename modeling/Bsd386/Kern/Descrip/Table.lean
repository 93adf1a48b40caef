import Bsd386.Kern.Descrip.Basic
import Mathlib.Data.List.Basic

/-!
# Tables as maps from descriptors

What a process sees of its table is the map from the open descriptors to their files and flags. The
bounds `fd_lastfile` and `fd_freefile` must be right for that map. `fdalloc` leaves the map alone
and returns its lowest free descriptor, provided that every time it enlarges the table the new size
is not taken modulo the limit.
-/

namespace Bsd386.Kern.Descrip

variable {F : Type}

/-- The open descriptors, with their files and flags. -/
abbrev Table (F : Type) : Type := ℕ → Option (F × BitVec 8)

/-- The result of `fdalloc` is the lowest free descriptor from `want` on and below the limit, or
`EMFILE` when there is none. -/
def Allocates (table : Table F) (lim : ℤ) (want : ℕ) : Except Errno ℕ → Prop
  | .ok fd => want ≤ fd ∧ fd < lim ∧ table fd = none ∧ ∀ d, want ≤ d → d < fd → table d ≠ none
  | .error e => e = .emfile ∧ ∀ d : ℕ, want ≤ d → d < lim → table d ≠ none

namespace Filedesc

variable {fdp : Filedesc F} {fd d : ℕ}

/-- The entries and the bounds of a table. -/
structure Sound (fdp : Filedesc F) : Prop where
  refcnt : fdp.refcnt = 1
  ndfile_le : ndfile ≤ fdp.nfiles
  lastfile_lt : fdp.lastfile < fdp.nfiles
  le_lastfile : ∀ d, fdp.opened d ≠ none → d ≤ fdp.lastfile
  below_freefile : ∀ d, d < fdp.freefile → fdp.opened d ≠ none

theorem opened_eq_none_iff :
    fdp.opened fd = none ↔ ∀ x, fdp.slots[fd]? = some x → x.file = none := by
  rw [opened]
  cases fdp.slots[fd]? with
  | none => simp
  | some x => simp

theorem opened_lt (hopen : fdp.opened fd ≠ none) : fd < fdp.nfiles := by
  by_contra hge
  apply hopen
  rw [opened, List.getElem?_eq_none (Nat.le_of_not_lt hge)]
  rfl

theorem opened_of_nfiles_le (hge : fdp.nfiles ≤ fd) : fdp.opened fd = none := by
  by_contra hopen
  exact absurd (opened_lt hopen) (Nat.not_lt.mpr hge)

theorem Sound.freefile_le (hsound : fdp.Sound) : fdp.freefile ≤ fdp.nfiles := by
  by_contra hlt
  have hopen := hsound.below_freefile fdp.nfiles (Nat.lt_of_not_le hlt)
  exact hopen (opened_of_nfiles_le (Nat.le_refl _))

theorem entry_eq (hlt : fd < fdp.nfiles) : fdp.entry fd = .ok (fdp.slots.get ⟨fd, hlt⟩) := by
  rw [entry, List.getElem?_eq_getElem hlt]
  rfl

theorem store_eq {x : Slot F} (hlt : fd < fdp.nfiles) :
    fdp.store fd x = .ok { fdp with slots := fdp.slots.set fd x } :=
  if_pos hlt

/-- What a process sees after an entry was stored. -/
theorem opened_set {x : Slot F} {lastfile freefile refcnt : ℕ} (hlt : fd < fdp.nfiles) :
    (⟨fdp.slots.set fd x, lastfile, freefile, refcnt⟩ : Filedesc F).opened =
      Function.update fdp.opened fd (x.file.map fun fp ↦ (fp, x.flags)) := by
  funext d
  by_cases hd : d = fd
  · subst hd
    rw [Function.update_self, opened, List.getElem?_set_self hlt]
    rfl
  · rw [Function.update_of_ne hd, opened, List.getElem?_set_ne (Ne.symm hd), opened]

/-- More free entries behind the others. -/
theorem opened_append {n lastfile freefile refcnt : ℕ} :
    (⟨fdp.slots ++ List.replicate n ⟨none, 0⟩, lastfile, freefile, refcnt⟩ : Filedesc F).opened =
      fdp.opened := by
  funext d
  rw [opened, opened]
  by_cases hd : d < fdp.slots.length
  · rw [List.getElem?_append_left hd]
  · rw [List.getElem?_append_right (Nat.le_of_not_lt hd),
      List.getElem?_eq_none (Nat.le_of_not_lt hd), List.getElem?_replicate]
    split <;> rfl

/-! ### Allocation -/

/-- What the loop of `fdalloc` tests at an entry. -/
theorem isNone_iff : ((fdp.slots[fd]?).bind Slot.file).isNone ↔ fdp.opened fd = none := by
  rw [opened, Option.isNone_iff_eq_none]
  cases fdp.slots[fd]? with
  | none => exact iff_of_true rfl rfl
  | some x => simp

/-- What the loop of `fdalloc` finds in the entries it scans. -/
theorem scan_some {i last : ℕ} (hscan : scan fdp.slots i last = some fd) :
    i ≤ fd ∧ fd < last ∧ fdp.opened fd = none ∧ ∀ d, i ≤ d → d < fd → fdp.opened d ≠ none := by
  rw [scan, List.find?_range'_eq_some] at hscan
  obtain ⟨hfree, hmem, hbelow⟩ := hscan
  have hrange := List.mem_range'_1.mp hmem
  refine ⟨hrange.1, by omega, isNone_iff.mp hfree, fun d hid hdfd hnone ↦ ?_⟩
  have htest := hbelow d hid hdfd
  rw [isNone_iff.mpr hnone] at htest
  cases htest

theorem scan_none {i last : ℕ} (hscan : scan fdp.slots i last = none) :
    ∀ d, i ≤ d → d < last → fdp.opened d ≠ none := by
  rw [scan, List.find?_range'_eq_none] at hscan
  intro d hid hlt hnone
  have htest := hscan d hid (by omega)
  rw [isNone_iff.mpr hnone] at htest
  cases htest

/-- The size that a full table should get. -/
def grown (n : ℕ) : ℕ := if n < ndextent then ndextent else 2 * n

/-- What `fdalloc` needs for its arithmetic: a limit that is not negative, a limit above the double
of each size at which it finds no free descriptor, unless the size is small, and a free descriptor
that fits into a `u_short`. -/
structure Allocatable (fdp : Filedesc F) (lim : ℤ) (want : ℕ) : Prop where
  nonneg : 0 ≤ lim
  grows : ∀ k, (grown^[k] fdp.nfiles : ℕ) < lim →
    (∀ d, want ≤ d → d < grown^[k] fdp.nfiles → fdp.opened d ≠ none) →
      grown^[k] fdp.nfiles < ndextent ∨ (2 * grown^[k] fdp.nfiles : ℕ) < lim
  small : ∀ fd, Allocates fdp.opened lim want (.ok fd) → fd < 2 ^ 16

theorem ushort_eq {n : ℕ} (hlt : n < 2 ^ 16) : ushort n = n := Nat.mod_eq_of_lt hlt

/-- The new size is the one that the table should get. -/
theorem newSize_eq {n : ℕ} {lim : ℤ} (hroom : n < ndextent ∨ (2 * n : ℕ) < lim) :
    newSize n lim = grown n := by
  rw [newSize, grown]
  split_ifs with hsmall
  · rfl
  · exact Nat.mod_eq_of_lt (by omega)

theorem lt_grown {n : ℕ} (hpos : 0 < n) : n < grown n := by
  rw [grown]
  split_ifs with hsmall
  · exact hsmall
  · omega

theorem scanLimit_eq {n : ℕ} {lim : ℤ} (hnonneg : 0 ≤ lim) : scanLimit n lim = min n lim.toNat :=
  if_neg (Int.not_lt.mpr hnonneg)

/-- Raising `fd_lastfile` to an entry of the table. -/
theorem raise_eq (hlt : fd < 2 ^ 16) :
    fdp.raise fd = { fdp with lastfile := max fdp.lastfile fd } := by
  rw [raise]
  split_ifs with hless
  · rw [ushort_eq hlt, Nat.max_eq_right (Nat.le_of_lt hless)]
  · rw [Nat.max_eq_left (Nat.le_of_not_lt hless)]

/-- What `fdalloc` leaves when it found an entry. -/
def taken (fdp : Filedesc F) (want fd : ℕ) : Filedesc F :=
  ⟨fdp.slots.set fd ⟨none, 0⟩, max fdp.lastfile fd, if want ≤ fdp.freefile then fd
    else fdp.freefile,
    fdp.refcnt⟩

theorem opened_taken {want : ℕ} (hlt : fd < fdp.nfiles) (hfree : fdp.opened fd = none) :
    (fdp.taken want fd).opened = fdp.opened := by
  rw [taken, opened_set hlt]
  exact Function.update_eq_self_iff.mpr hfree.symm

theorem nfiles_taken {want : ℕ} : (fdp.taken want fd).nfiles = fdp.nfiles := List.length_set

theorem Sound.taken {want : ℕ} (hsound : fdp.Sound) (hlt : fd < fdp.nfiles)
    (hfree : fdp.opened fd = none)
    (hbelow : ∀ d, max want fdp.freefile ≤ d → d < fd → fdp.opened d ≠ none) :
    (fdp.taken want fd).Sound where
  refcnt := hsound.refcnt
  ndfile_le := Nat.le_trans hsound.ndfile_le (Nat.le_of_eq nfiles_taken.symm)
  lastfile_lt := by
    rw [nfiles_taken]
    exact Nat.max_lt.mpr ⟨hsound.lastfile_lt, hlt⟩
  le_lastfile d hopen := by
    rw [opened_taken hlt hfree] at hopen
    exact Nat.le_trans (hsound.le_lastfile d hopen) (Nat.le_max_left _ _)
  below_freefile d hd := by
    rw [opened_taken hlt hfree]
    change d < (if want ≤ fdp.freefile then fd else fdp.freefile) at hd
    by_cases hold : d < fdp.freefile
    · exact hsound.below_freefile d hold
    · split_ifs at hd with hwant
      · exact hbelow d (by omega) hd
      · exact absurd hd hold

/-- A turn of `fdalloc` that finds an entry. -/
theorem fdallocLoop_found {lim : ℤ} {want fuel : ℕ} (hlt : fd < fdp.nfiles)
    (hscan : scan fdp.slots (max want fdp.freefile) (scanLimit fdp.nfiles lim) = some fd)
    (hsmall : fd < 2 ^ 16) :
    fdallocLoop lim want (fuel + 1) fdp = .ok (fdp.taken want fd, .ok fd) := by
  rw [fdallocLoop, hscan]
  dsimp only
  rw [store_eq hlt]
  change Except.ok _ = _
  rw [raise_eq hsmall, ushort_eq hsmall, taken]
  split_ifs <;> rfl

/-- A table with more free entries. -/
theorem Sound.append {n : ℕ} (hsound : fdp.Sound) :
    Sound { fdp with slots := fdp.slots ++ List.replicate n ⟨none, 0⟩ } where
  refcnt := hsound.refcnt
  ndfile_le := by
    rw [nfiles, List.length_append]
    exact Nat.le_trans hsound.ndfile_le (Nat.le_add_right _ _)
  lastfile_lt := by
    rw [nfiles, List.length_append]
    exact Nat.lt_of_lt_of_le hsound.lastfile_lt (Nat.le_add_right _ _)
  le_lastfile d hopen := by
    rw [opened_append] at hopen
    exact hsound.le_lastfile d hopen
  below_freefile d hd := by
    rw [opened_append]
    exact hsound.below_freefile d hd

/-- What `fdalloc` leaves, and what it returns. -/
structure Allocated (fdp : Filedesc F) (lim : ℤ) (want : ℕ) (fdp' : Filedesc F)
    (r : Except Errno ℕ) : Prop where
  sound : fdp'.Sound
  opened_eq : fdp'.opened = fdp.opened
  allocates : Allocates fdp.opened lim want r
  grows : fdp.nfiles ≤ fdp'.nfiles
  fresh : ∀ fd, r = .ok fd → fd ≤ fdp'.lastfile ∧ fdp'.slots[fd]? = some ⟨none, 0⟩

/-- `fdalloc` returns. -/
theorem fdallocLoop_spec {lim : ℤ} {want fuel : ℕ} (hsound : fdp.Sound)
    (hroom : fdp.Allocatable lim want) (hfuel : lim.toNat < fdp.nfiles + fuel) (hpos : 0 < fuel) :
    ∃ fdp' r, fdallocLoop lim want fuel fdp = .ok (fdp', r) ∧ Allocated fdp lim want fdp' r := by
  induction fuel generalizing fdp with
  | zero => exact absurd hpos (Nat.lt_irrefl 0)
  | succ fuel ih =>
    have hnonneg := hroom.nonneg
    have hfree := hsound.freefile_le
    cases hscan : scan fdp.slots (max want fdp.freefile) (scanLimit fdp.nfiles lim) with
    | some fd =>
      obtain ⟨hle, hlt, hnone, hbelow⟩ := scan_some hscan
      rw [scanLimit_eq hnonneg] at hlt
      have halloc : Allocates fdp.opened lim want (.ok fd) := by
        refine ⟨by omega, by omega, hnone, fun d hwant hd ↦ ?_⟩
        by_cases hold : d < fdp.freefile
        · exact hsound.below_freefile d hold
        · exact hbelow d (by omega) hd
      have hnfiles : fd < fdp.nfiles := by omega
      refine ⟨_, _, fdallocLoop_found hnfiles hscan (hroom.small fd halloc),
        hsound.taken hnfiles hnone hbelow, opened_taken hnfiles hnone, halloc,
        Nat.le_of_eq nfiles_taken.symm, ?_⟩
      rintro fd' ⟨⟩
      exact ⟨Nat.le_max_right _ _, List.getElem?_set_self hnfiles⟩
    | none =>
      have hfull := scan_none hscan
      rw [scanLimit_eq hnonneg] at hfull
      have hopen : ∀ d, want ≤ d → d < min fdp.nfiles lim.toNat → fdp.opened d ≠ none := by
        intro d hwant hd
        by_cases hold : d < fdp.freefile
        · exact hsound.below_freefile d hold
        · exact hfull d (by omega) hd
      rw [fdallocLoop, hscan]
      dsimp only
      by_cases hlim : lim ≤ fdp.nfiles
      · rw [if_pos hlim]
        refine ⟨fdp, .error .emfile, rfl, hsound, rfl, ⟨rfl, fun d hwant hd ↦ ?_⟩, Nat.le_refl _,
          fun fd h ↦ (nomatch h)⟩
        exact hopen d hwant (by omega)
      · rw [if_neg hlim]
        have hpos : 0 < fdp.nfiles := Nat.lt_of_lt_of_le (by decide) hsound.ndfile_le
        have hsize : newSize fdp.nfiles lim = grown fdp.nfiles :=
          newSize_eq (hroom.grows 0 (Int.lt_of_not_ge hlim) fun d hwant hd ↦
            hopen d hwant (by change d < fdp.nfiles at hd; omega))
        have hless := lt_grown hpos
        have henlarge : fdp.enlarge lim = .ok { fdp with
            slots := fdp.slots ++ List.replicate (grown fdp.nfiles - fdp.nfiles) ⟨none, 0⟩ } := by
          rw [enlarge, hsize, if_neg (Nat.not_lt.mpr (Nat.le_of_lt hless))]
        have hlength : (⟨fdp.slots ++ List.replicate (grown fdp.nfiles - fdp.nfiles) ⟨none, 0⟩,
            fdp.lastfile, fdp.freefile, fdp.refcnt⟩ : Filedesc F).nfiles = grown fdp.nfiles := by
          rw [nfiles, List.length_append, List.length_replicate]
          exact Nat.add_sub_of_le (Nat.le_of_lt hless)
        have hroom' : Allocatable ⟨fdp.slots ++ List.replicate (grown fdp.nfiles - fdp.nfiles)
            ⟨none, 0⟩, fdp.lastfile, fdp.freefile, fdp.refcnt⟩ lim want := by
          refine ⟨hnonneg, fun k ↦ ?_, fun fd ↦ ?_⟩
          · rw [hlength, opened_append]
            exact hroom.grows (k + 1)
          · rw [opened_append]
            exact hroom.small fd
        obtain ⟨fdp', r, hrun, halloc⟩ := ih hsound.append hroom' (by rw [hlength]; omega)
          (by omega)
        refine ⟨fdp', r, ?_, halloc.sound, ?_, ?_, ?_, halloc.fresh⟩
        · rw [henlarge]
          exact hrun
        · rw [halloc.opened_eq, opened_append]
        · have hallocates := halloc.allocates
          rwa [opened_append] at hallocates
        · have hgrows := halloc.grows
          rw [hlength] at hgrows
          omega

theorem fdalloc_spec {lim : ℤ} {want : ℕ} (hsound : fdp.Sound) (hroom : fdp.Allocatable lim want) :
    ∃ fdp' r, fdalloc lim want fdp = .ok (fdp', r) ∧ Allocated fdp lim want fdp' r :=
  fdallocLoop_spec hsound hroom (by omega) (by omega)

end Filedesc

end Bsd386.Kern.Descrip

/-!
# Reference counts of files

The number of entries of a table that name a file, and the calls that count references up and down.
A file is allocated as long as an entry names it.
-/

namespace Bsd386.Kern.Descrip

variable {F : Type} [DecidableEq F]

/-- An entry names the file. -/
def names (entry : Option (F × BitVec 8)) (f : F) : ℕ :=
  if entry.map Prod.fst = some f then 1 else 0

@[simp]
theorem names_none (f : F) : names none f = 0 := if_neg nofun

theorem names_some (fp : F) (flags : BitVec 8) (f : F) :
    names (some (fp, flags)) f = if f = fp then 1 else 0 := by
  rw [names, Option.map_some]
  simp only [Option.some.injEq, eq_comm]

@[simp]
theorem names_self (fp : F) (flags : BitVec 8) : names (some (fp, flags)) fp = 1 := by
  rw [names_some, if_pos rfl]

/-- The number of the `n` descriptors from `i` on that name the file. -/
def held (table : Table F) (f : F) : ℕ → ℕ → ℕ
  | 0, _ => 0
  | n + 1, i => names (table i) f + held table f n (i + 1)

section Held

variable {table table' : Table F} {f : F} {n m i fd : ℕ}

theorem held_succ : held table f (n + 1) i = names (table i) f + held table f n (i + 1) := rfl

theorem held_congr (heq : ∀ d, i ≤ d → d < i + n → table d = table' d) :
    held table f n i = held table' f n i := by
  induction n generalizing i with
  | zero => rfl
  | succ n ih =>
    rw [held_succ, held_succ, heq i (Nat.le_refl i) (by omega),
      ih fun d hle hlt ↦ heq d (by omega) (by omega)]

theorem held_none (hnone : ∀ d, i ≤ d → d < i + n → table d = none) : held table f n i = 0 := by
  induction n generalizing i with
  | zero => rfl
  | succ n ih =>
    rw [held_succ, hnone i (Nat.le_refl i) (by omega), names_none,
      ih fun d hle hlt ↦ hnone d (by omega) (by omega)]

theorem held_add : held table f (m + n) i = held table f m i + held table f n (i + m) := by
  induction m generalizing i with
  | zero =>
    rw [Nat.zero_add]
    exact (Nat.zero_add _).symm
  | succ m ih =>
    rw [Nat.succ_add, held_succ, held_succ, ih, Nat.add_assoc, Nat.add_assoc, Nat.add_comm 1 m]

/-- Descriptors behind the open ones do not count. -/
theorem held_of_le (hle : m ≤ n) (hnone : ∀ d, i + m ≤ d → table d = none) :
    held table f n i = held table f m i := by
  obtain ⟨k, rfl⟩ := Nat.exists_eq_add_of_le hle
  rw [held_add, held_none fun d hd _ ↦ hnone d hd, Nat.add_zero]

theorem held_update {entry : Option (F × BitVec 8)} (hle : i ≤ fd) (hlt : fd < i + n) :
    held (Function.update table fd entry) f n i + names (table fd) f =
      held table f n i + names entry f := by
  induction n generalizing i with
  | zero => omega
  | succ n ih =>
    rw [held_succ, held_succ]
    by_cases hfd : fd = i
    · subst hfd
      have hrest : held (Function.update table fd entry) f n (fd + 1) = held table f n (fd + 1) :=
        held_congr fun d hd _ ↦ Function.update_of_ne (by omega) _ _
      rw [Function.update_self, hrest]
      omega
    · have hrest := ih (i := i + 1) (by omega) (by omega)
      rw [Function.update_of_ne (Ne.symm hfd)]
      omega

theorem held_pos {flags : BitVec 8} (hle : i ≤ fd) (hlt : fd < i + n)
    (hopen : table fd = some (f, flags)) : 0 < held table f n i := by
  induction n generalizing i with
  | zero => omega
  | succ n ih =>
    rw [held_succ]
    by_cases hfd : fd = i
    · subst hfd
      rw [hopen, names_self]
      exact Nat.add_pos_left Nat.one_pos _
    · exact Nat.add_pos_right _ (ih (by omega) (by omega))

end Held

/-- The number of descriptors of a table that name the file. -/
def Filedesc.uses (fdp : Filedesc F) (f : F) : ℕ := held fdp.opened f fdp.nfiles 0

theorem uses_eq_held (fdp : Filedesc F) {n : ℕ} (hle : fdp.nfiles ≤ n) (f : F) :
    fdp.uses f = held fdp.opened f n 0 := by
  refine (held_of_le hle fun d hd ↦ ?_).symm
  exact Filedesc.opened_of_nfiles_le (Nat.zero_add fdp.nfiles ▸ hd)

/-- The uses of a file depend on the open descriptors only. -/
theorem uses_congr {fdp fdp' : Filedesc F} (heq : fdp'.opened = fdp.opened) (f : F) :
    fdp'.uses f = fdp.uses f := by
  rw [uses_eq_held fdp' (Nat.le_max_left fdp'.nfiles fdp.nfiles),
    uses_eq_held fdp (Nat.le_max_right fdp'.nfiles fdp.nfiles), heq]

theorem uses_update {fdp fdp' : Filedesc F} {fd : ℕ} {entry : Option (F × BitVec 8)}
    (heq : fdp'.opened = Function.update fdp.opened fd entry) (f : F) :
    fdp'.uses f + names (fdp.opened fd) f = fdp.uses f + names entry f := by
  rw [uses_eq_held fdp' (n := max (max fdp'.nfiles fdp.nfiles) (fd + 1)) (by omega) f,
    uses_eq_held fdp (n := max (max fdp'.nfiles fdp.nfiles) (fd + 1)) (by omega) f, heq]
  exact held_update (Nat.zero_le _) (by omega)

theorem uses_pos {fdp : Filedesc F} {fd : ℕ} {f : F} {flags : BitVec 8}
    (hopen : fdp.opened fd = some (f, flags)) : 0 < fdp.uses f := by
  have hlt := Filedesc.opened_lt (hopen ▸ Option.some_ne_none _)
  exact held_pos (Nat.zero_le _) (Nat.lt_of_lt_of_le hlt (Nat.le_add_left _ _)) hopen

/-! ### The file table -/

/-- `f_count` is the number of references, and a file without a reference is not allocated. -/
def Files.Counts (files : Files F) (n : F → ℕ) : Prop :=
  ∀ f, files.count f = if n f = 0 then none else some (n f : ℤ)

theorem short_eq {n : ℤ} (hlow : -2 ^ 15 ≤ n) (hhigh : n < 2 ^ 15) : short n = n := by
  rw [short, Int.bmod_def]
  split <;> omega

variable {files : Files F} {n n' : F → ℕ} {fp : F}

omit [DecidableEq F] in
theorem Files.Counts.congr (hcounts : files.Counts n) (heq : ∀ f, n' f = n f) :
    files.Counts n' := by
  intro f
  rw [heq f]
  exact hcounts f

/-- The count of one file changes. -/
theorem Files.Counts.update {v : Option ℤ} {k : ℤ} (hcounts : files.Counts n)
    (hfp : v = if n' fp = 0 then none else some (n' fp : ℤ)) (hother : ∀ f, f ≠ fp → n' f = n f) :
    (⟨Function.update files.count fp v, k⟩ : Files F).Counts n' := by
  intro f
  dsimp only
  by_cases hf : f = fp
  · subst hf
    rw [Function.update_self, hfp]
  · rw [Function.update_of_ne hf, hother f hf]
    exact hcounts f

theorem Files.Counts.hold (hcounts : files.Counts n) (hpos : 0 < n fp) (hsmall : n fp + 1 < 2 ^ 15)
    (hnext : ∀ f, n' f = n f + if f = fp then 1 else 0) :
    ∃ files', files.hold fp = .ok files' ∧ files'.Counts n' ∧ files'.nfiles = files.nfiles := by
  have hfp := hcounts fp
  have hnfp := hnext fp
  rw [if_neg (Nat.ne_of_gt hpos)] at hfp
  rw [if_pos rfl] at hnfp
  rw [Files.hold, hfp]
  refine ⟨_, rfl, hcounts.update ?_ fun f hf ↦ ?_, rfl⟩
  · rw [hnfp, if_neg (Nat.succ_ne_zero _), short_eq (by omega) (by omega)]
    rfl
  · rw [hnext f, if_neg hf, Nat.add_zero]

theorem Files.Counts.closef (hcounts : files.Counts n) (hsmall : n fp < 2 ^ 15)
    (hnext : ∀ f, n' f + (if f = fp then 1 else 0) = n f) :
    ∃ files', files.closef fp = .ok files' ∧ files'.Counts n' := by
  have hfp := hcounts fp
  have hnfp := hnext fp
  rw [if_pos rfl] at hnfp
  rw [if_neg (by omega)] at hfp
  have hshort : short ((n fp : ℤ) - 1) = n' fp := by
    rw [short_eq (by omega) (by omega)]
    omega
  have hother : ∀ f, f ≠ fp → n' f = n f := by
    intro f hf
    have hn := hnext f
    rwa [if_neg hf, Nat.add_zero] at hn
  rw [Files.closef, hfp]
  dsimp only
  rw [hshort]
  by_cases hpos : (0 : ℤ) < n' fp
  · rw [if_pos hpos]
    exact ⟨_, rfl, hcounts.update (by rw [if_neg (by omega)]) hother⟩
  · rw [if_neg hpos]
    exact ⟨_, rfl, hcounts.update (by rw [if_pos (by omega)]) hother⟩

end Bsd386.Kern.Descrip
