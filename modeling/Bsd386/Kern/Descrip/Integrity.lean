import Bsd386.Kern.Descrip.Calls

/-!
# Integrity of the descriptor tables

Processes with their tables, all of them naming files of one file table. A process calls, forks and
exits, and its limit changes at any time. While the calls meet the conditions of the arithmetic, no
step leaves an array, all tables and counts stay right and every call does what it should; the
descriptors that it is not about keep their files and flags.
-/

namespace Bsd386.Kern.Descrip

variable {F : Type}

/-- A process: its limit of open files and its table, which is gone when the process has exited. -/
structure Proc (F : Type) where
  lim : ℤ
  fd : Option (Filedesc F)

structure System (F : Type) where
  procs : List (Proc F)
  files : Files F

inductive Event (F : Type)
  | call (p : ℕ) (c : Call F)
  | setrlimit (p : ℕ) (lim : ℤ)
  | fork (p : ℕ)
  | exit (p : ℕ)

/-- The first process, which has no open files. -/
def initial (lim : ℤ) : System F :=
  ⟨[⟨lim, some ⟨List.replicate ndfile ⟨none, 0⟩, 0, 0, 1⟩⟩], ⟨fun _ ↦ none, 0⟩⟩

variable [DecidableEq F]

/-- One step. Nothing happens where the process does not exist. -/
def System.exec (maxfiles : ℤ) (s : System F) : Event F → Except Fault (System F × Except Errno ℕ)
  | .call p c =>
    match s.procs[p]? with
    | some ⟨lim, some fdp⟩ => do
      let result ← c.run maxfiles lim fdp s.files
      return (⟨s.procs.set p ⟨lim, some result.1⟩, result.2.1⟩, result.2.2)
    | _ => .ok (s, .ok 0)
  | .setrlimit p lim =>
    match s.procs[p]? with
    | some q => .ok ({ s with procs := s.procs.set p { q with lim := lim } }, .ok 0)
    | none => .ok (s, .ok 0)
  | .fork p =>
    match s.procs[p]? with
    | some ⟨lim, some fdp⟩ => do
      let result ← fdcopy fdp s.files
      return (⟨s.procs ++ [⟨lim, some result.1⟩], result.2⟩, .ok s.procs.length)
    | _ => .ok (s, .ok 0)
  | .exit p =>
    match s.procs[p]? with
    | some ⟨lim, some fdp⟩ => do
      let result ← fdfree fdp s.files
      return (⟨s.procs.set p ⟨lim, result.1⟩, result.2⟩, .ok 0)
    | _ => .ok (s, .ok 0)

/-- The descriptors of a process that name the file. -/
def Proc.uses (q : Proc F) (f : F) : ℕ :=
  match q.fd with
  | some fdp => fdp.uses f
  | none => 0

/-- The descriptors of all processes that name the file. -/
def uses : List (Proc F) → F → ℕ
  | [], _ => 0
  | q :: procs, f => q.uses f + uses procs f

/-- All tables and all reference counts are right. -/
structure System.Sound (s : System F) : Prop where
  tables : ∀ q ∈ s.procs, ∀ fdp, q.fd = some fdp → fdp.Sound
  counts : s.files.Counts (uses s.procs)
  small : ∀ f, uses s.procs f < 2 ^ 15

/-- A step is possible: `MALLOC` gives free memory. -/
def Event.Possible (s : System F) : Event F → Prop
  | .call _ c => c.Possible s.files
  | _ => True

/-- A step meets the conditions of the arithmetic. -/
def Event.Meets (s : System F) : Event F → Prop
  | .call p c =>
    ∀ lim fdp, s.procs[p]? = some ⟨lim, some fdp⟩ → c.Meets lim fdp (uses s.procs)
  | .fork p =>
    ∀ lim fdp, s.procs[p]? = some ⟨lim, some fdp⟩ →
      fdp.Copyable ∧ ∀ f, fdp.uses f + uses s.procs f < 2 ^ 15
  | _ => True

/-- What a step does: a call does its work on the table of its process, `fork` adds a process with
the same open descriptors, and all other tables stay. -/
def Event.Spec (maxfiles : ℤ) (s : System F) (r : Except Errno ℕ) (s' : System F) :
    Event F → Prop
  | .call p c =>
    ∀ lim fdp, s.procs[p]? = some ⟨lim, some fdp⟩ →
      ∃ fdp', s'.procs = s.procs.set p ⟨lim, some fdp'⟩ ∧
        c.Spec lim (maxfiles ≤ s.files.nfiles) fdp.opened r fdp'.opened
  | .setrlimit p lim =>
    ∀ q, s.procs[p]? = some q → s'.procs = s.procs.set p { q with lim := lim }
  | .fork p =>
    ∀ lim fdp, s.procs[p]? = some ⟨lim, some fdp⟩ →
      ∃ fdp', s'.procs = s.procs ++ [⟨lim, some fdp'⟩] ∧ fdp'.opened = fdp.opened
  | .exit p =>
    ∀ lim fdp, s.procs[p]? = some ⟨lim, some fdp⟩ → s'.procs = s.procs.set p ⟨lim, none⟩

/-- The runs whose steps are all allowed. -/
inductive Reach (maxfiles : ℤ) (allowed : System F → Event F → Prop) : System F → Prop
  | start (lim : ℤ) : Reach maxfiles allowed (initial lim)
  | step {s s' : System F} {e : Event F} {r : Except Errno ℕ} (hreach : Reach maxfiles allowed s)
      (hallowed : allowed s e) (hexec : s.exec maxfiles e = .ok (s', r)) :
      Reach maxfiles allowed s'

/-! ### One step -/

section Uses

variable {procs procs' : List (Proc F)} {p : ℕ} {q : Proc F}

theorem uses_append (f : F) : uses (procs ++ procs') f = uses procs f + uses procs' f := by
  induction procs with
  | nil => exact (Nat.zero_add _).symm
  | cons q procs ih =>
    rw [List.cons_append, uses, uses, ih, Nat.add_assoc]

/-- The references of one process and those of the others. -/
theorem uses_set (hp : procs[p]? = some q) :
    ∃ others : F → ℕ, (∀ f, uses procs f = q.uses f + others f) ∧
      ∀ q' f, uses (procs.set p q') f = q'.uses f + others f := by
  induction procs generalizing p with
  | nil => cases hp
  | cons q₀ procs ih =>
    cases p with
    | zero =>
      cases hp
      exact ⟨uses procs, fun f ↦ rfl, fun q' f ↦ rfl⟩
    | succ p =>
      obtain ⟨others, hall, hset⟩ := ih hp
      refine ⟨fun f ↦ q₀.uses f + others f, fun f ↦ ?_, fun q' f ↦ ?_⟩
      · rw [uses, hall f]
        exact Nat.add_left_comm _ _ _
      · rw [List.set_cons_succ, uses, hset q' f]
        exact Nat.add_left_comm _ _ _

end Uses

variable {maxfiles : ℤ} {s : System F}

theorem System.Sound.table (hsound : s.Sound) {p : ℕ} {lim : ℤ} {fdp : Filedesc F}
    (hp : s.procs[p]? = some ⟨lim, some fdp⟩) : fdp.Sound :=
  hsound.tables _ (List.mem_of_getElem? hp) fdp rfl

/-- The tables after one of them changed. -/
theorem System.Sound.tables_set (hsound : s.Sound) {p : ℕ} {q : Proc F}
    (hq : ∀ fdp, q.fd = some fdp → fdp.Sound) :
    ∀ q' ∈ s.procs.set p q, ∀ fdp, q'.fd = some fdp → fdp.Sound := by
  intro q' hq' fdp hfd
  rcases List.mem_or_eq_of_mem_set hq' with hold | rfl
  · exact hsound.tables q' hold fdp hfd
  · exact hq fdp hfd

/-- A call of a process. -/
theorem System.Sound.call {p : ℕ} {c : Call F} (hsound : s.Sound)
    (hpossible : c.Possible s.files) (hmeets : (Event.call p c).Meets s) :
    ∃ s' r, s.exec maxfiles (.call p c) = .ok (s', r) ∧ s'.Sound ∧
      (Event.call p c).Spec maxfiles s r s' := by
  rw [System.exec]
  match hp : s.procs[p]? with
  | none => exact ⟨s, .ok 0, rfl, hsound, fun lim fdp h ↦ nomatch hp.symm.trans h⟩
  | some ⟨lim, none⟩ => exact ⟨s, .ok 0, rfl, hsound, fun lim fdp h ↦ nomatch hp.symm.trans h⟩
  | some ⟨lim, some fdp⟩ =>
    obtain ⟨others, hall, hset⟩ := uses_set hp
    have huses : ∀ f, fdp.uses f + others f = uses s.procs f := fun f ↦ (hall f).symm
    have hkept : Kept others fdp s.files := by
      refine ⟨hsound.table hp, hsound.counts.congr huses, fun f ↦ ?_⟩
      rw [huses f]
      exact hsound.small f
    have hthis : c.Meets lim fdp fun f ↦ fdp.uses f + others f := by
      have hcall := hmeets lim fdp hp
      rwa [← funext huses] at hcall
    obtain ⟨fdp', files', r, hrun, hkept', hspec⟩ := hkept.correct hpossible hthis
    refine ⟨⟨s.procs.set p ⟨lim, some fdp'⟩, files'⟩, r, ?_, ⟨?_, ?_, ?_⟩, ?_⟩
    · dsimp only
      rw [hrun]
      rfl
    · apply hsound.tables_set
      rintro _ ⟨⟩
      exact hkept'.sound
    · exact hkept'.counts.congr fun f ↦ hset ⟨lim, some fdp'⟩ f
    · intro f
      rw [hset]
      exact hkept'.small f
    · intro lim₀ fdp₀ h
      cases hp.symm.trans h
      exact ⟨fdp', rfl, hspec⟩

/-- The counts as those of one table and of the others. -/
theorem System.Sound.kept (hsound : s.Sound) {p : ℕ} {lim : ℤ} {fdp : Filedesc F}
    (hp : s.procs[p]? = some ⟨lim, some fdp⟩) :
    ∃ others, Kept others fdp s.files ∧ (∀ f, uses s.procs f = fdp.uses f + others f) ∧
      ∀ q' f, uses (s.procs.set p q') f = q'.uses f + others f := by
  obtain ⟨others, hall, hset⟩ := uses_set hp
  refine ⟨others, ⟨hsound.table hp, hsound.counts.congr fun f ↦ (hall f).symm, fun f ↦ ?_⟩,
    hall, hset⟩
  have hsmall := hsound.small f
  rwa [hall f] at hsmall

theorem System.Sound.fork {p : ℕ} (hsound : s.Sound) (hmeets : (Event.fork p).Meets s) :
    ∃ s' r, s.exec maxfiles (.fork p) = .ok (s', r) ∧ s'.Sound ∧
      (Event.fork p).Spec maxfiles s r s' := by
  rw [System.exec]
  match hp : s.procs[p]? with
  | none => exact ⟨s, .ok 0, rfl, hsound, fun lim fdp h ↦ nomatch hp.symm.trans h⟩
  | some ⟨lim, none⟩ => exact ⟨s, .ok 0, rfl, hsound, fun lim fdp h ↦ nomatch hp.symm.trans h⟩
  | some ⟨lim, some fdp⟩ =>
    obtain ⟨others, hkept, hall, -⟩ := hsound.kept hp
    obtain ⟨hcopy, hcount⟩ := hmeets lim fdp hp
    obtain ⟨newfdp, files', hrun, hnew, hopened, hcounts⟩ := hkept.fdcopy hcopy fun f ↦ by
      have hcountf := hcount f
      rw [hall f] at hcountf
      omega
    have huses : ∀ f, uses (s.procs ++ [⟨lim, some newfdp⟩]) f =
        newfdp.uses f + (fdp.uses f + others f) := by
      intro f
      rw [uses_append, hall f, Nat.add_comm]
      rfl
    refine ⟨⟨s.procs ++ [⟨lim, some newfdp⟩], files'⟩, .ok s.procs.length, ?_,
      ⟨?_, hcounts.congr huses, fun f ↦ ?_⟩, ?_⟩
    · dsimp only
      rw [hrun]
      rfl
    · intro q hq fdp' hfd
      rcases List.mem_append.mp hq with hold | hlast
      · exact hsound.tables q hold fdp' hfd
      · cases List.mem_singleton.mp hlast
        cases hfd
        exact hnew
    · have hcountf := hcount f
      rw [huses f, uses_congr hopened f]
      rw [hall f] at hcountf
      exact hcountf
    · intro lim₀ fdp₀ h
      cases hp.symm.trans h
      exact ⟨newfdp, rfl, hopened⟩

theorem System.Sound.exit {p : ℕ} (hsound : s.Sound) :
    ∃ s' r, s.exec maxfiles (.exit p) = .ok (s', r) ∧ s'.Sound ∧
      (Event.exit p).Spec maxfiles s r s' := by
  rw [System.exec]
  match hp : s.procs[p]? with
  | none => exact ⟨s, .ok 0, rfl, hsound, fun lim fdp h ↦ nomatch hp.symm.trans h⟩
  | some ⟨lim, none⟩ => exact ⟨s, .ok 0, rfl, hsound, fun lim fdp h ↦ nomatch hp.symm.trans h⟩
  | some ⟨lim, some fdp⟩ =>
    obtain ⟨others, hkept, hall, hset⟩ := hsound.kept hp
    obtain ⟨files', hrun, hcounts⟩ := hkept.fdfree
    have huses : ∀ f, uses (s.procs.set p ⟨lim, none⟩) f = others f := by
      intro f
      rw [hset]
      exact Nat.zero_add _
    refine ⟨⟨s.procs.set p ⟨lim, none⟩, files'⟩, .ok 0, ?_,
      ⟨?_, hcounts.congr huses, fun f ↦ ?_⟩, ?_⟩
    · dsimp only
      rw [hrun]
      rfl
    · apply hsound.tables_set
      intro fdp' hfd
      cases hfd
    · have hsmall := hsound.small f
      rw [hall f] at hsmall
      rw [huses f]
      omega
    · intro lim₀ fdp₀ h
      cases hp.symm.trans h
      rfl

theorem System.Sound.setrlimit {p : ℕ} {lim : ℤ} (hsound : s.Sound) :
    ∃ s' r, s.exec maxfiles (.setrlimit p lim) = .ok (s', r) ∧ s'.Sound ∧
      (Event.setrlimit p lim).Spec maxfiles s r s' := by
  rw [System.exec]
  match hp : s.procs[p]? with
  | none => exact ⟨s, .ok 0, rfl, hsound, fun q h ↦ nomatch hp.symm.trans h⟩
  | some q =>
    obtain ⟨others, hall, hset⟩ := uses_set hp
    have huses : ∀ f, uses (s.procs.set p { q with lim := lim }) f = uses s.procs f := by
      intro f
      rw [hset, hall f]
      rfl
    refine ⟨⟨s.procs.set p { q with lim := lim }, s.files⟩, .ok 0, rfl,
      ⟨hsound.tables_set fun fdp hfd ↦ hsound.tables q (List.mem_of_getElem? hp) fdp hfd,
        hsound.counts.congr huses, fun f ↦ huses f ▸ hsound.small f⟩, ?_⟩
    intro q₀ h
    cases hp.symm.trans h
    rfl

/-- One step that meets the conditions. -/
theorem System.Sound.exec {e : Event F} (hsound : s.Sound) (hpossible : e.Possible s)
    (hmeets : e.Meets s) :
    ∃ s' r, s.exec maxfiles e = .ok (s', r) ∧ s'.Sound ∧ e.Spec maxfiles s r s' := by
  cases e with
  | call p c => exact hsound.call hpossible hmeets
  | setrlimit p lim => exact hsound.setrlimit
  | fork p => exact hsound.fork hmeets
  | exit p => exact hsound.exit

/-! ### Runs -/

theorem initial_sound (lim : ℤ) : (initial lim : System F).Sound := by
  have hopened : (⟨List.replicate ndfile ⟨none, 0⟩, 0, 0, 1⟩ : Filedesc F).opened =
      fun _ ↦ none := by
    funext d
    rw [Filedesc.opened, List.getElem?_replicate]
    split_ifs <;> rfl
  have huses : ∀ f : F, uses (initial lim).procs f = 0 := by
    intro f
    change Filedesc.uses _ f + 0 = 0
    rw [Nat.add_zero, Filedesc.uses, hopened]
    exact held_none fun d _ _ ↦ rfl
  refine ⟨?_, fun f ↦ ?_, fun f ↦ ?_⟩
  · intro q hq fdp hfd
    cases List.mem_singleton.mp hq
    cases hfd
    exact ⟨rfl, Nat.le_refl _, Nat.succ_pos 19, fun d hd ↦ absurd (congrFun hopened d) hd,
      fun d hd ↦ absurd hd (Nat.not_lt_zero d)⟩
  · rw [huses f]
    rfl
  · rw [huses f]
    decide

/-- In every run whose steps meet the conditions, all tables and counts stay right, and each next
step that meets them faults nowhere and does what it should. -/
theorem descriptor_integrity (maxfiles : ℤ) {s : System F}
    (hreach : Reach maxfiles (fun s e ↦ e.Possible s ∧ e.Meets s) s) :
    s.Sound ∧ ∀ e, e.Possible s → e.Meets s →
      ∃ s' r, s.exec maxfiles e = .ok (s', r) ∧ e.Spec maxfiles s r s' := by
  have hsound : s.Sound := by
    induction hreach with
    | start lim => exact initial_sound lim
    | step _ hallowed hexec ih =>
      obtain ⟨s₂, r₂, hexec₂, hsound₂, -⟩ := ih.exec hallowed.1 hallowed.2
      cases hexec.symm.trans hexec₂
      exact hsound₂
  refine ⟨hsound, fun e hpossible hmeets ↦ ?_⟩
  obtain ⟨s', r, hexec, -, hspec⟩ := hsound.exec hpossible hmeets
  exact ⟨s', r, hexec, hspec⟩

/-- The empty table of the first process has room for a descriptor. -/
theorem initial_allocatable :
    (⟨List.replicate ndfile ⟨none, 0⟩, 0, 0, 1⟩ : Filedesc ℕ).Allocatable 64 0 := by
  have hfree : (⟨List.replicate ndfile ⟨none, 0⟩, 0, 0, 1⟩ : Filedesc ℕ).opened 0 = none := rfl
  have hpos : ∀ k, 0 < Filedesc.grown^[k] 20 := by
    intro k
    induction k with
    | zero => decide
    | succ k ih =>
      rw [Function.iterate_succ_apply']
      exact Nat.lt_trans ih (Filedesc.lt_grown ih)
  refine ⟨by decide, fun k _ hfull ↦ ?_, fun fd halloc ↦ ?_⟩
  · exact absurd hfree (hfull 0 (Nat.le_refl 0) (hpos k))
  · have hzero : fd = 0 := by
      by_contra hne
      exact halloc.2.2.2 0 (Nat.le_refl 0) (Nat.pos_of_ne_zero hne) hfree
    rw [hzero]
    decide

/-- The first file of a process. -/
theorem falloc_integrity :
    ∃ s : System ℕ, (initial 64).exec 100 (.call 0 (.falloc 7)) = .ok (s, .ok 0) ∧ s.Sound := by
  have hmeets : (Event.call 0 (.falloc 7)).Meets (initial 64 : System ℕ) := by
    intro lim fdp hp
    cases hp
    exact initial_allocatable
  have hstart : Reach 100 (fun s e ↦ e.Possible s ∧ e.Meets s) (initial 64 : System ℕ) := .start 64
  exact ⟨_, rfl, (descriptor_integrity 100
    (hstart.step (e := .call 0 (.falloc 7)) ⟨rfl, hmeets⟩ rfl)).1⟩

/-- With a limit of 64, a table of 50 entries is "enlarged" to 100 % 64 = 36 of them. -/
theorem enlarge_faults :
    ¬ ∀ (maxfiles : ℤ) (s : System ℕ), Reach maxfiles (fun s e ↦ e.Possible s) s →
      s.Sound ∧ ∀ e, e.Possible s →
        ∃ s' r, s.exec maxfiles e = .ok (s', r) ∧ e.Spec maxfiles s r s' := by
  intro h
  have hstart : Reach 100 (fun s e ↦ e.Possible s) (initial 64 : System ℕ) := .start 64
  have hreach := hstart.step (e := .call 0 (.falloc 7)) rfl rfl
  obtain ⟨s', r, hexec, -⟩ := (h 100 _ hreach).2 (.call 0 (.dup2 0 50)) trivial
  cases hexec

end Bsd386.Kern.Descrip
