import Bsd386.Kern.Fault
import Bsd386.Lib.References
import Mathlib.Data.Fintype.Card
import Mathlib.Logic.Function.Basic

/-!
# Credentials

The credentials of `kern/cred.c` with what `fork1`, `falloc`, `ffree` and `reclaimproc` do to their
counts. Control switches where `modpcred` and `crget` allocate memory. What `MALLOC` returns is part
of the event.
-/

namespace Bsd386.Kern.Cred

open Function

/-- `uid_t` and `gid_t`. -/
abbrev Id : Type := BitVec 16

/-- `NGROUPS_MAX`. -/
def ngroupsMax : ℕ := 16

/-- `USHRT_MAX`, the largest value of `cr_ref`. -/
def ushrtMax : ℕ := 65535

/-- `ROLE_ALL` and `ROLE_NONE`. -/
def roleAll : ℕ := 0
def roleNone : ℕ := 4

/-- `struct ucred`. -/
structure Ucred where
  ref : ℕ
  uid : Id
  role : ℕ
  ngroups : ℕ
  groups : ℕ → Id

/-- `struct pcred`. -/
structure Pcred (C : Type) where
  ucred : C
  ruid : Id
  svuid : Id
  rgid : Id
  svgid : Id
  refcnt : ℕ

/-- The system calls that change credentials, with their arguments. -/
inductive Syscall
  | setuid (uid : ℤ)
  | seteuid (euid : ℤ)
  | setgid (gid : ℤ)
  | setegid (egid : ℤ)
  | setgroups (gidset : List ℤ)
  | setlogin

/-- Where a process is: in user mode, at one of the two allocations in `modpcred`, or a zombie. -/
inductive Place
  | user
  | subproc (call : Syscall)
  | crget (call : Syscall)
  | zombie

/-- The processes, the two levels of credentials by their addresses, and the open files. `other`
counts the references that are held elsewhere, like the one that `ucred0` begins with. -/
structure System (P F A C : Type) where
  cred : P → Option A
  place : P → Place
  pcreds : A → Option (Pcred C)
  ucreds : C → Option Ucred
  fcred : F → Option C
  other : C → ℕ

/-- What happens. A process forks, opens a file, calls one of the system calls, goes on with the
memory that it has been given, and exits. Anybody may close a file, and a zombie is reclaimed by its
parent. -/
inductive Event (P F A C : Type)
  | fork (p q : P)
  | falloc (p : P) (f : F)
  | ffree (f : F)
  | call (p : P) (call : Syscall)
  | subproc (p : P) (a : A)
  | crget (p : P) (c : C)
  | exit (p : P)
  | reclaimproc (p : P)

/-- `use_priv` for a privilege that needs no role beyond `minrole`. -/
def Ucred.usePriv (u : Ucred) (minrole : ℕ) : Bool := u.role ≤ minrole && u.uid = 0

/-- A conversion of an argument to `uid_t` or `gid_t`. -/
def Syscall.id (n : ℤ) : Id := BitVec.ofInt 16 n

variable {P F A C : Type}

/-- The checks before `modpcred`. -/
def Syscall.permitted (pc : Pcred C) (u : Ucred) : Syscall → Bool
  | .setuid uid => Syscall.id uid = pc.ruid || u.usePriv roleNone
  | .seteuid euid => Syscall.id euid = pc.ruid || Syscall.id euid = pc.svuid || u.usePriv roleNone
  | .setgid gid => Syscall.id gid = pc.rgid || u.usePriv roleNone
  | .setegid egid => Syscall.id egid = pc.rgid || Syscall.id egid = pc.svgid || u.usePriv roleNone
  | .setgroups gidset => u.usePriv roleNone && gidset.length ≤ ngroupsMax
  | .setlogin => u.usePriv roleAll

/-- What a call writes to the process credentials behind `modpcred`. -/
def Syscall.pcred (pc : Pcred C) : Syscall → Pcred C
  | .setuid uid => { pc with ruid := Syscall.id uid, svuid := Syscall.id uid }
  | .setgid gid => { pc with rgid := Syscall.id gid, svgid := Syscall.id gid }
  | _ => pc

/-- What a call writes to the user credentials behind `modpcred`. -/
def Syscall.ucred (u : Ucred) : Syscall → Ucred
  | .setuid uid => { u with uid := Syscall.id uid }
  | .seteuid euid => { u with uid := Syscall.id euid }
  | .setgid gid => { u with groups := update u.groups 0 (Syscall.id gid) }
  | .setegid egid => { u with groups := update u.groups 0 (Syscall.id egid) }
  | .setgroups gidset =>
    { u with
      ngroups := gidset.length
      groups := fun i ↦ (gidset[i]?).elim (u.groups i) Syscall.id }
  | .setlogin => { u with role := 0 }

namespace System

variable [DecidableEq P] [DecidableEq F] [DecidableEq A] [DecidableEq C]

/-- Go on elsewhere. -/
def goto (s : System P F A C) (p : P) (place : Place) : System P F A C :=
  { s with place := update s.place p place }

/-- `crhold`. -/
def crhold (c : C) (s : System P F A C) : Except Fault (System P F A C) := do
  let u ← deref (s.ucreds c)
  return { s with
    ucreds := update s.ucreds c (some { u with ref := (u.ref + 1) % (ushrtMax + 1) }) }

/-- `crfree`. -/
def crfree (c : C) (s : System P F A C) : Except Fault (System P F A C) := do
  let u ← deref (s.ucreds c)
  let ref := (u.ref + ushrtMax) % (ushrtMax + 1)
  return { s with
    ucreds := update s.ucreds c (if ref ≠ 0 then some { u with ref := ref } else none) }

/-- The end of a system call, behind `modpcred`. -/
def finish (p : P) (call : Syscall) (s : System P F A C) : Except Fault (System P F A C) := do
  let a ← deref (s.cred p)
  let pc ← deref (s.pcreds a)
  let u ← deref (s.ucreds pc.ucred)
  return { s with
    pcreds := update s.pcreds a (some (call.pcred pc))
    ucreds := update s.ucreds pc.ucred (some (call.ucred u)) }.goto p .user

/-- `modpcred` from the second test on. -/
def unshared (p : P) (call : Syscall) (s : System P F A C) : Except Fault (System P F A C) := do
  let a ← deref (s.cred p)
  let pc ← deref (s.pcreds a)
  let u ← deref (s.ucreds pc.ucred)
  if u.ref ≠ 1 then return s.goto p (.crget call) else s.finish p call

/-- A system call up to the first allocation. -/
def enter (p : P) (call : Syscall) (s : System P F A C) : Except Fault (System P F A C) := do
  let a ← deref (s.cred p)
  let pc ← deref (s.pcreds a)
  let u ← deref (s.ucreds pc.ucred)
  if call.permitted pc u then
    if pc.refcnt ≠ 1 then return s.goto p (.subproc call) else s.unshared p call
  else return s

/-- `modpcred` behind its first allocation. -/
def subproc (p : P) (a : A) (call : Syscall) (s : System P F A C) :
    Except Fault (System P F A C) := do
  let b ← deref (s.cred p)
  let pc ← deref (s.pcreds b)
  let s ← crhold pc.ucred { s with
    cred := update s.cred p (some a)
    pcreds := update (update s.pcreds b (some { pc with refcnt := pc.refcnt - 1 })) a
      (some { pc with refcnt := 1 }) }
  s.unshared p call

/-- `crdup` behind `crget`, and what `modpcred` does with the copy. -/
def crdup (p : P) (c : C) (call : Syscall) (s : System P F A C) :
    Except Fault (System P F A C) := do
  let a ← deref (s.cred p)
  let pc ← deref (s.pcreds a)
  let u ← deref (s.ucreds pc.ucred)
  let s ← crfree pc.ucred { s with ucreds := update s.ucreds c (some { u with ref := 1 }) }
  finish p call { s with pcreds := update s.pcreds a (some { pc with ucred := c }) }

/-- `fork1`, as far as the credentials go. -/
def fork1 (p q : P) (s : System P F A C) : Except Fault (System P F A C) := do
  let a ← deref (s.cred p)
  let pc ← deref (s.pcreds a)
  return { s with
    pcreds := update s.pcreds a (some { pc with refcnt := pc.refcnt + 1 })
    cred := update s.cred q (some a) }.goto q .user

/-- `falloc`, as far as the credentials go. -/
def falloc (p : P) (f : F) (s : System P F A C) : Except Fault (System P F A C) := do
  let a ← deref (s.cred p)
  let pc ← deref (s.pcreds a)
  crhold pc.ucred { s with fcred := update s.fcred f (some pc.ucred) }

/-- `reclaimproc`, as far as the credentials go. -/
def reclaimproc (p : P) (s : System P F A C) : Except Fault (System P F A C) := do
  let a ← deref (s.cred p)
  let pc ← deref (s.pcreds a)
  let s := { s with cred := update s.cred p none }.goto p .user
  if pc.refcnt - 1 = 0 then crfree pc.ucred { s with pcreds := update s.pcreds a none }
  else return { s with pcreds := update s.pcreds a (some { pc with refcnt := pc.refcnt - 1 }) }

/-- The process is in user mode. -/
def running (s : System P F A C) (p : P) : Bool :=
  match s.cred p, s.place p with
  | some _, .user => true
  | _, _ => false

/-- What an event does. Nothing happens where it cannot occur. -/
def exec (s : System P F A C) : Event P F A C → Except Fault (System P F A C)
  | .fork p q => if s.running p ∧ s.cred q = none then s.fork1 p q else .ok s
  | .falloc p f => if s.running p ∧ s.fcred f = none then s.falloc p f else .ok s
  | .ffree f =>
    match s.fcred f with
    | none => .ok s
    | some c => crfree c { s with fcred := update s.fcred f none }
  | .call p call => if s.running p then s.enter p call else .ok s
  | .subproc p a =>
    match s.place p with
    | .subproc call => if s.pcreds a = none then s.subproc p a call else .ok s
    | _ => .ok s
  | .crget p c =>
    match s.place p with
    | .crget call => if s.ucreds c = none then s.crdup p c call else .ok s
    | _ => .ok s
  | .exit p => if s.running p then .ok (s.goto p .zombie) else .ok s
  | .reclaimproc p =>
    match s.place p with
    | .zombie => s.reclaimproc p
    | _ => .ok s

end System

end Bsd386.Kern.Cred

/-!
# Counts and isolation

The two counts are the numbers of references. What a process changes has one reference to it, which
is its own, so that no other process and no file sees the change.
-/

namespace Bsd386.Kern.Cred

open Function

set_option linter.unusedSectionVars false

variable {P F A C : Type}

/-- The fields of the credentials without the counts. -/
def Pcred.fields (pc : Pcred C) : Pcred C := { pc with refcnt := 0 }

@[inherit_doc Pcred.fields]
def Ucred.fields (u : Ucred) : Ucred := { u with ref := 0 }

/-- The effective, the real and the saved user id. -/
def uids (v : Pcred C × Ucred) : List Id := [v.2.uid, v.1.ruid, v.1.svuid]

namespace System

/-- What is seen through the `p_cred` of a process. -/
def seen (s : System P F A C) (p : P) : Option (Pcred C × Ucred) :=
  (s.cred p).bind fun a ↦ (s.pcreds a).bind fun pc ↦ (s.ucreds pc.ucred).map fun u ↦
  (pc.fields, u.fields)

/-- What is seen through the `f_cred` of a file. -/
def fseen (s : System P F A C) (f : F) : Option Ucred :=
  (s.fcred f).bind fun c ↦ (s.ucreds c).map Ucred.fields

/-- The user credentials that the process credentials refer to. -/
def points (s : System P F A C) : A → Option C := Option.map Pcred.ucred ∘ s.pcreds

variable [Fintype P] [Fintype F] [Fintype A] [DecidableEq A] [DecidableEq C]

/-- The number of processes that share the credentials. -/
def sharers (s : System P F A C) (a : A) : ℕ := occurrences s.cred (some a)

/-- The number of references to user credentials. -/
def holders (s : System P F A C) (c : C) : ℕ :=
  occurrences s.points (some c) + occurrences s.fcred (some c) + s.other c

end System

variable {s s' t : System P F A C} {p q : P} {f : F} {a b : A} {c : C} {pc : Pcred C} {u : Ucred}
  {call : Syscall}

theorem Syscall.permitted_fields (call : Syscall) (pc : Pcred C) (u : Ucred) :
    call.permitted pc.fields u.fields = call.permitted pc u := by
  cases call <;> rfl

theorem Syscall.pcred_rest (call : Syscall) (pc : Pcred C) :
    (call.pcred pc).ucred = pc.ucred ∧ (call.pcred pc).refcnt = pc.refcnt := by
  cases call <;> exact ⟨rfl, rfl⟩

theorem Syscall.ucred_ref (call : Syscall) (u : Ucred) : (call.ucred u).ref = u.ref := by
  cases call <;> rfl

/-- A call that is permitted without privilege only moves the user ids around. -/
theorem Syscall.uids_subset (hpermitted : call.permitted pc u = true) (hzero : 0 ∉ uids (pc, u)) :
    uids (call.pcred pc, call.ucred u) ⊆ uids (pc, u) := by
  have hpriv : ∀ minrole, u.usePriv minrole = false := by
    intro minrole
    have hne : u.uid ≠ 0 := fun heq ↦ hzero (List.mem_cons.mpr (.inl heq.symm))
    rw [Ucred.usePriv, decide_eq_false hne, Bool.and_false]
  cases call with
  | setuid uid =>
    have hruid : Syscall.id uid = pc.ruid := by simpa [permitted, hpriv] using hpermitted
    simp [uids, pcred, ucred, hruid]
  | seteuid euid =>
    have heuid : Syscall.id euid = pc.ruid ∨ Syscall.id euid = pc.svuid := by
      simpa [permitted, hpriv] using hpermitted
    rcases heuid with heq | heq <;> simp [uids, pcred, ucred, heq]
  | setgid gid => exact List.Subset.refl _
  | setegid egid => exact List.Subset.refl _
  | setgroups gidset => exact List.Subset.refl _
  | setlogin => exact List.Subset.refl _

theorem seen_eq (ha : s.cred p = some a) (hpc : s.pcreds a = some pc)
    (hu : s.ucreds pc.ucred = some u) :
    s.seen p = some (pc.fields, u.fields) := by
  rw [System.seen, ha, Option.bind_some, hpc, Option.bind_some, hu, Option.map_some]

theorem points_eq (hpc : s.pcreds a = some pc) : s.points a = some pc.ucred := by
  rw [System.points, comp_apply, hpc, Option.map_some]

variable [Fintype P] [Fintype F] [Fintype A] [DecidableEq A] [DecidableEq C]

/-- The counts are the numbers of references. -/
structure Counts (s : System P F A C) : Prop where
  pcreds : Counted Pcred.refcnt s.sharers s.pcreds
  ucreds : Counted Ucred.ref s.holders s.ucreds
  bound : ∀ c, s.holders c ≤ ushrtMax

/-- Nothing changes for the processes but some, and for the files. -/
structure Apart (x : P → Prop) (s s' : System P F A C) : Prop where
  cred : ∀ q, ¬x q → s'.cred q = s.cred q
  place : ∀ q, ¬x q → s'.place q = s.place q
  seen : ∀ q, ¬x q → s'.seen q = s.seen q
  own : ∀ q a, ¬x q → s.place q ≠ .user → s.cred q = some a → s.sharers a = 1 → s'.sharers a = 1
  fseen : ∀ f c, s.fcred f = some c → s'.fcred f = none ∨ s'.fcred f = some c ∧
    s'.fseen f = s.fseen f

theorem Apart.refl (x : P → Prop) (s : System P F A C) : Apart x s s :=
  ⟨fun _ _ ↦ rfl, fun _ _ ↦ rfl, fun _ _ ↦ rfl, fun _ _ _ _ _ ↦ id, fun _ _ h ↦ .inr ⟨h, rfl⟩⟩

theorem Apart.trans {x : P → Prop} (h : Apart x s s') (h' : Apart x s' t)
    (hfiles : ∀ f, s'.fcred f = none → t.fcred f = none) : Apart x s t := by
  refine ⟨fun q hq ↦ (h'.cred q hq).trans (h.cred q hq),
    fun q hq ↦ (h'.place q hq).trans (h.place q hq),
    fun q hq ↦ (h'.seen q hq).trans (h.seen q hq), fun q a hq hplace ha hone ↦ ?_,
    fun f c hf ↦ ?_⟩
  · have hplace' := (h.place q hq).trans_ne hplace
    exact h'.own q a hq hplace' ((h.cred q hq).trans ha) (h.own q a hq hplace ha hone)
  · rcases h.fseen f c hf with hnone | ⟨hsame, hseen⟩
    · exact .inl (hfiles f hnone)
    · rcases h'.fseen f c hsame with hnone | ⟨hsame', hseen'⟩
      · exact .inl hnone
      · exact .inr ⟨hsame', hseen'.trans hseen⟩

/-- What a process refers to is there. -/
theorem Counts.get (h : Counts s) (ha : s.cred p = some a) :
    ∃ pc u, s.pcreds a = some pc ∧ s.ucreds pc.ucred = some u ∧ pc.refcnt = s.sharers a ∧
      u.ref = s.holders pc.ucred := by
  obtain ⟨pc, hpc, hrefcnt⟩ := h.pcreds.get (b := a) (occurrences_pos ha).ne'
  have hpos : 0 < s.holders pc.ucred := by
    have hpoints := occurrences_pos (points_eq hpc)
    rw [System.holders]
    omega
  obtain ⟨u, hu, href⟩ := h.ucreds.get hpos.ne'
  exact ⟨pc, u, hpc, hu, hrefcnt, href⟩

theorem eq_of_sharers (hone : s.sharers a = 1) (hp : s.cred p = some a) (hq : s.cred q = some a) :
    p = q :=
  eq_of_occurrences_le_one hone.le hp hq

/-- Only the process credentials refer to user credentials with one reference. -/
theorem eq_of_holders (hone : s.holders c = 1) (ha : s.points a = some c) :
    (∀ b, s.points b = some c → b = a) ∧ ∀ f, s.fcred f ≠ some c := by
  have hpos := occurrences_pos ha
  rw [System.holders] at hone
  refine ⟨fun b hb ↦ eq_of_occurrences_le_one (by omega) hb ha, fun f hf ↦ ?_⟩
  have hfile := occurrences_pos hf
  omega

/-- What another process sees does not depend on what is changed. -/
theorem seen_congr (hcred : s'.cred q = s.cred q)
    (hpcred : ∀ a, s.cred q = some a →
    (s'.pcreds a).map Pcred.fields = (s.pcreds a).map Pcred.fields)
    (hucred : ∀ a pc, s.cred q = some a → s.pcreds a = some pc →
      (s'.ucreds pc.ucred).map Ucred.fields = (s.ucreds pc.ucred).map Ucred.fields) :
    s'.seen q = s.seen q := by
  rw [System.seen, System.seen, hcred]
  cases ha : s.cred q with
  | none => rfl
  | some a =>
    have hp := hpcred a ha
    rw [Option.bind_some, Option.bind_some]
    cases hpc : s.pcreds a with
    | none =>
      rw [hpc, Option.map_none, Option.map_eq_none_iff] at hp
      rw [hp]
      rfl
    | some pc =>
      rw [hpc, Option.map_some, Option.map_eq_some_iff] at hp
      obtain ⟨pc', hpc', hfields⟩ := hp
      have hptr : pc'.fields.ucred = pc.fields.ucred := congrArg Pcred.ucred hfields
      change pc'.ucred = pc.ucred at hptr
      have hu := hucred a pc ha hpc
      rw [hpc', Option.bind_some, Option.bind_some, hptr, hfields]
      cases hu' : s.ucreds pc.ucred with
      | none =>
        rw [hu', Option.map_none, Option.map_eq_none_iff] at hu
        rw [hu]
      | some u =>
        rw [hu', Option.map_some, Option.map_eq_some_iff] at hu
        obtain ⟨u', hu₂, hufields⟩ := hu
        rw [hu₂, Option.map_some, Option.map_some, hufields]

end Bsd386.Kern.Cred
