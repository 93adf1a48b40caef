import Bsd386.Kern.Sleep.Signals

/-!
# Runs

The process that runs takes its next step, calls `tsleep`, looks at its signals or changes what they
do, and gives up the processor; everything else may happen between any two of its steps.
-/

namespace Bsd386.Kern.Sleep

open Function

variable {P : Type}

/-- The argument `how` of `sigprocmask`. -/
inductive How
  | sigBlock
  | sigUnblock
  | sigSetmask

/-- What happens. `wakeup`, `psignal`, `setrun` and `unsleep` are called from anywhere, and
`endtsleep` when a timeout expires. `exiting` is the beginning of `exit`, where all signals become
ignored. `relate` and `setJobc` change the parent and the group of a process and the count of a
group, and `vfork` and `release` set the flag `SPPWAIT` of a new process and clear it again. -/
inductive Event (P : Type) where
  | tsleep (chan : ℕ) (pri : Fin 128) (pcatch timo : Bool)
  | step
  | cursig
  | psig (sig : Sig) (catchmask : Sigset)
  | sigaction (sig : Sig) (act : Action) (intr nocldstop : Bool)
  | sigprocmask (how : How) (mask : Sigset)
  | sigsuspend (mask : Sigset)
  | qswtch (usrpri : Fin 128)
  | exiting
  | exit
  | swtch
  | wakeup (chan : ℕ)
  | psignal (p : P) (sig : Sig)
  | setrun (p : P)
  | unsleep (p : P)
  | endtsleep (p : P)
  | relate (p pptr : P) (pgrp : ℕ)
  | vfork (p : P)
  | release
  | setJobc (pgrp : ℕ) (n : ℤ)

namespace Proc

/-- `sigaction` with a new action. The two signals that cannot be caught are refused, and a process
that exits makes no system call. -/
def sigaction (sig : Sig) (act : Action) (intr nocldstop : Bool) (q : Proc P) : Proc P :=
  if sig = nosig ∨ sigcantmask sig ∨ q.swexit then q
  else
    let q := { q with
      sigact := update q.sigact sig act
      sigintr := update q.sigintr sig intr
      snocldstop := if sig = sigchld then nocldstop else q.snocldstop }
    if act = .sigIgn ∨ sig.has saIgnore ∧ act = .sigDfl then
      { q with
        sig := update q.sig sig false
        sigignore := if sig ≠ sigcont then update q.sigignore sig true else q.sigignore
        sigcatch := update q.sigcatch sig false }
    else
      { q with
        sigignore := update q.sigignore sig false
        sigcatch := update q.sigcatch sig (act ≠ .sigDfl) }

/-- `sigprocmask`. -/
def sigprocmask (how : How) (mask : Sigset) (q : Proc P) : Proc P :=
  { q with sigmask := match how with
    | .sigBlock => fun sig ↦ q.sigmask sig || mask.without sigcantmask sig
    | .sigUnblock => q.sigmask.without mask
    | .sigSetmask => mask.without sigcantmask }

/-- `sigsuspend`, before it calls `tsleep`. -/
def sigsuspend (mask : Sigset) (q : Proc P) : Proc P :=
  { q with sigmask := mask.without sigcantmask }

/-- `psig` of a signal, with the mask that its action has. -/
def psig (sig : Sig) (catchmask : Sigset) (q : Proc P) : Proc P :=
  { q with
    sig := update q.sig sig false
    sigmask := if q.sigact sig = .handler then
        fun k ↦ q.sigmask k || catchmask.without sigcantmask k || k = sig
      else q.sigmask }

/-- The beginning of `exit`. -/
def exiting (q : Proc P) : Proc P :=
  { q with ssys := true, swexit := true, sigignore := fun _ ↦ true, sig := fun _ ↦ false }

end Proc

namespace System

/-- The process that runs, if it is outside `tsleep` and `issig`. -/
def outside (s : System P) : Option P :=
  match s.curproc with
  | none => none
  | some p =>
    match s.pc p with
    | .out => some p
    | _ => none

variable [DecidableEq P] [Fintype P]

/-- A change of the process that runs outside `tsleep`. -/
def change (s : System P) (f : Proc P → Proc P) : Except Fault (System P) :=
  match s.outside with
  | none => .ok s
  | some p => .ok (s.modify p f)

/-- `qswtch` on the way back to the user, with the priority of the user. -/
def qswtch (p : P) (usrpri : Fin 128) (s : System P) : Except Fault (System P) := do
  let s ← setrq p (s.modify p fun q ↦ { q with pri := usrpri })
  return { s with curproc := none }

/-- What an event does. Nothing happens where no process can do it. -/
def exec (s : System P) : Event P → Except Fault (System P)
  | .tsleep chan pri pcatch timo =>
    match s.outside with
    | none => .ok s
    | some p => s.tsleep p chan pri pcatch timo
  | .step =>
    match s.curproc with
    | none => .ok s
    | some p => s.step p
  | .cursig =>
    match s.outside with
    | none => .ok s
    | some p => .ok (s.goto p (.user .top))
  | .psig sig catchmask => s.change (.psig sig catchmask)
  | .sigaction sig act intr nocldstop => s.change (.sigaction sig act intr nocldstop)
  | .sigprocmask how mask => s.change (.sigprocmask how mask)
  | .sigsuspend mask => s.change (.sigsuspend mask)
  | .qswtch usrpri =>
    match s.outside with
    | none => .ok s
    | some p => s.qswtch p usrpri
  | .exiting => s.change .exiting
  | .exit =>
    match s.outside with
    | none => .ok s
    | some p => .ok { s.modify p fun q ↦ { q with stat := .szomb } with curproc := none }
  | .swtch => if s.curproc = none then s.swtch else .ok s
  | .wakeup chan => s.wakeup chan
  | .psignal p sig => s.psignal p sig
  | .setrun p => s.setrun p
  | .unsleep p => s.unsleep p
  | .endtsleep p =>
    if p ∈ s.callouts then { s with callouts := s.callouts.erase p }.endtsleep p else .ok s
  | .relate p pptr pgrp =>
    if p = pptr then .ok s else .ok (s.modify p fun q ↦ { q with pptr := pptr, pgrp := pgrp })
  | .vfork p =>
    if (s.proc p).stat = .sidl then .ok (s.modify p fun q ↦ { q with sppwait := true }) else .ok s
  | .release => s.change fun q ↦ { q with sppwait := false }
  | .setJobc pgrp n => .ok { s with jobc := update s.jobc pgrp n }

end System

/-- The system after `rqinit`, with one process that runs and others that are still to be made. No
process is its own parent, no signal is pending, and `SIGCONT` is not ignored. -/
structure Initial (s : System P) : Prop where
  sqHead : ∀ h, s.sqHead h = none
  sqTailp : ∀ h, s.sqTailp h = none
  headers : ∀ i, s.links.next (.header i) = some (.header i) ∧
    s.links.prev (.header i) = some (.header i)
  prev : ∀ p, s.links.prev (.proc p) = none
  whichqs : ∀ i, s.whichqs i = false
  callouts : s.callouts = []
  pc : ∀ p, s.pc p = .out
  proc : ∀ p, (s.proc p).wchan = 0 ∧ (s.proc p).stimo = false ∧ (s.proc p).ssintr = false ∧
    (s.proc p).pptr ≠ p
  signals : ∀ p, (∀ sig, (s.proc p).sig sig = false) ∧ (s.proc p).sigignore sigcont = false ∧
    (s.proc p).swexit = false
  running : ∀ p, s.curproc = some p → (s.proc p).stat = .srun
  idle : ∀ p, s.curproc ≠ some p → (s.proc p).stat = .sidl

/-- The states that are reached when each event meets a condition. -/
inductive Reach [DecidableEq P] [Fintype P] (allowed : System P → Event P → Prop) : System P → Prop
  | start {s : System P} (hinit : Initial s) : Reach allowed s
  | step {s s' : System P} {e : Event P} (hreach : Reach allowed s) (hallowed : allowed s e)
    (hexec : s.exec e = .ok s') : Reach allowed s'

/-! ### What the state is like between two events -/

/-- The process is in `stop`, before it calls `swtch`. -/
def Pc.Stopping : Pc → Prop
  | .user (.swtch _) | .before (.swtch _) _ | .after (.swtch _) _ => True
  | _ => False

/-- The process may be on a sleep queue. -/
def Pc.Sleeping : Pc → Prop
  | .before (.clear _) _ | .woken _ => True
  | _ => False

/-- A call of `endtsleep` may be pending for the process. -/
def Pc.Timed : Pc → Prop
  | .before _ f | .woken f | .timed f | .cancel f => f.timo = true
  | _ => False

/-- The flag `STIMO` may be set. -/
def Pc.Expired : Pc → Prop
  | .before _ _ | .woken _ | .timed _ => True
  | _ => False

/-- What holds of a process. -/
structure Local (s : System P) (p : P) : Prop where
  waits : (s.proc p).wchan ≠ 0 → (s.proc p).Waits
  sleeping : (s.proc p).wchan ≠ 0 → (s.pc p).Sleeping
  pending : p ∈ s.callouts → (s.pc p).Timed ∧ (s.proc p).stimo = false
  expired : (s.proc p).stimo = true → (s.pc p).Expired
  parent : (s.proc p).pptr ≠ p

/-- The process that runs is on no queue, or has just stopped. -/
structure Runs (s : System P) (p : P) : Prop where
  wchan : (s.proc p).wchan = 0
  running : (s.proc p).stat = .srun ∧ s.links.prev (.proc p) = none ∨ (s.pc p).Stopping

/-- The queues and all processes are in order. -/
structure Sound (s : System P) : Prop where
  queued : Queued s
  proc : ∀ p, Local s p
  once : s.callouts.Nodup
  current : ∀ p, s.curproc = some p → Runs s p

theorem Sound.waits {s : System P} (hsound : Sound s) (r : P) (hr : (s.proc r).wchan ≠ 0) :
    (s.proc r).Waits :=
  (hsound.proc r).waits hr

/-- The queues are empty at first. -/
theorem Initial.sound [DecidableEq P] {s : System P} (hinit : Initial s) : Sound s := by
  have hzero : ∀ p, (s.proc p).wchan = 0 := fun p ↦ (hinit.proc p).1
  refine ⟨⟨fun _ ↦ [], fun _ ↦ [], fun h ↦ hinit.sqHead h, fun p h ↦ ?_, fun _ ↦ List.nodup_nil,
    fun h ↦ .inr ⟨rfl, hinit.sqTailp h⟩, fun i ↦ ⟨List.nodup_singleton _, ?_⟩, fun p ↦ ?_,
    fun i ↦ ?_,
    fun p i hp ↦ absurd hp List.not_mem_nil, fun p i hp ↦ absurd hp List.not_mem_nil⟩, fun p ↦
    ?_, ?_,
    fun p hp ↦ ⟨hzero p, .inl ⟨?_, hinit.prev p⟩⟩⟩
  · exact iff_of_false List.not_mem_nil fun h ↦ h.1 (hzero p)
  · exact List.isChain_cons_cons.mpr ⟨hinit.headers i, List.isChain_singleton _⟩
  · refine iff_of_false ?_ (not_not_intro (hinit.prev p))
    rintro ⟨i, hi⟩
    cases hi
  · rw [hinit.whichqs i]
    exact iff_of_false Bool.false_ne_true (not_not_intro rfl)
  · refine ⟨fun h ↦ absurd (hzero p) h, fun h ↦ absurd (hzero p) h, fun h ↦ ?_, fun h ↦ ?_,
      (hinit.proc p).2.2.2⟩
    · rw [hinit.callouts] at h
      cases h
    · rw [(hinit.proc p).2.1] at h
      cases h
  · rw [hinit.callouts]
    exact List.nodup_nil
  · exact hinit.running p hp

end Bsd386.Kern.Sleep
