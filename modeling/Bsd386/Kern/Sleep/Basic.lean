import Mathlib.Data.Fintype.Card
import Bsd386.Kern.Fault
import Bsd386.Lib.Cells
import Bsd386.Lib.Linked

/-!
# Sleeping, waking and stopping

The sleep queues of `kern/synch.c`, the run queues that share their links, and the signals of
`kern/sig.c` that stop and continue a process. One process runs at a time, and control goes over
where it calls `swtch`. What happens at interrupt level comes between two steps of the process; a
step goes as far as interrupts are blocked. No process is traced. Priorities matter for the run
queues alone, so that their decay and the requests to reschedule are left out.
-/

namespace Bsd386.Kern.Sleep

open Function

/-- The values of `p_stat`. -/
inductive Stat
  | ssleep
  | srun
  | sidl
  | szomb
  | sstop
  deriving DecidableEq

/-- What `p_link`, `p_rlink` and the links of a run queue point to. -/
inductive Node (P : Type) where
  | proc (p : P)
  | header (i : Fin 32)
  deriving DecidableEq

/-- The pointers that a sleep queue consists of. -/
inductive Cell (P : Type) where
  | head (h : Fin 64)
  | link (p : P)
  deriving DecidableEq

/-! ### Signals -/

/-- The number of a signal; zero is none. -/
abbrev Sig : Type := Fin 32

/-- A set of signals. -/
abbrev Sigset : Type := Sig → Bool

/-- An entry of `ps_sigact`. -/
inductive Action
  | sigDfl
  | sigIgn
  | handler
  deriving DecidableEq

/-- The values of `action` in `psignal`. -/
inductive Reaction
  | sigHold
  | sigCatch
  | sigDfl
  deriving DecidableEq

/-- `PUSER`. -/
def puser : Fin 128 := 50

/-- `PSOCK`. -/
def psock : Fin 128 := 24

def nosig : Sig := 0
def sigkill : Sig := 9
def sigterm : Sig := 15
def sigstop : Sig := 17
def sigcont : Sig := 19
def sigchld : Sig := 20

def saStop : ℕ := 0x04
def saTtystop : ℕ := 0x08 ||| saStop
def saIgnore : ℕ := 0x10
def saCont : ℕ := 0x20

/-- `sigprop`. -/
def sigprop (sig : Sig) : ℕ :=
  [0, 1, 1, 3, 3, 3, 3, 3, 3, 1, 3, 3, 3, 1, 1, 1, 0x10, 0x04, 0x0c, 0x30, 0x10, 0x0c, 0x0c,
  0x10, 1, 1,
    1, 1, 0x10, 0x10, 1, 1].getD sig 0

/-- The signal has one of the properties. -/
def Sig.has (sig : Sig) (prop : ℕ) : Bool := sigprop sig &&& prop ≠ 0

/-- `stopsigmask`. -/
def stopsigmask : Sigset := fun sig ↦ sig = 17 ∨ sig = 18 ∨ sig = 21 ∨ sig = 22

/-- `contsigmask`. -/
def contsigmask : Sigset := fun sig ↦ sig = sigcont

/-- `sigcantmask`. -/
def sigcantmask : Sigset := fun sig ↦ sig = sigkill ∨ sig = sigstop

/-- The signals of one set that are not in another. -/
def Sigset.without (m n : Sigset) : Sigset := fun sig ↦ m sig && !n sig

/-- `ffs`. -/
def ffs (m : Sigset) : Option Sig := (List.finRange 32).find? m

/-! ### Processes -/

/-- What is used here of `struct proc` besides the two links, and of its `struct sigacts`. -/
structure Proc (P : Type) where
  stat : Stat
  wchan : ℕ
  pri : Fin 128
  nice : ℤ
  sload : Bool
  ssys : Bool
  ssintr : Bool
  sppwait : Bool
  swexit : Bool
  stimo : Bool
  snocldstop : Bool
  sig : Sigset
  sigmask : Sigset
  sigignore : Sigset
  sigcatch : Sigset
  sigact : Sig → Action
  sigintr : Sigset
  stopsig : Sig
  pptr : P
  pgrp : ℕ

/-- The variables of `tsleep`; `timo` is whether there is a timeout. -/
structure Frame where
  chan : ℕ
  pcatch : Bool
  timo : Bool
  sig : Option Sig

/-- Where a process is in `issig`: at the top of the loop, before the `swtch` in `stop`, or behind
it. -/
inductive Issig
  | top
  | swtch (sig : Sig)
  | clear (sig : Sig)

/-- Where a process is: outside, in `issig` called from outside, in the first `CURSIG` of `tsleep`,
behind the sleep, behind the lines there that clear the flag `SSINTR`, before `untimeout`, at the
last `if`, and in the `CURSIG` of it. -/
inductive Pc
  | out
  | user (i : Issig)
  | before (i : Issig) (f : Frame)
  | woken (f : Frame)
  | timed (f : Frame)
  | cancel (f : Frame)
  | last (f : Frame)
  | after (i : Issig) (f : Frame)

/-- What `tsleep` or `CURSIG` has returned. -/
inductive Value
  | zero
  | ewouldblock
  | eintr
  | erestart
  | signal (sig : Sig)

/-- The processes and the queues. `links` are `p_link` and `p_rlink` with the links of the run
queues, `addr` is the address of a process as a channel, `callouts` are the arguments of the pending
calls of `endtsleep`, and `jobc` is `pg_jobc`. -/
structure System (P : Type) where
  proc : P → Proc P
  links : Links (Node P)
  sqHead : Fin 64 → Option (Node P)
  sqTailp : Fin 64 → Option (Cell P)
  whichqs : Fin 32 → Bool
  callouts : List P
  curproc : Option P
  pc : P → Pc
  value : P → Value
  addr : P → ℕ
  jobc : ℕ → ℤ

/-- `HASH`. -/
def hash (chan : ℕ) : Fin 64 := ⟨chan / 32 % 64, Nat.mod_lt _ (by decide)⟩

variable {P : Type}

/-- What `psignal` takes for the action of a process. -/
def Proc.reaction (q : Proc P) (sig : Sig) : Reaction :=
  if q.sigmask sig then .sigHold else if q.sigcatch sig then .sigCatch else .sigDfl

/-- The signals that `issig` looks at. -/
def Proc.mask (q : Proc P) : Sigset :=
  let mask := q.sig.without q.sigmask
  if q.sppwait then mask.without stopsigmask else mask

/-- What `tsleep` returns for a signal. -/
def Proc.interrupted (q : Proc P) (sig : Sig) : Value := if q.sigintr sig then .eintr else .erestart

variable [DecidableEq P]

namespace System

/-- Change a process. -/
def modify (s : System P) (p : P) (f : Proc P → Proc P) : System P :=
  { s with proc := update s.proc p (f (s.proc p)) }

/-- Go on elsewhere. -/
def goto (s : System P) (p : P) (pc : Pc) : System P := { s with pc := update s.pc p pc }

/-- Return a value. -/
def ret (s : System P) (p : P) (value : Value) : System P :=
  { s with pc := update s.pc p .out, value := update s.value p value }

/-- `p_sig &= ~bit`. -/
def clear (s : System P) (p : P) (sig : Sig) : System P :=
  s.modify p fun q ↦ { q with sig := update q.sig sig false }

/-! ### Run queues -/

/-- The run queue of a process. -/
def rqidx (s : System P) (p : P) : Fin 32 := ⟨(s.proc p).pri / 4, by omega⟩

/-- `setrq`. -/
def setrq (p : P) (s : System P) : Except Fault (System P) :=
  let ph := .header (s.rqidx p)
  if s.links.prev (.proc p) ≠ none then .error (.panic "setrq: already linked")
  else do
    let last ← deref (s.links.prev ph)
    return { s with
      links :=
        { next := update (update s.links.next (.proc p) (some ph)) last (some (.proc p))
          prev := update (update s.links.prev (.proc p) (some last)) ph (some (.proc p)) }
      whichqs := update s.whichqs (s.rqidx p) true }

/-- `swtch`, or one turn of the idle loop where no process is ready. -/
def swtch (s : System P) : Except Fault (System P) :=
  match (List.finRange 32).find? s.whichqs with
  | none => .ok s
  | some i => do
    let first ← deref (s.links.next (.header i))
    match first with
    | .header _ => .error (.panic "swtch")
    | .proc p =>
      let next ← deref (s.links.next (.proc p))
      if (s.proc p).wchan ≠ 0 ∨ (s.proc p).stat ≠ .srun then .error (.panic "swtch")
      else
        return { s with
          links :=
            { next := update s.links.next (.header i) (some next)
              prev := update (update s.links.prev next (s.links.prev (.proc p))) (.proc p) none }
          whichqs := update s.whichqs i (next ≠ .header i)
          curproc := some p }

/-! ### Sleep queues -/

/-- What a pointer of a sleep queue holds. -/
def load (s : System P) : Cell P → Option (Node P)
  | .head h => s.sqHead h
  | .link p => s.links.next (.proc p)

/-- Write a pointer of a sleep queue. -/
def store (s : System P) (cell : Cell P) (value : Option (Node P)) : System P :=
  match cell with
  | .head h => { s with sqHead := update s.sqHead h value }
  | .link p => { s with links := { s.links with next := update s.links.next (.proc p) value } }

/-- Put a process behind the others that sleep. -/
def enqueue (p : P) (h : Fin 64) (s : System P) : Except Fault (System P) := do
  let cell ← if s.sqHead h = none then .ok (.head h) else deref (s.sqTailp h)
  let s := s.store cell (some (.proc p))
  return { s.store (.link p) none with sqTailp := update s.sqTailp h (some (.link p)) }

/-- Take the process that a pointer of a sleep queue holds out of the queue. -/
def dequeue (p : P) (h : Fin 64) (hp : Cell P) (s : System P) : System P :=
  let t := (s.store hp (s.load (.link p))).modify p fun q ↦ { q with wchan := 0 }
  if s.sqTailp h = some (.link p) then { t with sqTailp := update s.sqTailp h (some hp) } else t

/-- The loop of `unsleep`, with at most `fuel` turns. -/
def unsleepLoop (p : P) (s : System P) : ℕ → Cell P → Except Fault (Cell P)
  | 0, _ => .error .endless
  | fuel + 1, hp =>
    if s.load hp = some (.proc p) then .ok hp
    else do
      match ← deref (s.load hp) with
      | .header _ => .error .wildPointer
      | .proc q => unsleepLoop p s fuel (.link q)

variable [Fintype P]

/-- `unsleep`. -/
def unsleep (p : P) (s : System P) : Except Fault (System P) :=
  if (s.proc p).wchan = 0 then .ok s
  else do
    let hp ← unsleepLoop p s (Fintype.card P + 1) (.head (hash (s.proc p).wchan))
    return s.dequeue p (hash (s.proc p).wchan) hp

/-- The end of `setrun`, which `wakeup` has as well. -/
def run (p : P) (s : System P) : Except Fault (System P) :=
  let s := s.modify p fun q ↦ { q with stat := .srun }
  if (s.proc p).sload then s.setrq p else .ok s

/-- The loop of `wakeup`, with at most `fuel` turns. -/
def wakeupLoop (chan : ℕ) : ℕ → Cell P → System P → Except Fault (System P)
  | 0, _, _ => .error .endless
  | fuel + 1, q, s =>
    match s.load q with
    | none => .ok s
    | some (.header _) => .error .wildPointer
    | some (.proc p) =>
      if s.links.prev (.proc p) ≠ none ∨ (s.proc p).stat ≠ .ssleep ∧ (s.proc p).stat ≠ .sstop then
        .error (.panic "wakeup")
      else if (s.proc p).wchan = chan then
        if (s.proc p).stat = .ssleep then do
          wakeupLoop chan fuel (.head (hash chan)) (← run p (s.dequeue p (hash chan) q))
        else wakeupLoop chan fuel q (s.dequeue p (hash chan) q)
      else wakeupLoop chan fuel (.link p) s

/-- `wakeup`. -/
def wakeup (chan : ℕ) (s : System P) : Except Fault (System P) :=
  wakeupLoop chan ((Fintype.card P + 1) * (Fintype.card P + 1)) (.head (hash chan)) s

/-- `setrun`. -/
def setrun (p : P) (s : System P) : Except Fault (System P) :=
  match (s.proc p).stat with
  | .sstop | .ssleep => do run p (← unsleep p s)
  | .sidl => run p s
  | _ => .error (.panic "setrun")

/-- `endtsleep`. -/
def endtsleep (p : P) (s : System P) : Except Fault (System P) :=
  if (s.proc p).wchan = 0 then .ok s
  else do
    let s ← if (s.proc p).stat = .ssleep then setrun p s else unsleep p s
    return s.modify p fun q ↦ { q with stimo := true }

/-! ### Signals -/

/-- `psignal` from `runfast` on. -/
def runfast (p : P) (s : System P) : Except Fault (System P) :=
  setrun p (s.modify p fun q ↦ { q with pri := min q.pri puser })

/-- The `switch` of `psignal`, where `stop` is what stops a process. -/
def react (stop : P → Sig → System P → Except Fault (System P)) (p : P) (sig : Sig)
    (action : Reaction)
    (s : System P) : Except Fault (System P) :=
  match (s.proc p).stat with
  | .ssleep =>
    if (s.proc p).ssintr = false then .ok s
    else if sig.has saCont ∧ action = .sigDfl then .ok (s.clear p sig)
    else if sig.has saStop ∧ action = .sigDfl then stop p sig (s.clear p sig)
    else runfast p s
  | .sstop =>
    if sig = sigkill then runfast p s
    else if sig.has saCont then
      let s := if action = .sigDfl then s.clear p sig else s
      if action = .sigCatch then runfast p s
      else if (s.proc p).wchan = 0 then setrun p s
      else .ok (s.modify p fun q ↦ { q with stat := .ssleep })
    else if sig.has saStop then .ok (s.clear p sig)
    else if (s.proc p).wchan ≠ 0 ∧ (s.proc p).ssintr then unsleep p s
    else .ok s
  | _ => .ok s

/-- `psignal`, where `stop` is what stops a process. -/
def psignalWith (stop : P → Sig → System P → Except Fault (System P)) (p : P) (sig : Sig)
    (s : System P) : Except Fault (System P) :=
  let action := (s.proc p).reaction sig
  if sig = nosig then .error (.panic "psignal sig")
  else if (s.proc p).sigignore sig then .ok s
  else
    let s := if 0 < (s.proc p).nice ∧ (sig = sigkill ∨ sig = sigterm ∧ action = .sigDfl) then
        s.modify p fun q ↦ { q with nice := 0 }
      else s
    let s := if sig.has saCont then
        s.modify p fun q ↦ { q with sig := q.sig.without stopsigmask }
      else s
    if sig.has saStop ∧ sig.has saTtystop ∧ s.jobc (s.proc p).pgrp = 0 ∧ action = .sigDfl then .ok s
    else
      let s := if sig.has saStop then
          s.modify p fun q ↦ { q with sig := q.sig.without contsigmask }
        else s
      let s := s.modify p fun q ↦ { q with sig := update q.sig sig true }
      if action = .sigHold ∧ (sig.has saCont = false ∨ (s.proc p).stat ≠ .sstop) then .ok s
      else react stop p sig action s

/-- The signal that `stop` has for the parent, which stops nothing. -/
def signalParent (p : P) (s : System P) : Except Fault (System P) :=
  if (s.proc (s.proc p).pptr).snocldstop then .ok s
  else psignalWith (fun _ _ _ ↦ .error .endless) (s.proc p).pptr sigchld s

/-- `stop`, without the `swtch` at its end. -/
def stop (p : P) (sig : Sig) (s : System P) : Except Fault (System P) :=
  if (s.proc p).sppwait then .ok s
  else do
    let s ← signalParent p s
    let s := s.modify p fun q ↦ { q with stat := .sstop }
    let s ← wakeup (s.addr (s.proc p).pptr) s
    return s.modify p fun q ↦ { q with stopsig := sig }

/-- `psignal`. -/
def psignal (p : P) (sig : Sig) (s : System P) : Except Fault (System P) := psignalWith stop p sig s

/-- What a turn of the loop of `issig` comes to. -/
inductive Turn
  | again
  | done (sig : Option Sig)
  | stopped (sig : Sig)

/-- A turn of the loop of `issig`, up to the `swtch` if it stops the process. -/
def issigTurn (p : P) (s : System P) : Except Fault (Turn × System P) :=
  match ffs (s.proc p).mask with
  | none => .ok (.done none, s)
  | some sig =>
    if (s.proc p).sigignore sig then .ok (.again, s.clear p sig)
    else
      match (s.proc p).sigact sig with
      | .sigDfl =>
        if (s.proc p).ssys then .ok (.again, s.clear p sig)
        else if sig.has saStop then
          if s.jobc (s.proc p).pgrp = 0 ∧ sig.has saTtystop then .ok (.again, s.clear p sig)
          else if (s.proc p).sppwait then .ok (.again, s.clear p sig)
          else do return (.stopped sig, ← stop p sig s)
        else if sig.has saIgnore then .ok (.again, s.clear p sig)
        else .ok (.done (some sig), s)
      | .sigIgn => .ok (.again, s.clear p sig)
      | .handler => .ok (.done (some sig), s)

/-- `issig` with interrupts blocked, until it returns or stops, with at most `fuel` turns. -/
def issigHigh (p : P) : ℕ → System P → Except Fault (Turn × System P)
  | 0, _ => .error .endless
  | fuel + 1, s => do
    match ← issigTurn p s with
    | (.again, s) => issigHigh p fuel s
    | result => return result

/-! ### Sleeping -/

/-- `tsleep` with the result of the first `CURSIG`. -/
def checked (p : P) (f : Frame) (sig : Option Sig) (s : System P) : Except Fault (System P) :=
  match sig with
  | some sig => do
    let s ← unsleep p s
    return (s.modify p fun q ↦ { q with stat := .srun }).goto p (.woken { f with sig := some sig })
  | none =>
    if (s.proc p).wchan = 0 then .ok (s.goto p (.woken { f with pcatch := false }))
    else
      .ok { (s.modify p fun q ↦ { q with stat := .ssleep }).goto p (.woken f) with curproc := none }

/-- `tsleep` as far as interrupts are blocked. -/
def tsleep (p : P) (chan : ℕ) (pri : Fin 128) (pcatch timo : Bool) (s : System P) :
    Except Fault (System P) :=
  let f := ⟨chan, pcatch, timo, none⟩
  if chan = 0 ∨ (s.proc p).stat ≠ .srun ∨ s.links.prev (.proc p) ≠ none then
    .error (.panic "tsleep")
  else do
    let s := s.modify p fun q ↦ { q with wchan := chan, pri := pri }
    let s ← enqueue p (hash chan) s
    let s := if timo then { s with callouts := p :: s.callouts } else s
    if pcatch then
      match ← issigHigh p 33 (s.modify p fun q ↦ { q with ssintr := true }) with
      | (.stopped sig, s) => return { s.goto p (.before (.clear sig) f) with curproc := none }
      | (.done sig, s) => checked p f sig s
      | (.again, s) => .ok s
    else
      return { (s.modify p fun q ↦ { q with stat := .ssleep }).goto p (.woken f) with
        curproc := none }

/-- A step in `issig`, called at `pc`, with what happens when it returns. -/
def issigStep (p : P) (pc : Issig → Pc) (i : Issig)
    (returned : Option Sig → System P → Except Fault (System P)) (s : System P) :
    Except Fault (System P) :=
  match i with
  | .top => do
    match ← issigTurn p s with
    | (.again, s) => .ok s
    | (.done sig, s) => returned sig s
    | (.stopped sig, s) => .ok (s.goto p (pc (.swtch sig)))
  | .swtch sig => .ok { s.goto p (pc (.clear sig)) with curproc := none }
  | .clear sig => .ok ((s.clear p sig).goto p (pc .top))

/-- The next step of the process that runs. -/
def step (p : P) (s : System P) : Except Fault (System P) :=
  match s.pc p with
  | .out => .ok s
  | .user i => issigStep p .user i (fun sig s ↦ .ok (s.ret p (sig.elim .zero .signal))) s
  | .before i f => issigStep p (.before · f) i (checked p f) s
  | .woken f => .ok ((s.modify p fun q ↦ { q with ssintr := false }).goto p (.timed f))
  | .timed f =>
    if (s.proc p).stimo then
      let s := s.modify p fun q ↦ { q with stimo := false }
      if f.pcatch = false ∨ f.sig = none then .ok (s.ret p .ewouldblock)
      else .ok (s.goto p (.last f))
    else .ok (s.goto p (if f.timo then .cancel f else .last f))
  | .cancel f => .ok ({ s with callouts := s.callouts.erase p }.goto p (.last f))
  | .last f =>
    if f.pcatch then
      match f.sig with
      | some sig => .ok (s.ret p ((s.proc p).interrupted sig))
      | none => .ok (s.goto p (.after .top f))
    else .ok (s.ret p .zero)
  | .after i f =>
    issigStep p (.after · f) i
      (fun sig s ↦ .ok (s.ret p (sig.elim .zero (s.proc p).interrupted))) s

end System

end Bsd386.Kern.Sleep
