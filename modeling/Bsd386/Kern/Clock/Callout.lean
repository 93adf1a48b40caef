import Mathlib.Algebra.GroupWithZero.Nat
import Mathlib.Algebra.Ring.Int.Defs
import Mathlib.Data.List.Count
import Bsd386.Kern.Fault
import Bsd386.Lib.Deltas

/-!
# The callout queue

The functions of `kern/clock.c` that keep the callout queue, `hardclock` as far as it does. A list
holds the entries behind `calltodo`, each with its `c_time`, and another one those behind
`callfree`, of which only the addresses matter. `c_time` is an `int` and may overflow.
-/

namespace Bsd386.Kern.Clock

/-- The value that an `int` keeps. -/
def int (i : ℤ) : ℤ := i.bmod (2 ^ 32)

theorem int_eq {i : ℤ} (hlow : -2 ^ 31 ≤ i) (hhigh : i < 2 ^ 31) : int i = i := by
  rw [int, Int.bmod_def]
  split <;> omega

/-- The values of an `int`. -/
abbrev Ticks : Type := {t : ℤ // -2 ^ 31 ≤ t ∧ t < 2 ^ 31}

/-- `struct callout` without `c_next` and `c_time`. -/
structure Callout (E Fn Arg : Type) where
  addr : E
  cFunc : Fn
  cArg : Arg

/-- The entries of the queue with `c_time`. -/
abbrev Queue (E Fn Arg : Type) : Type := List (Callout E Fn Arg × ℤ)

/-- The table of callouts. -/
structure Table (E Fn Arg : Type) where
  calltodo : Queue E Fn Arg
  callfree : List E

variable {E Fn Arg : Type}

/-- The loop of `hardclock`, and `needsoft`. -/
def Queue.hardclock : Queue E Fn Arg → Queue E Fn Arg × Bool
  | [] => ([], false)
  | (p1, time) :: rest =>
    let time := int (time - 1)
    if 0 < time then ((p1, time) :: rest, false)
    else if time = 0 then ((p1, time) :: rest, true)
    else ((p1, time) :: (Queue.hardclock rest).1, true)

/-- The loop of `timeout` that inserts `pnew`. -/
def Queue.insert (pnew : Callout E Fn Arg) : Queue E Fn Arg → ℤ → Queue E Fn Arg
  | [], t => [(pnew, t)]
  | (p2, time) :: rest, t =>
    if time < t then (p2, time) :: Queue.insert pnew rest (if 0 < time then int (t - time) else t)
    else (pnew, t) :: (p2, int (time - t)) :: rest

/-- Let the next entry, if there is one, take over the time of the one before it. -/
def Queue.inherit (time : ℤ) : Queue E Fn Arg → Queue E Fn Arg
  | [] => []
  | (p, next) :: rest => (p, if 0 < time then int (next + time) else next) :: rest

/-- The loop of `untimeout`: the queue without the first match, and the entry that it frees. -/
def Queue.remove [DecidableEq Fn] [DecidableEq Arg] (func : Fn) (arg : Arg) :
    Queue E Fn Arg → Option (E × Queue E Fn Arg)
  | [] => none
  | (p2, time) :: rest =>
    if p2.cFunc = func ∧ p2.cArg = arg then some (p2.addr, Queue.inherit time rest)
    else (Queue.remove func arg rest).map fun r ↦ (r.1, (p2, time) :: r.2)

/-- `timeout`. -/
def Table.timeout (func : Fn) (arg : Arg) (t : ℤ) (s : Table E Fn Arg) :
    Except Fault (Table E Fn Arg) :=
  match s.callfree with
  | [] => .error (.panic "timeout table overflow")
  | pnew :: callfree =>
    .ok ⟨Queue.insert ⟨pnew, func, arg⟩ s.calltodo (if t ≤ 0 then 1 else t), callfree⟩

/-- One turn of the loop of `softclock`, with the call that it makes. -/
def Table.softclock (s : Table E Fn Arg) : Table E Fn Arg × Option (Fn × Arg × ℤ) :=
  match s.calltodo with
  | [] => (s, none)
  | (p1, a) :: rest =>
    if 0 < a then (s, none)
    else (⟨rest, p1.addr :: s.callfree⟩, some (p1.cFunc, p1.cArg, a))

/-- `untimeout`, with whether there was a match. -/
def Table.untimeout [DecidableEq Fn] [DecidableEq Arg] (func : Fn) (arg : Arg)
    (s : Table E Fn Arg) :
    Table E Fn Arg × Bool :=
  match Queue.remove func arg s.calltodo with
  | none => (s, false)
  | some (p2, calltodo) => (⟨calltodo, p2 :: s.callfree⟩, true)

/-! ### Runs -/

/-- What may happen next. A turn of the loop of `softclock` is one event, as the function that it
calls may be interrupted and may itself set or cancel timeouts. -/
inductive Event (Fn Arg : Type) where
  | hardclock
  | softclock
  | timeout (func : Fn) (arg : Arg) (t : Ticks)
  | untimeout (func : Fn) (arg : Arg)

/-- What is seen of it: whether `hardclock` asks for `softclock`, the call that a turn makes or the
end of the loop, and whether `untimeout` found an entry. -/
inductive Output (Fn Arg : Type) where
  | needsoft (needed : Bool)
  | ended
  | called (func : Fn) (arg : Arg) (a : ℤ)
  | registered
  | removed (found : Bool)

/-- One event. -/
def Table.exec [DecidableEq Fn] [DecidableEq Arg] (s : Table E Fn Arg) :
    Event Fn Arg → Except Fault (Table E Fn Arg × Output Fn Arg)
  | .hardclock => .ok (⟨(Queue.hardclock s.calltodo).1, s.callfree⟩,
      .needsoft (Queue.hardclock s.calltodo).2)
  | .softclock =>
    match s.softclock with
    | (s, none) => .ok (s, .ended)
    | (s, some (func, arg, a)) => .ok (s, .called func arg a)
  | .timeout func arg t => do return (← s.timeout func arg t, .registered)
  | .untimeout func arg => .ok ((s.untimeout func arg).1, .removed (s.untimeout func arg).2)

/-- The histories of the runs that begin with all entries free and whose events are all allowed,
with the states that they lead to. -/
inductive Run [DecidableEq Fn] [DecidableEq Arg] (table : List E)
    (allowed : Table E Fn Arg → Event Fn Arg → Prop) :
    List (Event Fn Arg × Output Fn Arg) → Table E Fn Arg → Prop
  | start : Run table allowed [] ⟨[], table⟩
  | step {h : List (Event Fn Arg × Output Fn Arg)} {s s' : Table E Fn Arg} {e : Event Fn Arg}
    {o : Output Fn Arg} (hrun : Run table allowed h s) (hallowed : allowed s e)
    (hexec : s.exec e = .ok (s', o)) : Run table allowed (h ++ [(e, o)]) s'

/-- No callout becomes `2 ^ 31` ticks late. -/
def Event.Meets (s : Table E Fn Arg) : Event Fn Arg → Prop
  | .hardclock => ∀ x ∈ s.calltodo, -2 ^ 31 < x.2
  | _ => True

/-! ### Deadlines -/

/-- What a call of `timeout` asks for. -/
structure Registration (Fn Arg : Type) where
  func : Fn
  arg : Arg
  deadline : ℤ

/-- The ticks so far, how many timeouts were set, and those of them that wait. -/
structure Deadlines (Fn Arg : Type) where
  now : ℕ
  next : ℕ
  pending : ℕ → Option (Registration Fn Arg)

/-- A timeout that waits is due. -/
def Deadlines.Due (d : Deadlines Fn Arg) (i : ℕ) : Prop :=
  ∃ r, d.pending i = some r ∧ r.deadline ≤ d.now

/-- What the callout queue is for. Each timeout has its own number, which is not used again. -/
inductive Deadlines.Step (d : Deadlines Fn Arg) :
    Event Fn Arg → Output Fn Arg → Deadlines Fn Arg → Prop
  | tick {needed : Bool} : Step d .hardclock (.needsoft needed) { d with now := d.now + 1 }
  | ended (hnone : ∀ i, ¬d.Due i) : Step d .softclock .ended d
  | called {i : ℕ} {r : Registration Fn Arg} (hpending : d.pending i = some r)
    (hdue : r.deadline ≤ d.now) :
    Step d .softclock (.called r.func r.arg (-(d.now - r.deadline)))
      { d with pending := Function.update d.pending i none }
  | registered {func : Fn} {arg : Arg} {t : Ticks} :
    Step d (.timeout func arg t) .registered
      { d with
        next := d.next + 1
        pending := Function.update d.pending d.next (some ⟨func, arg, d.now + max t.1 1⟩) }
  | removed {i : ℕ} {r : Registration Fn Arg} (hpending : d.pending i = some r) :
    Step d (.untimeout r.func r.arg) (.removed true)
      { d with pending := Function.update d.pending i none }
  | missed {func : Fn} {arg : Arg}
    (hnone : ∀ i r, d.pending i = some r → ¬(r.func = func ∧ r.arg = arg)) :
    Step d (.untimeout func arg) (.removed false) d

/-- A run over deadlines. -/
inductive Deadlines.Run : List (Event Fn Arg × Output Fn Arg) → Deadlines Fn Arg → Prop
  | start : Run [] ⟨0, 0, fun _ ↦ none⟩
  | step {h : List (Event Fn Arg × Output Fn Arg)} {d d' : Deadlines Fn Arg} {e : Event Fn Arg}
    {o : Output Fn Arg} (hrun : Run h d) (hstep : d.Step e o d') : Run (h ++ [(e, o)]) d'

/-- The callouts in the queue, each with the ticks until it is due. -/
def Table.waiting (s : Table E Fn Arg) : List (Callout E Fn Arg × ℤ) := Deltas.offsets 0 s.calltodo

/-- The entries in the queue are the timeouts that wait, where `number` gives each entry the number
of its timeout, and no entry of the table is lost. -/
structure Represents (table : List E) (s : Table E Fn Arg) (d : Deadlines Fn Arg) (number : E → ℕ) :
    Prop where
  entries : (s.waiting.map (fun x ↦ x.1.addr) ++ s.callfree).Perm table
  pending : ∀ x ∈ s.waiting, d.pending (number x.1.addr) = some ⟨x.1.cFunc, x.1.cArg, d.now + x.2⟩
  queued : ∀ i r, d.pending i = some r → ∃ x ∈ s.waiting, number x.1.addr = i
  distinct : (s.waiting.map fun x ↦ number x.1.addr).Nodup
  fresh : ∀ i r, d.pending i = some r → i < d.next

end Bsd386.Kern.Clock
