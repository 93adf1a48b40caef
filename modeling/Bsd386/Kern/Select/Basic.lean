import Bsd386.Kern.Sleep.Channels

/-!
# Selecting

`select`, `selscan` and `selwakeup` of `kern/descrip.c` with `sbselqueue` and `sbwakeup` of
`kern/socket/sockbuf.c`, over the processes and sleep queues of `kern/synch.c`. An object is what a
process selects in one direction, like a socket buffer. What `select` copies from and to the user,
the bits of the sets and the flag `SB_SEL`, which is set where `sb_sel` is, are left out.
-/

namespace Bsd386.Kern.Select

open Function Sleep

/-- A bit that is set in one of the sets. Behind a descriptor without a file `selscan` goes on with
the next word, past `rest` others. -/
inductive Bit (X : Type)
  | file (x : X)
  | ebadf (rest : ℕ)
  deriving DecidableEq

/-- Where a process is: outside `select`, in `selscan` or behind it with what is still to be looked
at, or in the `tsleep` of `select`. `set` is what is selected, and `tv` whether there is a timeout.
-/
inductive Place (X : Type)
  | idle
  | scan (set todo : List (Bit X)) (tv : Bool) (ncoll : BitVec 32) (error : Bool) (n : ℕ)
  | asleep (set : List (Bit X)) (tv : Bool)

/-- The processes and the objects. `selwait` is the address that processes sleep on, and `pidhash`
what `pfind` finds. `owed` tells that an object has become ready and `sbwakeup` is still to be
called, and `due` that it has become ready since the last scan of a process began. -/
structure Kernel (P X : Type) where
  sys : System P
  selwait : ℕ
  nselcoll : BitVec 32
  ssel : P → Bool
  pid : P → ℕ
  pidhash : ℕ → Option P
  sel : X → ℕ
  coll : X → Bool
  ready : X → Bool
  owed : X → Bool
  place : P → Place X
  due : P → X → Bool

/-- What happens. Processes take what an object was ready for with `unready`, and get and leave
their pids. -/
inductive Call (P X : Type)
  | kernel (e : Event P)
  | select (set : List (Bit X)) (tv : Bool)
  | selscan
  | check (expired : Bool)
  | resume
  | ready (x : X)
  | unready (x : X)
  | sbwakeup (x : X)
  | enterpid (p : P) (n : ℕ)
  | leavepid (p : P)

/-- The descriptors that the three sets can have. -/
def maxSet : ℕ := 3 * 65535

namespace Kernel

variable {P X : Type}

/-- `pfind` finds a process that sleeps on `selwait`. -/
def selecting (s : Kernel P X) (pid : ℕ) : Bool :=
  match s.pidhash pid with
  | none => false
  | some p => (s.sys.proc p).wchan = s.selwait

/-- The process that runs is outside `select`. -/
def free (s : Kernel P X) : Bool :=
  match s.sys.curproc with
  | none => true
  | some p =>
    match s.place p with
    | .idle => true
    | _ => false

/-- Nobody else sleeps on `selwait`, and a process in `select` does nothing else. -/
def permitted (s : Kernel P X) : Event P → Bool
  | .tsleep chan _ _ _ => chan ≠ s.selwait && s.free
  | .step | .swtch | .wakeup _ | .psignal _ _ | .setrun _ | .unsleep _ | .endtsleep
      _ | .relate _ _ _
  | .vfork _ | .setJobc _ _ => true
  | _ => s.free

/-- The process that runs in `selscan` will still look at the object. -/
def toLook [DecidableEq X] (s : Kernel P X) (x : X) : Bool :=
  match s.sys.outside with
  | none => false
  | some p =>
    match s.place p with
    | .scan _ todo _ _ _ _ => .file x ∈ todo
    | _ => false

variable [DecidableEq P] [DecidableEq X]

/-- Go on elsewhere. -/
def goto (s : Kernel P X) (p : P) (place : Place X) : Kernel P X :=
  { s with place := update s.place p place }

/-- `select` from `retry` up to `selscan`. -/
def retry (p : P) (set : List (Bit X)) (tv : Bool) (s : Kernel P X) : Kernel P X :=
  { s with
    ssel := update s.ssel p true
    place := update s.place p (.scan set set tv s.nselcoll false 0)
    due := update s.due p fun _ ↦ false }

/-- `sbselqueue`. -/
def sbselqueue (x : X) (p : P) (s : Kernel P X) : Kernel P X :=
  if s.sel x ≠ 0 ∧ s.selecting (s.sel x) then { s with coll := update s.coll x true }
  else { s with sel := update s.sel x (s.pid p) }

variable [Fintype P]

/-- `selwakeup` for a collision. -/
def collision (s : Kernel P X) : Except Fault (Kernel P X) := do
  let sys ← s.sys.wakeup s.selwait
  return { s with nselcoll := s.nselcoll + 1, sys := sys }

/-- `selwakeup` for the process with the pid. -/
def notify (pid : ℕ) (s : Kernel P X) : Except Fault (Kernel P X) :=
  if pid = 0 then .ok s
  else
    match s.pidhash pid with
    | none => .ok s
    | some p =>
      if (s.sys.proc p).wchan = s.selwait then do
        let sys ← if (s.sys.proc p).stat = .ssleep then s.sys.setrun p else s.sys.unsleep p
        return { s with sys := sys }
      else .ok { s with ssel := update s.ssel p false }

/-- `selwakeup`. -/
def selwakeup (pid : ℕ) (coll : Bool) (s : Kernel P X) : Except Fault (Kernel P X) :=
  if coll then do notify pid (← s.collision) else s.notify pid

/-- `sbwakeup`, as far as processes select. -/
def sbwakeup (x : X) (s : Kernel P X) : Except Fault (Kernel P X) :=
  if s.sel x ≠ 0 then do
    let s' ← s.selwakeup (s.sel x) (s.coll x)
    return { s' with sel := update s'.sel x 0, coll := update s'.coll x false }
  else .ok s

/-- `selscan` for the next descriptor. -/
def look (p : P) (s : Kernel P X) : Kernel P X :=
  match s.place p with
  | .scan set (.ebadf rest :: todo) tv ncoll _ n =>
    s.goto p (.scan set (todo.drop rest) tv ncoll true n)
  | .scan set (.file x :: todo) tv ncoll error n =>
    if s.ready x then s.goto p (.scan set todo tv ncoll error (n + 1))
    else (s.sbselqueue x p).goto p (.scan set todo tv ncoll error n)
  | _ => s

/-- `select` behind `selscan`, where the time may be over. -/
def check (p : P) (expired : Bool) (s : Kernel P X) : Except Fault (Kernel P X) :=
  match s.place p with
  | .scan set [] tv ncoll error n =>
    if error ∨ n ≠ 0 then .ok (s.goto p .idle)
    else if tv ∧ expired then .ok ({ s with ssel := update s.ssel p false }.goto p .idle)
    else if s.ssel p = false ∨ s.nselcoll ≠ ncoll then .ok (s.retry p set tv)
    else do
      let sys ← s.sys.tsleep p s.selwait psock true tv
      return { s with ssel := update s.ssel p false, sys := sys }.goto p (.asleep set tv)
  | _ => .ok s

/-- `select` behind `tsleep`. -/
def resume (p : P) (s : Kernel P X) : Kernel P X :=
  match s.place p with
  | .asleep set tv =>
    match s.sys.value p with
    | .zero => s.retry p set tv
    | _ => s.goto p .idle
  | _ => s

/-- What the process that runs does. -/
def running (s : Kernel P X) (f : P → Kernel P X → Except Fault (Kernel P X)) :
    Except Fault (Kernel P X) :=
  match s.sys.outside with
  | none => .ok s
  | some p => f p s

/-- The process calls `select`. It has a pid, and the sets are no larger than the table of its
files. -/
def enter (set : List (Bit X)) (tv : Bool) (p : P) (s : Kernel P X) : Kernel P X :=
  match s.place p with
  | .idle =>
    if s.pidhash (s.pid p) = some p ∧ set.length ≤ maxSet then s.retry p set tv else s
  | _ => s

/-- A process outside `select` gives up its pid. -/
def leavepid (p : P) (s : Kernel P X) : Kernel P X :=
  match s.place p with
  | .idle =>
    if s.pidhash (s.pid p) = some p then { s with pidhash := update s.pidhash (s.pid p) none }
      else s
  | _ => s

/-- What a call does. Nothing happens where no process can do it. -/
def exec (s : Kernel P X) : Call P X → Except Fault (Kernel P X)
  | .kernel e =>
    if s.permitted e then do
      let sys ← s.sys.exec e
      return { s with sys := sys }
    else .ok s
  | .select set tv => s.running fun p s ↦ .ok (s.enter set tv p)
  | .selscan => s.running fun p s ↦ .ok (s.look p)
  | .check expired => s.running fun p s ↦ s.check p expired
  | .resume => s.running fun p s ↦ .ok (s.resume p)
  | .ready x =>
    .ok { s with
      ready := update s.ready x true
      owed := update s.owed x true
      due := fun p ↦ update (s.due p) x true }
  | .unready x => if s.toLook x then .ok s else .ok { s with ready := update s.ready x false }
  | .sbwakeup x => do
    let s' ← s.sbwakeup x
    return { s' with owed := update s'.owed x false }
  | .enterpid p n =>
    if n ≠ 0 ∧ s.pidhash n = none ∧ s.pidhash (s.pid p) ≠ some p then
      .ok { s with pid := update s.pid p n, pidhash := update s.pidhash n (some p) }
    else .ok s
  | .leavepid p => .ok (s.leavepid p)

end Kernel

variable {P X : Type} [Fintype X]

/-- The beginning. No process is in `select`, and there are no more objects than fit into the
memory. -/
structure Initial (s : Kernel P X) : Prop where
  sys : Sleep.Initial s.sys
  selwait : s.selwait ≠ 0
  objects : Fintype.card X < 2147483648
  place : ∀ p, s.place p = .idle
  pidhash : ∀ n, s.pidhash n = none

/-- The states that are reached. -/
inductive Reach [DecidableEq P] [DecidableEq X] [Fintype P] : Kernel P X → Prop
  | start {s : Kernel P X} (hinit : Initial s) : Reach s
  | step {s s' : Kernel P X} {c : Call P X} (hreach : Reach s) (hexec : s.exec c = .ok s') :
      Reach s'

end Bsd386.Kern.Select

/-!
# What a process that selects relies on

Each object that a sleeping process selects has recorded it, or has recorded another process and a
collision. A process that scans finds out at the end of the scan whether what it has looked at has
changed: its flag `SSEL` is cleared then, or the count of collisions has grown. That count does not
come round within one scan, since each object counts once for the collision it has and once for each
time the scan looks at it.
-/

namespace Bsd386.Kern.Select

open Function Sleep

variable {P X : Type} {s s' : Kernel P X} {p q : P} {x : X}

namespace Kernel

/-- The object has recorded the process, or a collision. -/
def Recorded (s : Kernel P X) (p : P) (x : X) : Prop :=
  s.sel x = s.pid p ∨ s.coll x = true ∧ s.sel x ≠ 0

/-- The process will be told when the object becomes ready, or is about to be told. -/
def Covered (s : Kernel P X) (p : P) (x : X) : Prop :=
  s.Recorded p x ∧ (s.due p x = true → s.owed x = true)

/-- The number of objects with a collision. -/
def collisions [Fintype X] (s : Kernel P X) : ℕ := (Finset.univ.filter fun x ↦ s.coll x = true).card

end Kernel

variable [Fintype X]

/-- What holds of a process in `selscan`. -/
structure Scanning (s : Kernel P X) (p : P) (set todo : List (Bit X)) (ncoll : BitVec 32)
    (error : Bool)
    (n : ℕ) : Prop where
  outside : s.sys.outside = some p
  length : set.length ≤ maxSet
  count : ∃ k, s.nselcoll = ncoll + BitVec.ofNat 32 k ∧
    k + s.collisions + todo.length ≤ Fintype.card X + set.length ∧
    (error = false → n = 0 → s.ssel p = true → k = 0 →
      ∃ looked, set = looked ++ todo ∧ ∀ x, .file x ∈ looked → s.Covered p x)
  todo : ∀ x, .file x ∈ todo → s.due p x = true → s.ready x = true

/-- All processes and objects are in order. -/
structure Holds (s : Kernel P X) : Prop where
  sound : Sound s.sys
  selwait : s.selwait ≠ 0
  objects : Fintype.card X < 2147483648
  known : ∀ p, s.place p ≠ .idle → s.pidhash (s.pid p) = some p
  hash : ∀ n p, s.pidhash n = some p → n ≠ 0 ∧ s.pid p = n
  sleeper : ∀ p, (s.sys.proc p).wchan = s.selwait → ∃ set tv, s.place p = .asleep set tv
  asleep : ∀ p set tv, s.place p = .asleep set tv → (s.sys.proc p).wchan = s.selwait →
    ∀ x, .file x ∈ set → s.Covered p x
  scanning : ∀ p set todo tv ncoll error n, s.place p = .scan set todo tv ncoll error n →
    Scanning s p set todo ncoll error n
  fits : ∀ p set tv, s.place p = .asleep set tv → set.length ≤ maxSet

theorem Initial.holds [DecidableEq P] (hinit : Initial s) : Holds s := by
  have hplace := hinit.place
  refine ⟨hinit.sys.sound, hinit.selwait, hinit.objects, fun p hp ↦ absurd (hplace p) hp,
    fun n p hn ↦ ?_,
    fun p hp ↦ ?_, fun p set tv hp ↦ ?_, fun p set todo tv ncoll error n hp ↦ ?_,
    fun p set tv hp ↦ ?_⟩
  · rw [hinit.pidhash n] at hn
    cases hn
  · rw [(hinit.sys.proc p).1] at hp
    exact absurd hp.symm hinit.selwait
  · rw [hplace p] at hp
    cases hp
  · rw [hplace p] at hp
    cases hp
  · rw [hplace p] at hp
    cases hp

/-- A process that runs outside `tsleep` does not sleep on `selwait`. -/
theorem Holds.wchan_ne (h : Holds s) (hout : s.sys.outside = some p) :
    (s.sys.proc p).wchan ≠ s.selwait := by
  rw [(h.sound.current p (outside_eq_some hout).1).wchan]
  exact h.selwait.symm

/-- The kernel goes on with what is recorded left alone. -/
theorem Holds.sys (h : Holds s) {sys : System P} (hsound : Sound sys)
    (hwchan : ∀ p, (sys.proc p).wchan = s.selwait → (s.sys.proc p).wchan = s.selwait)
    (houtside : ∀ p set todo tv ncoll error n, s.place p = .scan set todo tv ncoll error n →
      sys.outside = s.sys.outside) : Holds { s with sys := sys } :=
  ⟨hsound, h.selwait, h.objects, h.known, h.hash, fun p hp ↦ h.sleeper p (hwchan p hp),
    fun p set tv hp hsel ↦ h.asleep p set tv hp (hwchan p hsel),
    fun p set todo tv ncoll error n hp ↦ by
      have hold := h.scanning p set todo tv ncoll error n hp
      exact ⟨(houtside p set todo tv ncoll error n hp).trans hold.outside, hold.length, hold.count,
        hold.todo⟩, h.fits⟩

omit [Fintype X] in
/-- A process in `selscan` is not free to do anything else. -/
theorem not_free {set todo : List (Bit X)} {tv : Bool} {ncoll : BitVec 32} {error : Bool} {n : ℕ}
    (hout : s.sys.outside = some p) (hplace : s.place p = .scan set todo tv ncoll error n) :
    s.free = false := by
  rw [Kernel.free, (outside_eq_some hout).1]
  dsimp only
  rw [hplace]

omit [Fintype X] in
/-- What is outside depends on who runs and where. -/
theorem outside_congr {t u : System P} (hcur : u.curproc = t.curproc) (hpc : u.pc = t.pc) :
    u.outside = t.outside := by
  rw [System.outside, System.outside, hcur, hpc]

variable [DecidableEq P] [Fintype P]

/-- Nobody comes to sleep on `selwait` outside `select`. -/
theorem Holds.permitted_wchan (h : Holds s) {e : Event P} (hpermitted : s.permitted e = true)
    {sys : System P} (hexec : s.sys.exec e = .ok sys) (r : P)
    (hr : (sys.proc r).wchan = s.selwait) :
    (s.sys.proc r).wchan = s.selwait := by
  have hne : (sys.proc r).wchan ≠ 0 := hr ▸ h.selwait
  by_cases he : ∃ chan pri pcatch timo, e = .tsleep chan pri pcatch timo
  · obtain ⟨chan, pri, pcatch, timo, rfl⟩ := he
    rw [Kernel.permitted, Bool.and_eq_true, decide_eq_true_eq] at hpermitted
    rw [System.exec] at hexec
    cases hout : s.sys.outside with
    | none =>
      rw [hout] at hexec
      cases hexec
      exact hr
    | some p =>
      rw [hout] at hexec
      rcases tsleep_stays hexec r hne with hsame | ⟨-, hchan⟩
      · rw [← hsame, hr]
      · exact absurd (hchan.symm.trans hr) hpermitted.1
  · have hstays := exec_stays h.sound hexec fun chan pri pcatch timo heq ↦
      he ⟨chan, pri, pcatch, timo, heq⟩
    rw [← hstays r hne, hr]

omit [Fintype X] in
/-- A process in `selscan` is interrupted, and goes on. -/
theorem permitted_outside {e : Event P} (hpermitted : s.permitted e = true) {sys : System P}
    (hexec : s.sys.exec e = .ok sys) (hout : s.sys.outside = some p) (hfree : s.free = false) :
    sys.outside = s.sys.outside := by
  obtain ⟨hcur, hpc⟩ := outside_eq_some hout
  by_cases hint : e.Interrupt
  · obtain ⟨-, hcur', hpc'⟩ := exec_interrupt hint hexec
    exact outside_congr hcur' hpc'
  · cases e with
    | step =>
      rw [System.exec, hcur] at hexec
      dsimp only at hexec
      rw [System.step, hpc] at hexec
      cases hexec
      rfl
    | swtch =>
      rw [System.exec, if_neg (by rw [hcur]; exact Option.some_ne_none p)] at hexec
      cases hexec
      rfl
    | tsleep chan pri pcatch timo =>
      rw [Kernel.permitted, hfree, Bool.and_false] at hpermitted
      cases hpermitted
    | wakeup chan => exact absurd trivial hint
    | psignal p sig => exact absurd trivial hint
    | setrun p => exact absurd trivial hint
    | unsleep p => exact absurd trivial hint
    | endtsleep p => exact absurd trivial hint
    | relate p pptr pgrp => exact absurd trivial hint
    | vfork p => exact absurd trivial hint
    | setJobc pgrp n => exact absurd trivial hint
    | _ =>
      change s.free = true at hpermitted
      exact absurd (hfree.symm.trans hpermitted) Bool.false_ne_true

theorem Holds.kernel (h : Holds s) {e : Event P} (hpermitted : s.permitted e = true)
    {sys : System P}
    (hexec : s.sys.exec e = .ok sys) : Holds { s with sys := sys } := by
  refine h.sys (h.sound.exec_ok hexec) (h.permitted_wchan hpermitted hexec)
    fun p set todo tv ncoll error n hp ↦ ?_
  have hout := (h.scanning p set todo tv ncoll error n hp).outside
  exact permitted_outside hpermitted hexec hout (not_free hout hp)

end Bsd386.Kern.Select
