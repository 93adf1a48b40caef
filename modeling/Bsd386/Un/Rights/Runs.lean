import Bsd386.Un.Rights.Tally
import Mathlib.Data.List.Nodup
import Mathlib.Data.List.Perm.Basic

/-!
# Runs with rights in flight

The steps that send, receive and close, those of others, what it means that the rights in flight are
accounted for, and the conditions under which a step leaves it so.
-/

namespace Bsd386.Un

open Kern (Fault)
open Kern.Descrip (Filedesc Proc Table ushort lower)

variable {F S : Type}

/-- The pointers in the messages at a socket. -/
def Socket.rights (so : Socket F S) : List (Option F) := so.rcv.sbMb.flatten.flatMap Mbuf.rights

/-- The pointers in the messages at all sockets. -/
def System.flying (s : System F S) : List (Option F) := s.socks.flatMap fun x ↦ (s.socket x).rights

/-- The message at the front of the queue of a socket. -/
def System.message (s : System F S) (x : S) : List (Option F) :=
  scanRecord ((s.socket x).rcv.sbMb.headD [])

variable [DecidableEq F]

/-- The references to a file in messages. -/
def System.inFlight (s : System F S) (f : F) : ℕ := s.flying.count (some f)

/-- The descriptors of a file. -/
def System.uses (s : System F S) (f : F) : ℕ := Kern.Descrip.uses s.procs f

/-- The descriptors and the messages account for all counts. -/
def System.Accounted (s : System F S) : Prop :=
  (∀ f ∈ s.filehead, s.msgcount f = s.inFlight f ∧ s.count f = s.uses f + s.msgcount f) ∧
    s.unpRights = (s.filehead.map s.msgcount).sum

/-! ### Steps -/

/-- Take a descriptor out of a table, as `close` does. -/
def release (fdp : Filedesc F) (fd : ℕ) : Except Fault (Filedesc F) := do
  let fdp ← fdp.store fd ⟨none, 0⟩
  let lastfile ← lower fdp.slots fdp.lastfile
  return { fdp with
    lastfile := lastfile
    freefile := if fd < fdp.freefile then ushort fd else fdp.freefile }

/-- What the process `p` does, and a call of `unp_gc`. -/
inductive Event (F S : Type) where
  | send (p : ℕ) (x : S) (nam : Option (Except Errno S)) (m : List (ℕ × ℤ)) (control : Control)
    (fresh : Bool)
  | receive (p : ℕ) (x : S) (controlp : Bool)
  | close (p : ℕ) (fd : ℕ)
  | gc

variable [DecidableEq S]

/-- One step. Nothing happens where the process does not exist. -/
def System.exec (s : System F S) : Event F S → Except Fault (System F S × Option Errno)
  | .send p x nam m control fresh =>
    match s.procs[p]? with
    | some ⟨_, some fdp⟩ => s.send x nam m control fresh fdp
    | _ => .ok (s, none)
  | .receive p x controlp =>
    match s.procs[p]? with
    | some ⟨lim, some fdp⟩ => do
      let (fdp, s, e) ← s.receive x controlp lim fdp
      return ({ s with procs := s.procs.set p ⟨lim, some fdp⟩ }, e)
    | _ => .ok (s, none)
  | .close p fd =>
    match s.procs[p]? with
    | some ⟨lim, some fdp⟩ =>
      match fdp.opened fd with
      | none => .ok (s, some .ebadf)
      | some (fp, _) => do
        let fdp ← release fdp fd
        return (← System.close fp { s with procs := s.procs.set p ⟨lim, some fdp⟩ }, none)
    | _ => .ok (s, none)
  | .gc => do return (← System.unpGc System.close s, none)

/-- A record as the socket layer builds it: an address on a datagram socket, at most one control
message, and data. -/
def Shape (stream : Bool) (record : Chain F) : Prop :=
  ∃ address control data, record = address ++ control ++ data ∧
    address.length = (if stream then 0 else 1) ∧ control.length ≤ 1 ∧
    (∀ m ∈ address, m.isControl = false) ∧ (∀ m ∈ control, m.isControl = true) ∧
    ∀ m ∈ data, m.isControl = false

/-- The sockets hang together. -/
structure Linked (s : System F S) : Prop where
  nodup : s.socks.Nodup
  files : ∀ f ∈ s.filehead, ∀ x, s.socketOf f = some x → x ∈ s.socks
  accepted : ∀ f ∈ s.filehead, ∀ x, s.socketOf f = some x → ∀ y ∈ s.socks, x ∉ (s.socket y).pending
  apart : ∀ f ∈ s.filehead, ∀ g ∈ s.filehead, ∀ x, s.socketOf f = some x →
    s.socketOf g = some x → f = g
  pending : ∀ x ∈ s.socks, ∀ y ∈ (s.socket x).pending, y ∈ s.socks
  once : ∀ x ∈ s.socks, (s.socket x).pending.Nodup
  disjoint : ∀ x ∈ s.socks, ∀ x' ∈ s.socks, x ≠ x' → ∀ y ∈ (s.socket x).pending,
    y ∉ (s.socket x').pending
  typed : ∀ x ∈ s.socks, ∀ y, (s.socket x).conn = some y → (s.socket y).stream = (s.socket x).stream

/-- The queues, the tables and the files are right, where `closing` is a file that is being closed.
-/
structure Sound (s : System F S) (closing : Option F) : Prop where
  tables : ∀ q ∈ s.procs, ∀ fdp, q.fd = some fdp → fdp.Sound
  tally : Tally s (fun f ↦ s.uses f + s.inFlight f) s.inFlight closing
  rights : s.unpRights = s.flying.length
  whole : none ∉ s.flying
  shape : ∀ x ∈ s.socks, ∀ record ∈ (s.socket x).rcv.sbMb, Shape (s.socket x).stream record
  linked : Linked s
  gcing : s.unpGcing = false

/-- What others do: they open and close descriptors, which they count, create sockets, connect and
accept, and move data. They leave alone what is in flight. -/
structure Others (s s' : System F S) : Prop where
  flying : s'.flying.Perm s.flying
  rights : s'.unpRights = s.unpRights
  kept : ∀ f, some f ∈ s.flying → f ∈ s'.filehead
  msgcount : ∀ f ∈ s'.filehead, s'.msgcount f = if some f ∈ s.flying then s.msgcount f else 0
  counted : ∀ f ∈ s'.filehead, s'.count f - s'.msgcount f = s'.uses f
  referenced : ∀ f ∈ s'.filehead, s'.count f ≠ 0
  named : ∀ f, s'.uses f ≠ 0 → f ∈ s'.filehead
  small : ∀ f, s'.uses f + s'.inFlight f < 2 ^ 15
  nodup : s'.filehead.Nodup
  tables : ∀ q ∈ s'.procs, ∀ fdp, q.fd = some fdp → fdp.Sound
  shape : ∀ x ∈ s'.socks, ∀ record ∈ (s'.socket x).rcv.sbMb, Shape (s'.socket x).stream record
  linked : Linked s'
  gcing : s'.unpGcing = false

/-! ### Conditions -/

/-- The descriptors below the limit that are free. -/
def freeBelow (lim : ℤ) (fdp : Filedesc F) : ℕ :=
  ((List.range lim.toNat).filter fun d ↦ (fdp.opened d).isNone).length

/-- The message is refused before a reference is counted. -/
def Refused (control : Control) (fdp : Filedesc F) : Prop :=
  control.isRights = false ∨ control.cmsgLen ≠ control.mLen ∨ ∃ fd ∈ control.fds,
  fdp.opened fd = none

/-- The receiver has the space for the message. -/
def System.Delivers (s : System F S) (x : S) (nam : Option (Except Errno S)) (m : List (ℕ × ℤ))
    (control : Control) (fresh : Bool) : Prop :=
  let data : Chain F := dataChain m
  if (s.socket x).stream then
    (s.socket x).cantsendmore = false ∧ ∃ y ∈ s.socks, (s.socket x).conn = some y ∧
      (chainLen data + control.mLen : ℤ) ≤ (s.socket y).rcv.sbspace
  else
    fresh = true ∧ (s.socket x).addr.getD 16 ≤ 108 ∧ ∃ y ∈ s.socks,
    s.target nam (s.socket x).conn = .ok y ∧
      ((s.socket x).addr.getD 16 + chainLen data + control.mLen : ℤ) ≤ (s.socket y).rcv.sbspace

/-- A file is no garbage once `fp`, the file of the socket `x`, is closed: it can be reached, or it
waits for `accept` at `x` and nowhere else, and is no socket. -/
def System.Kept (s : System F S) (fp : F) (x : S) (f : F) : Prop :=
  Reachable (s.setCount fp 0) f ∨
    s.socketOf f = none ∧ ∀ y ∈ s.socks, some f ∈ (s.socket y).rights → y ∈ (s.socket x).pending

/-- The step does not reach a defect. A message is refused at once or is delivered, and no count
overflows. A message with rights is received only where the descriptors do not suffice although
`fdavail` finds some, with no last reference to a socket in it. There is nothing to collect when
`unp_gc` runs. -/
def Event.Meets (s : System F S) : Event F S → Prop
  | .send p x nam m control fresh =>
    ∀ lim fdp, s.procs[p]? = some ⟨lim, some fdp⟩ → x ∈ s.socks ∧
      (Refused control fdp ∨ control.fds = [] ∨ s.Delivers x nam m control fresh ∧
        ∀ f, s.uses f + s.inFlight f + control.fds.length < 2 ^ 15)
  | .receive p x controlp =>
    ∀ lim fdp, s.procs[p]? = some ⟨lim, some fdp⟩ → x ∈ s.socks ∧
      (s.message x = [] ∨ controlp = true ∧
        fdavail lim fdp (s.message x).length = true ∧
        freeBelow lim fdp < (s.message x).length ∧
        ∀ f, s.count f = (s.message x).count (some f) → s.socketOf f = none)
  | .close p fd =>
    ∀ lim fdp fp flags x, s.procs[p]? = some ⟨lim, some fdp⟩ → fdp.opened fd = some (fp, flags) →
      s.count fp = 1 → s.socketOf fp = some x → ∀ f ∈ s.filehead, f ≠ fp → s.Kept fp x f
  | .gc => ∀ f ∈ s.filehead, Reachable s f

/-- The files have got descriptors that were free. -/
def Installed (table table' : Table F) : List (Option F) → Prop
  | [] => table' = table
  | fp :: rights => ∃ f fd, fp = some f ∧ table fd = none ∧
    Installed (Function.update table fd (some (f, 0))) table' rights

/-- What receiving a message does: its rights get descriptors if there are enough of them, and are
discarded otherwise; they are no longer in flight. -/
def Received (s s' : System F S) (p : ℕ) (x : S) (e : Option Errno) : Prop :=
  ∀ lim fdp, s.procs[p]? = some ⟨lim, some fdp⟩ →
    (∀ f, s'.inFlight f + (s.message x).count (some f) = s.inFlight f) ∧
    ∃ fdp', s'.procs = s.procs.set p ⟨lim, some fdp'⟩ ∧
      if (s.message x).length ≤ freeBelow lim fdp then
        Installed fdp.opened fdp'.opened (s.message x)
      else fdp'.opened = fdp.opened ∧ e = some .emsgsize

/-- The states of the runs that begin without rights in flight and whose steps are all allowed. -/
inductive Reach (allowed : System F S → Event F S → Prop) : System F S → Prop
  | start {s : System F S} (hsound : Sound s none) (hidle : s.flying = []) : Reach allowed s
  | step {s s' : System F S} {e : Event F S} {r : Option Errno} (hreach : Reach allowed s)
    (hallowed : allowed s e) (hexec : s.exec e = .ok (s', r)) : Reach allowed s'
  | others {s s' : System F S} (hreach : Reach allowed s) (hothers : Others s s') : Reach allowed s'

end Bsd386.Un

/-!
# What is in flight

The messages at one socket against those at the others, and what follows from the invariant for the
search of `unp_gc`.
-/

namespace Bsd386.Un

variable {F S : Type} {s s' : System F S} {closing : Option F} {x : S}

/-! ### Messages of a queue -/

theorem rights_of_not_control {m : Mbuf F} (hnot : m.isControl = false) : m.rights = [] := by
  rw [Mbuf.isControl] at hnot
  rw [Mbuf.rights]
  cases hm : m.contents with
  | data => rfl
  | soname => rfl
  | control rights =>
    rw [hm] at hnot
    exact nomatch hnot

theorem flatMap_rights_of_not_control {chain : Chain F} (hnot : ∀ m ∈ chain, m.isControl = false) :
    chain.flatMap Mbuf.rights = [] := by
  rw [List.flatMap_eq_nil_iff]
  exact fun m hm ↦ rights_of_not_control (hnot m hm)

/-- `unp_scan` finds all the pointers of a record. -/
theorem Shape.scanRecord_eq {stream : Bool} {record : Chain F} (hshape : Shape stream record) :
    scanRecord record = record.flatMap Mbuf.rights := by
  obtain ⟨address, control, data, rfl, -, hcontrol, haddress, hmessage, hdata⟩ := hshape
  have hfind : ∀ chain : Chain F, (∀ m ∈ chain, m.isControl = false) →
      chain.find? Mbuf.isControl = none := by
    intro chain hchain
    rw [List.find?_eq_none]
    intro m hm
    rw [hchain m hm]
    exact Bool.false_ne_true
  rw [scanRecord, List.find?_append, List.find?_append, hfind address haddress, hfind data hdata,
    List.flatMap_append, List.flatMap_append, flatMap_rights_of_not_control haddress,
    flatMap_rights_of_not_control hdata, Option.none_or, Option.or_none, List.nil_append,
    List.append_nil]
  match control, hcontrol, hmessage with
  | [], _, _ => rfl
  | [m], _, hmessage =>
    have hm : m.isControl = true := hmessage m List.mem_cons_self
    rw [List.find?_cons, hm, List.flatMap_singleton]
    rfl

theorem scan_eq {so : Socket F S} (hshape : ∀ record ∈ so.rcv.sbMb, Shape so.stream record) :
    scan so.rcv.sbMb = so.rights := by
  have hall : ∀ records : List (Chain F), (∀ record ∈ records, Shape so.stream record) →
      scan records = records.flatten.flatMap Mbuf.rights := by
    intro records
    induction records with
    | nil => exact fun _ ↦ rfl
    | cons record records ih =>
      intro hrecords
      have hrest := ih fun r hr ↦ hrecords r (List.mem_cons_of_mem record hr)
      rw [scan] at hrest ⊢
      rw [List.flatMap_cons, hrest, (hrecords record List.mem_cons_self).scanRecord_eq,
        List.flatten_cons, List.flatMap_append]
  exact hall so.rcv.sbMb hshape

/-- Pointers that are not cleared are pointers to files. -/
theorem exists_map_some {rights : List (Option F)} (hwhole : none ∉ rights) :
    ∃ files : List F, rights = files.map some := by
  induction rights with
  | nil => exact ⟨[], rfl⟩
  | cons r rights ih =>
    obtain ⟨files, rfl⟩ := ih fun h ↦ hwhole (List.mem_cons_of_mem r h)
    cases r with
    | none => exact absurd List.mem_cons_self hwhole
    | some f => exact ⟨f :: files, rfl⟩

theorem count_map_some [DecidableEq F] (files : List F) (f : F) :
    (files.map some).count (some f) = files.count f :=
  List.count_map_of_injective files some (fun _ _ h ↦ Option.some.inj h) f

/-! ### One socket and the others -/

variable [DecidableEq S]

/-- The pointers in the messages at the other sockets. -/
def System.elsewhere (s : System F S) (x : S) : List (Option F) :=
  (s.socks.erase x).flatMap fun y ↦ (s.socket y).rights

theorem flying_perm (hx : x ∈ s.socks) :
    s.flying.Perm ((s.socket x).rights ++ s.elsewhere x) :=
  (List.perm_cons_erase hx).flatMap_right _

/-- Only one socket changes. -/
theorem elsewhere_congr (hnodup : s.socks.Nodup) (hsocks : s'.socks = s.socks)
    (hother : ∀ y, y ≠ x → (s'.socket y).rights = (s.socket y).rights) :
    s'.elsewhere x = s.elsewhere x := by
  rw [System.elsewhere, System.elsewhere, hsocks]
  apply List.flatMap_congr
  intro y hy
  exact hother y (hnodup.mem_erase_iff.mp hy).1

variable [DecidableEq F]

theorem inFlight_eq (hx : x ∈ s.socks) (f : F) :
    s.inFlight f = (s.socket x).rights.count (some f) + (s.elsewhere x).count (some f) := by
  rw [System.inFlight, (flying_perm hx).count_eq, List.count_append]

omit [DecidableEq F] in
theorem length_flying (hx : x ∈ s.socks) :
    s.flying.length = (s.socket x).rights.length + (s.elsewhere x).length := by
  rw [(flying_perm hx).length_eq, List.length_append]

omit [DecidableEq F] [DecidableEq S] in
theorem mem_flying {r : Option F} :
    r ∈ s.flying ↔ ∃ y ∈ s.socks, r ∈ (s.socket y).rights := List.mem_flatMap

omit [DecidableEq S] in
theorem inFlight_pos {f : F} {y : S} (hy : y ∈ s.socks) (hmem : some f ∈ (s.socket y).rights) :
    0 < s.inFlight f :=
  List.count_pos_iff.mpr (mem_flying.mpr ⟨y, hy, hmem⟩)

/-! ### Reachable files -/

omit [DecidableEq S] in
theorem Sound.scan_eq (hsound : Sound s closing) (hx : x ∈ s.socks) :
    scan (s.socket x).rcv.sbMb = (s.socket x).rights := Un.scan_eq (hsound.shape x hx)

omit [DecidableEq S] in
/-- A pointer in a message is one to an open file. -/
theorem Sound.open_of_mem (hsound : Sound s closing) (hx : x ∈ s.socks) {r : Option F}
    (hr : r ∈ (s.socket x).rights) : ∃ g ∈ s.filehead, r = some g ∧ s.count g ≠ 0 := by
  cases r with
  | none => exact absurd (mem_flying.mpr ⟨x, hx, hr⟩) hsound.whole
  | some g =>
    have hpos := inFlight_pos hx hr
    have hmem := hsound.tally.mem g (by omega)
    have hcount := hsound.tally.count g hmem
    exact ⟨g, hmem, rfl, by omega⟩

omit [DecidableEq S] in
/-- A queue that `unp_gc` looks at. -/
theorem Sound.queue_eq (hsound : Sound s closing) {f : F} (hf : f ∈ s.filehead)
    (hx : s.socketOf f = some x) : s.queue f = (s.socket x).rights := by
  rw [System.queue, hx]
  exact hsound.scan_eq (hsound.linked.files f hf x hx)

omit [DecidableEq S] in
theorem Sound.traversable (hsound : Sound s closing) : Traversable s := by
  refine ⟨hsound.tally.nodup, hsound.linked.files, fun f hf r hr ↦ ?_⟩
  cases hx : s.socketOf f with
  | none =>
    rw [System.queue, hx] at hr
    cases hr
  | some x =>
    rw [hsound.queue_eq hf hx] at hr
    exact hsound.open_of_mem (hsound.linked.files f hf x hx) hr

omit [DecidableEq S] in
/-- A file that can be reached has a reference. -/
theorem Sound.referenced (hsound : Sound s closing) {f : F} (hreach : Reachable s f) :
    f ∈ s.filehead ∧ s.uses f + s.inFlight f ≠ 0 := by
  induction hreach with
  | root hmem hcount hne =>
    have hthis := hsound.tally.count _ hmem
    exact ⟨hmem, by omega⟩
  | @queued f g hreach hqueue ih =>
    obtain ⟨g', hmem, heq, hcount⟩ := hsound.traversable.queues f ih.1 _ hqueue
    cases heq
    have hthis := hsound.tally.count g hmem
    exact ⟨hmem, by omega⟩

omit [DecidableEq S] in
/-- What can be reached can still be reached when no descriptor goes and the queues of the files
that can be reached stay. -/
theorem Sound.reachable_keep {closing' : Option F} (hsound : Sound s closing)
    (htally : Tally s' (fun f ↦ s'.uses f + s'.inFlight f) s'.inFlight closing')
    (huses : ∀ f, s'.uses f = s.uses f) (hsockOf : s'.socketOf = s.socketOf)
    (hqueue : ∀ f x, Reachable s f → s.socketOf f = some x →
      (s'.socket x).rcv = (s.socket x).rcv) {f : F} (hreach : Reachable s f) :
    Reachable s' f := by
  induction hreach with
  | @root f hmem hcount hne =>
    have hold := hsound.tally.count f hmem
    have hmsg := hsound.tally.msgcount f hmem
    have hsame := huses f
    have hmem' := htally.mem f (by omega)
    have hnew := htally.count f hmem'
    have hmsg' := htally.msgcount f hmem'
    exact .root hmem' (by omega) (by omega)
  | @queued f g hreach hg ih =>
    refine .queued ih ?_
    rw [System.queue, hsockOf]
    rw [System.queue] at hg
    cases hx : s.socketOf f with
    | none =>
      rw [hx] at hg
      cases hg
    | some x =>
      rw [hx] at hg
      dsimp only at hg ⊢
      rw [hqueue f x hreach hx]
      exact hg

end Bsd386.Un
