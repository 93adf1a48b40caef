import Bsd386.Kern.Sockbuf.Drop

/-!
# A socket buffer is a list of records

Runs of the routines on a socket buffer. Between the calls others may change its limits and its
lock, and those clusters that no mbuf of it is in. In every state that a run reaches the counters
are those of the mbufs in the queue, and a call does to the list of records what it is for.
-/

namespace Bsd386.Kern.SocketBuffer

variable {B : Type} {s s' : State B}

/-- A call of one of the routines. -/
inductive Op (B : Type) where
  | sbappend (m : Chain B)
  | sbappendrecord (m0 : Chain B)
  | sbinsertoob (m0 : Chain B)
  | sbappendaddr (asa : List B) (m0 control : Chain B) (fresh : Option (List B))
  | sbappendcontrol (m0 control : Chain B)
  | sbdrop (len : ℕ)
  | sbdroprecord
  | sbflush

/-- Run a call. The flag is what `sbappendaddr` and `sbappendcontrol` return. -/
def exec (op : Op B) (s : State B) : Except Fault (State B × Bool) :=
  match op with
  | .sbappend m => do return (← sbappend m s, true)
  | .sbappendrecord m0 => do return (← sbappendrecord m0 s, true)
  | .sbinsertoob m0 => do return (← sbinsertoob m0 s, true)
  | .sbappendaddr asa m0 control fresh => sbappendaddr asa m0 control fresh s
  | .sbappendcontrol m0 control => sbappendcontrol m0 control s
  | .sbdrop len => do return ((← sbdrop len s.1, s.2), true)
  | .sbdroprecord => .ok ((sbdroprecord s.1, s.2), true)
  | .sbflush => do return ((← sbflush s.1, s.2), true)

/-- The mbufs that a call is given are right. -/
def Op.Good (clusters : Clusters B) : Op B → Prop
  | .sbappend m => ∀ m' ∈ m, m'.Good clusters
  | .sbappendrecord m0 => ∀ m' ∈ m0, m'.Good clusters
  | .sbinsertoob m0 => ∀ m' ∈ m0, m'.Good clusters
  | .sbappendaddr _ m0 control fresh =>
    (∀ m' ∈ control ++ m0, m'.Good clusters) ∧ ∀ memory ∈ fresh, memory.length = mlen
  | .sbappendcontrol m0 control => ∀ m' ∈ control ++ m0, m'.Good clusters
  | .sbdrop _ => True
  | .sbdroprecord => True
  | .sbflush => True

/-- The calls that do not make the kernel panic. -/
def Op.Allowed (s : State B) : Op B → Prop
  | .sbappendcontrol _ control => control ≠ []
  | .sbdrop len => len ≤ s.1.sbCc
  | .sbflush => s.1.locked = false
  | _ => True

/-- `sbappendaddr` has the space for it all. -/
def fits (asa : List B) (m0 control : Chain B) (sb : Sockbuf B) : Prop :=
  asa.length + pktLen m0 + chainLen control ≤ sb.sbspace

instance (asa : List B) (m0 control : Chain B) (sb : Sockbuf B) :
    Decidable (fits asa m0 control sb) :=
  inferInstanceAs (Decidable (_ ≤ _))

/-- Add bytes to the last record of a list, if it is to go on, or else as a record. -/
def extendLast (records : List (List B)) (ended : Bool) (new : List B) : List (List B) :=
  if ended then records ++ [new]
  else
    match records.getLast? with
    | some last => records.dropLast ++ [last ++ new]
    | none => [new]

/-- What a call does to the list of records. -/
def Op.Spec (s s' : State B) (done : Bool) : Op B → Prop
  | .sbappend m =>
    done = true ∧ if m = [] then s' = s
    else lastEnded s' = m.any Mbuf.eor ∧
      (denote s' = extendLast (denote s) (lastEnded s) (bytes s.2 m) ∨
        denote s = [] ∧ bytes s.2 m = [] ∧ denote s' = [])
  | .sbappendrecord m0 =>
    done = true ∧ if m0 = [] then s' = s
    else lastEnded s' = m0.any Mbuf.eor ∧ denote s' = denote s ++ [bytes s.2 m0]
  | .sbinsertoob m0 =>
    done = true ∧ if m0 = [] then s' = s
    else denote s' = (s.1.sbMb.takeWhile ledByOob).map (bytes s.2) ++
      bytes s.2 m0 :: (s.1.sbMb.dropWhile ledByOob).map (bytes s.2)
  | .sbappendaddr asa m0 control fresh =>
    done = decide (fits asa m0 control s.1 ∧ asa.length ≤ mlen ∧ fresh.isSome) ∧
      if done then denote s' = denote s ++ [asa ++ bytes s.2 control ++ bytes s.2 m0] else s' = s
  | .sbappendcontrol m0 control =>
    done = decide (fits [] m0 control s.1) ∧
      if done then denote s' = denote s ++ [bytes s.2 control ++ bytes s.2 m0] else s' = s
  | .sbdrop len =>
    done = true ∧ denote s' = dropBytes len (denote s) ∧
      (denote s').flatten = (denote s).flatten.drop len
  | .sbdroprecord => done = true ∧ denote s' = (denote s).tail
  | .sbflush => done = true ∧ denote s' = []

/-- The clusters with data of the queue are as they were. -/
def KeepsQueue (s : State B) (clusters : Clusters B) : Prop :=
  ∀ m ∈ s.1.sbMb.flatten, ∀ ext ∈ m.ext, clusters ext.buf = s.2 ext.buf

/-- The states that a run reaches. -/
inductive Reach : State B → Prop
  | start (sbHiwat sbMbmax : ℤ) (clusters : Clusters B) :
    Reach (⟨0, sbHiwat, 0, sbMbmax, false, []⟩, clusters)
  | call {s s' : State B} {done : Bool} (op : Op B) (hreach : Reach s) (hgood : op.Good s.2)
    (hexec : exec op s = .ok (s', done)) : Reach s'
  | others {s : State B} (sbHiwat sbMbmax : ℤ) (locked : Bool) (clusters : Clusters B)
    (hreach : Reach s) (hkeeps : KeepsQueue s clusters) :
    Reach ({ s.1 with sbHiwat := sbHiwat, sbMbmax := sbMbmax, locked := locked }, clusters)

/-! ### One call -/

theorem extendLast_ended {last : Chain B} {front : List (Chain B)}
    (hqueue : s.1.sbMb = front ++ [last])
    (new : List B) :
    extendLast (denote s) false new = front.map (bytes s.2) ++ [bytes s.2 last ++ new] := by
  rw [denote, hqueue, List.map_append, List.map_singleton, extendLast]
  simp

/-- `sbappend`. -/
theorem sbappend_spec {m : Chain B} (hsound : Sound s) (hm : ∀ m' ∈ m, m'.Good s.2) (hne : m ≠ []) :
    ∃ s', sbappend m s = .ok s' ∧ Sound s' ∧ s'.2 = s.2 ∧ lastEnded s' = m.any Mbuf.eor ∧
      (denote s' = extendLast (denote s) (lastEnded s) (bytes s.2 m) ∨
        denote s = [] ∧ bytes s.2 m = [] ∧ denote s' = []) := by
  rcases List.eq_nil_or_concat s.1.sbMb with hqueue | ⟨front, last, hqueue⟩
  · obtain ⟨s', hrun, hsound', hclusters, hdenote, hended⟩ := sbappend_empty hsound hm hqueue hne
    have hnone : denote s = [] := by rw [denote, hqueue, List.map_nil]
    have hlast :
      lastEnded s = false := by rw [lastEnded, hqueue, List.getLast?_nil, Option.any_none]
    refine ⟨s', hrun, hsound', hclusters, hended, ?_⟩
    rcases hdenote with hnew | ⟨hnew, hbytes⟩
    · apply Or.inl
      rw [hnew, hnone, hlast]
      rfl
    · exact Or.inr ⟨hnone, hbytes, hnew⟩
  · rw [List.concat_eq_append] at hqueue
    have hlast : lastEnded s = last.any Mbuf.eor := by
      rw [lastEnded, hqueue, List.getLast?_concat, Option.any_some]
    by_cases hended : last.any Mbuf.eor = true
    · obtain ⟨s', hrun, hsound', hclusters, hdenote, hmark⟩ := sbappendrecord_spec hsound hm hne
      refine ⟨s', ?_, hsound', hclusters, hmark, Or.inl ?_⟩
      · rw [sbappend, if_neg hne, hqueue, List.getLast?_concat]
        dsimp only
        rw [if_pos hended, hrun]
      · rw [hdenote, hlast, hended, extendLast, if_pos rfl]
    · rw [Bool.not_eq_true] at hended
      obtain ⟨s', hrun, hsound', hclusters, hdenote, hmark⟩ :=
        sbappend_last hsound hm hqueue hended hne
      refine ⟨s', hrun, hsound', hclusters, hmark, Or.inl ?_⟩
      rw [hdenote, hlast, hended, extendLast_ended hqueue]

/-- `sbappendaddr`. -/
theorem sbappendaddr_spec {asa : List B} {m0 control : Chain B} {fresh : Option (List B)}
    (hsound : Sound s) (hgood : ∀ m' ∈ control ++ m0, m'.Good s.2)
    (hfresh : ∀ memory ∈ fresh, memory.length = mlen) :
    ∃ s' done, sbappendaddr asa m0 control fresh s = .ok (s', done) ∧ Sound s' ∧ s'.2 = s.2 ∧
      done = decide (fits asa m0 control s.1 ∧ asa.length ≤ mlen ∧ fresh.isSome) ∧
      if done then denote s' = denote s ++ [asa ++ bytes s.2 control ++ bytes s.2 m0]
        else s' = s := by
  rw [sbappendaddr.eq_def]
  by_cases hspace : s.1.sbspace < asa.length + pktLen m0 + chainLen control
  · rw [if_pos hspace]
    have hfits : ¬fits asa m0 control s.1 := Int.not_le.mpr hspace
    exact ⟨s, false, rfl, hsound, rfl, by simp [hfits], by simp⟩
  have hfits : fits asa m0 control s.1 := Int.not_lt.mp hspace
  rw [if_neg hspace]
  by_cases hlong : mlen < asa.length
  · rw [if_pos hlong]
    refine ⟨s, false, rfl, hsound, rfl, ?_, by simp⟩
    simp [hlong]
  rw [if_neg hlong]
  have hasa := Nat.not_lt.mp hlong
  cases fresh with
  | none => exact ⟨s, false, rfl, hsound, rfl, by simp, by simp⟩
  | some memory =>
    obtain ⟨hsoname, hbytes⟩ := soname_spec s.2 hasa (hfresh memory rfl)
    have hall := hsound.appendChain (List.forall_mem_cons.mpr ⟨hsoname, hgood⟩)
      (List.cons_ne_nil _ _)
    refine ⟨_, true, rfl, ?_, rfl, by simp [hfits, hasa], ?_⟩
    · exact hall.1
    · rw [if_pos rfl]
      have hdenote := hall.2
      rw [bytes_cons, hbytes, bytes_append, ← List.append_assoc] at hdenote
      exact hdenote

/-- `sbappendcontrol`. -/
theorem sbappendcontrol_spec {m0 control : Chain B} (hsound : Sound s)
    (hgood : ∀ m' ∈ control ++ m0, m'.Good s.2) (hne : control ≠ []) :
    ∃ s' done, sbappendcontrol m0 control s = .ok (s', done) ∧ Sound s' ∧ s'.2 = s.2 ∧
      done = decide (fits [] m0 control s.1) ∧
      if done then denote s' = denote s ++ [bytes s.2 control ++ bytes s.2 m0] else s' = s := by
  have hzero : fits [] m0 control s.1 ↔ ¬s.1.sbspace < pktLen m0 + chainLen control := by
    rw [fits, List.length_nil, Int.not_lt]
    simp
  rw [sbappendcontrol, if_neg hne]
  by_cases hspace : s.1.sbspace < pktLen m0 + chainLen control
  · rw [if_pos hspace]
    exact ⟨s, false, rfl, hsound, rfl, by simp [hzero, hspace], by simp⟩
  · rw [if_neg hspace]
    have hall := hsound.appendChain hgood (List.append_ne_nil_of_left_ne_nil hne m0)
    refine ⟨_, true, rfl, hall.1, rfl, by simp [hzero, hspace], ?_⟩
    rw [if_pos rfl, ← bytes_append]
    exact hall.2

/-- A call keeps the counters right and does what it is for, or it panics. -/
theorem exec_spec (op : Op B) (hsound : Sound s) (hgood : op.Good s.2) :
    (op.Allowed s → ∃ s' done, exec op s = .ok (s', done) ∧ Sound s' ∧ s'.2 = s.2 ∧
      op.Spec s s' done) ∧
    (¬op.Allowed s → ∃ message, exec op s = .error (.panic message)) := by
  cases op with
  | sbappend m =>
    refine ⟨fun _ ↦ ?_, fun h ↦ absurd trivial h⟩
    by_cases hne : m = []
    · refine ⟨s, true, ?_, hsound, rfl, rfl, ?_⟩
      · rw [exec, sbappend, if_pos hne]
        rfl
      · rw [if_pos hne]
    · obtain ⟨s', hrun, hsound', hclusters, hspec⟩ := sbappend_spec hsound hgood hne
      refine ⟨s', true, ?_, hsound', hclusters, rfl, ?_⟩
      · rw [exec, hrun]
        rfl
      · rw [if_neg hne]
        exact hspec
  | sbappendrecord m0 =>
    refine ⟨fun _ ↦ ?_, fun h ↦ absurd trivial h⟩
    by_cases hne : m0 = []
    · subst hne
      refine ⟨s, true, rfl, hsound, rfl, rfl, ?_⟩
      rw [if_pos rfl]
    · obtain ⟨s', hrun, hsound', hclusters, hdenote, hmark⟩ := sbappendrecord_spec hsound hgood hne
      refine ⟨s', true, ?_, hsound', hclusters, rfl, ?_⟩
      · rw [exec, hrun]
        rfl
      · rw [if_neg hne]
        exact ⟨hmark, hdenote⟩
  | sbinsertoob m0 =>
    refine ⟨fun _ ↦ ?_, fun h ↦ absurd trivial h⟩
    by_cases hne : m0 = []
    · subst hne
      refine ⟨s, true, rfl, hsound, rfl, rfl, ?_⟩
      rw [if_pos rfl]
    · obtain ⟨s', hrun, hsound', hclusters, hdenote⟩ := sbinsertoob_spec hsound hgood hne
      refine ⟨s', true, ?_, hsound', hclusters, rfl, ?_⟩
      · rw [exec, hrun]
        rfl
      · rw [if_neg hne]
        exact hdenote
  | sbappendaddr asa m0 control fresh =>
    exact ⟨fun _ ↦ sbappendaddr_spec hsound hgood.1 hgood.2, fun h ↦ absurd trivial h⟩
  | sbappendcontrol m0 control =>
    refine ⟨fun hne ↦ sbappendcontrol_spec hsound hgood hne, fun hnil ↦ ⟨"sbappendcontrol", ?_⟩⟩
    rw [exec, sbappendcontrol, if_pos (not_not.mp hnil)]
  | sbdrop len =>
    have hcc := hsound.cc
    constructor
    · intro hlen
      have hle : len ≤ chainLen s.1.sbMb.flatten := by
        rw [Op.Allowed, hcc] at hlen
        exact Int.ofNat_le.mp hlen
      obtain ⟨sb', hrun, hsound', hdenote, -⟩ := sbdrop_spec hsound hle
      refine ⟨(sb', s.2), true, ?_, hsound', rfl, rfl, hdenote, ?_⟩
      · rw [exec, hrun]
        rfl
      · rw [hdenote, flatten_dropBytes]
    · intro hover
      rw [Op.Allowed, hcc, Int.not_le] at hover
      refine ⟨"sbdrop", ?_⟩
      rw [exec, sbdrop_over hsound (Int.ofNat_lt.mp hover)]
      rfl
  | sbdroprecord =>
    obtain ⟨hsound', hdenote⟩ := sbdroprecord_spec hsound
    exact ⟨fun _ ↦ ⟨_, true, rfl, hsound', rfl, rfl, hdenote⟩, fun h ↦ absurd trivial h⟩
  | sbflush =>
    constructor
    · intro hlocked
      obtain ⟨sb', hrun, hsound', hdenote⟩ := sbflush_spec hsound hlocked
      refine ⟨(sb', s.2), true, ?_, hsound', rfl, rfl, hdenote⟩
      rw [exec, hrun]
      rfl
    · intro hlocked
      refine ⟨"sbflush", ?_⟩
      rw [Op.Allowed, Bool.not_eq_false] at hlocked
      rw [exec, sbflush, if_pos hlocked]
      rfl

/-! ### Runs -/

theorem Sound.others {sbHiwat sbMbmax : ℤ} {locked : Bool} {clusters : Clusters B}
    (hsound : Sound s)
    (hkeeps : KeepsQueue s clusters) :
    Sound ({ s.1 with sbHiwat := sbHiwat, sbMbmax := sbMbmax, locked := locked }, clusters) := by
  refine ⟨hsound.cc, hsound.mbcnt, hsound.nonempty, ?_⟩
  intro m hm
  have hold := hsound.good m hm
  have hstorage : m.storage clusters = m.storage s.2 := by
    rw [Mbuf.storage, Mbuf.storage]
    cases hext : m.ext with
    | none => rfl
    | some ext => exact hkeeps m hm ext hext
  refine ⟨?_, hold.mlen_eq⟩
  rw [hstorage]
  exact hold.inside

theorem Reach.sound (hreach : Reach s) : Sound s := by
  induction hreach with
  | start sbHiwat sbMbmax clusters =>
    exact ⟨rfl, rfl, List.forall_mem_nil _, List.forall_mem_nil _⟩
  | @call s s' done op hreach hgood hexec ih =>
    obtain ⟨hallowed, hpanic⟩ := exec_spec op ih hgood
    by_cases hop : op.Allowed s
    · obtain ⟨s₁, done₁, hrun, hsound, -⟩ := hallowed hop
      rw [hexec] at hrun
      cases hrun
      exact hsound
    · obtain ⟨message, hrun⟩ := hpanic hop
      rw [hexec] at hrun
      exact nomatch hrun
  | others sbHiwat sbMbmax locked clusters hreach hkeeps ih => exact ih.others hkeeps

/-- In each state that a run reaches `sb_cc` and `sb_mbcnt` are right. A call that is allowed leaves
the clusters alone and does what it is for to the records; any other one panics. -/
theorem socket_buffer_refinement (hreach : Reach s) :
    s.1.sbCc = (s.1.sbMb.flatten.map Mbuf.mLen).sum ∧
    s.1.sbMbcnt = (s.1.sbMb.flatten.map Mbuf.space).sum ∧
    ∀ op : Op B, op.Good s.2 →
      (op.Allowed s → ∃ s' done, exec op s = .ok (s', done) ∧ s'.2 = s.2 ∧ op.Spec s s' done) ∧
      (¬op.Allowed s → ∃ message, exec op s = .error (.panic message)) := by
  have hsound := hreach.sound
  refine ⟨hsound.cc, hsound.mbcnt, ?_⟩
  intro op hgood
  obtain ⟨hallowed, hpanic⟩ := exec_spec op hsound hgood
  refine ⟨?_, hpanic⟩
  intro hop
  obtain ⟨s', done, hrun, -, hspec⟩ := hallowed hop
  exact ⟨s', done, hrun, hspec⟩

/-- An mbuf with two bytes. -/
def pair : Mbuf ℕ := ⟨2, 0, 1, false, 2, none, List.replicate mlen 7⟩

theorem pair_good (clusters : Clusters ℕ) : ∀ m ∈ [pair], m.Good clusters := by
  intro m hm
  rw [List.mem_singleton.mp hm]
  exact ⟨show 0 + 2 ≤ pair.mDat.length by decide, by decide⟩

theorem pair_refinement :
    ∃ s' done,
      exec (.sbdrop 1) (⟨2, 100, 128, 1000, false, [[pair]]⟩, fun _ ↦ []) = .ok (s', done) ∧
      denote s' = [[7]] := by
  have hstart : Reach (⟨0, 100, 0, 1000, false, []⟩, fun _ ↦ ([] : List ℕ)) := .start 100 1000 _
  have hreach : Reach (⟨2, 100, 128, 1000, false, [[pair]]⟩, fun _ ↦ ([] : List ℕ)) :=
    hstart.call (.sbappend [pair]) (pair_good _) rfl
  have hlen : (1 : ℤ) ≤ 2 := by decide
  obtain ⟨-, -, hops⟩ := socket_buffer_refinement hreach
  obtain ⟨s', done, hrun, -, -, hdenote, -⟩ := (hops (.sbdrop 1) trivial).1 hlen
  exact ⟨s', done, hrun, hdenote⟩

end Bsd386.Kern.SocketBuffer
