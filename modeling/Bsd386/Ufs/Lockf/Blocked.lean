import Mathlib.Data.List.Nodup
import Bsd386.Ufs.Lockf.Requests

/-!
# Blocked requests

A request that sleeps is on the blocked list of the lock that its `lf_next` names. This holds along
every run in which no call takes over a lock that has waiters and no process goes on, after a
signal, while its request is still on a blocked list: in both cases a freed structure stays in use.
-/

namespace Bsd386.Ufs

open Function

variable {A P F I : Type}

namespace LockState

section Careful

variable [DecidableEq P] [DecidableEq F]

/-- What has to hold of a request when it is granted. -/
def CarefulSet (s : LockState A P F I) (i : I) (splitlock : A) (lock : Lockf A (Owner P F)) :
    Prop :=
  Fits (s.lockf i) (.set splitlock lock) ∧
    (lfGetblock lock (s.lockf i) = none → NoTakeover lock (s.lockf i))

/-- Requests are ranges that do not run into the last byte below an owner's lock without a bound, a
granted request takes over no lock that has waiters, and a process whose sleep ends has been
woken. -/
def Careful (s : LockState A P F I) : Event A P F I → Prop
  | .setlock _ i _ splitlock lock => s.CarefulSet i splitlock lock
  | .clearlock _ i splitlock unlock => Fits (s.lockf i) (.clear splitlock unlock)
  | .resume p splitlock => ∀ w, s.waiters p = some w →
      w.lfNext = none ∧ s.CarefulSet w.inode splitlock w.lock
  | .interrupt p => ∀ w, s.waiters p = some w → w.lfNext = none
  | .signal _ => True

end Careful

/-- What holds of every state: the lists are tables of allocated structures, each once and apart
from the requests of the waiters, and every waiter with an `lf_next` is on the blocked list of the
lock there and on no other. -/
structure Queued (s : LockState A P F I) : Prop where
  table : ∀ i, Table (s.lockf i)
  nodup : ∀ i, ((s.lockf i).map Lockf.addr).Nodup
  apart : ∀ i j, ∀ a ∈ (s.lockf i).map Lockf.addr, a ∈ (s.lockf j).map Lockf.addr → i = j
  linked : ∀ i, ∀ lf ∈ s.lockf i, s.structs lf.addr = some lf.lfId
  request : ∀ p w, s.waiters p = some w → s.structs w.lock.addr = some w.lock.lfId
  unlinked : ∀ p w i, s.waiters p = some w → w.lock.addr ∉ (s.lockf i).map Lockf.addr
  asked : ∀ p w, s.waiters p = some w → w.lock.AskedBy p ∧ w.lock.lfBlock = []
  distinct : ∀ p q w w', s.waiters p = some w → s.waiters q = some w' →
    w.lock.addr = w'.lock.addr → p = q
  once : ∀ i, (blockedOn (s.lockf i)).Nodup
  waits : ∀ i, ∀ lf ∈ s.lockf i, ∀ x ∈ lf.lfBlock, ∃ p w, s.waiters p = some w ∧
    w.lock.addr = x ∧ w.inode = i ∧ w.lfNext = some lf.addr
  queued : ∀ p w a, s.waiters p = some w → w.lfNext = some a →
    ∃ lf ∈ s.lockf w.inode, lf.addr = a ∧ w.lock.addr ∈ lf.lfBlock
  asleep : ∀ p w, s.waiters p = some w → w.asleep = true → w.lfNext ≠ none

/-- A structure that is allocated for an owner and in use nowhere. -/
structure Spare (s : LockState A P F I) (a : A) (own : Owner P F) : Prop where
  request : s.structs a = some own
  unlinked : ∀ i, a ∉ (s.lockf i).map Lockf.addr
  distinct : ∀ q w, s.waiters q = some w → w.lock.addr ≠ a

section Steps

variable {s : LockState A P F I} {lock block : Lockf A (Owner P F)} {p : P} {i : I} {a : A}
  {w : Waiter A P F I}

theorem Initial.queued (h : s.Initial) : s.Queued where
  table i := h.1 i ▸ table_nil
  nodup i := h.1 i ▸ List.nodup_nil
  apart i j a ha := by
    rw [h.1 i] at ha
    exact absurd ha List.not_mem_nil
  linked i lf hlf := by
    rw [h.1 i] at hlf
    exact absurd hlf List.not_mem_nil
  request p w hw := by
    rw [h.2 p] at hw
    cases hw
  unlinked p w i hw := by
    rw [h.2 p] at hw
    cases hw
  asked p w hw := by
    rw [h.2 p] at hw
    cases hw
  distinct p q w w' hw := by
    rw [h.2 p] at hw
    cases hw
  once i := h.1 i ▸ List.nodup_nil
  waits i lf hlf := by
    rw [h.1 i] at hlf
    exact absurd hlf List.not_mem_nil
  queued p w a hw := by
    rw [h.2 p] at hw
    cases hw
  asleep p w hw := by
    rw [h.2 p] at hw
    cases hw

/-- A structure that is not allocated is on no list and is nobody's request. -/
theorem Queued.unused (h : s.Queued) (ha : s.structs a = none) :
    (∀ i, a ∉ (s.lockf i).map Lockf.addr) ∧ ∀ q w, s.waiters q = some w → w.lock.addr ≠ a := by
  refine ⟨fun i hmem ↦ ?_, fun q w hw heq ↦ ?_⟩
  · obtain ⟨lf, hlf, rfl⟩ := List.mem_map.1 hmem
    rw [h.linked i lf hlf] at ha
    cases ha
  · have hrequest := h.request q w hw
    rw [heq, ha] at hrequest
    cases hrequest

/-- Only what is in use matters of the memory. -/
theorem Queued.congr_structs {structs : A → Option (Owner P F)} (h : s.Queued)
    (hlinked : ∀ i, ∀ lf ∈ s.lockf i, structs lf.addr = s.structs lf.addr)
    (hrequest : ∀ q w, s.waiters q = some w → structs w.lock.addr = s.structs w.lock.addr) :
    Queued { s with structs } :=
  { h with
    linked := fun i lf hlf ↦ (hlinked i lf hlf).trans (h.linked i lf hlf)
    request := fun q w hw ↦ (hrequest q w hw).trans (h.request q w hw) }

section Waiters

variable [DecidableEq P]

@[simp]
theorem run_waiters_self (s : LockState A P F I) (p : P) : (s.run p).waiters p = none :=
  update_self _ _ _

theorem run_waiters_of_ne {q : P} (hne : q ≠ p) : (s.run p).waiters q = s.waiters q :=
  update_of_ne hne _ _

theorem run_waiters_eq_some {q : P} {w' : Waiter A P F I} (hw' : (s.run p).waiters q = some w') :
    q ≠ p ∧ s.waiters q = some w' := by
  rcases eq_or_ne q p with rfl | hne
  · rw [run_waiters_self] at hw'
    cases hw'
  · rw [run_waiters_of_ne hne] at hw'
    exact ⟨hne, hw'⟩

/-- A process whose request is on no blocked list leaves `tsleep` with a spare request. -/
theorem Queued.run (h : s.Queued) (hw : s.waiters p = some w) (hnext : w.lfNext = none) :
    (s.run p).Queued ∧ (s.run p).Spare w.lock.addr w.lock.lfId := by
  have hrest : ∀ q w', (s.run p).waiters q = some w' → s.waiters q = some w' :=
    fun q w' hw' ↦ (run_waiters_eq_some hw').2
  refine ⟨{ h with
    request := fun q w' hw' ↦ h.request q w' (hrest q w' hw')
    unlinked := fun q w' i hw' ↦ h.unlinked q w' i (hrest q w' hw')
    asked := fun q w' hw' ↦ h.asked q w' (hrest q w' hw')
    distinct := fun q r w' w'' hw' hw'' ↦ h.distinct q r w' w'' (hrest q w' hw') (hrest r w'' hw'')
    waits := fun i lf hlf x hx ↦ ?_
    queued := fun q w' a hw' ↦ h.queued q w' a (hrest q w' hw')
    asleep := fun q w' hw' ↦ h.asleep q w' (hrest q w' hw') }, h.request p w hw,
    fun i ↦ h.unlinked p w i hw, fun q w' hw' heq ↦ ?_⟩
  · obtain ⟨q, w', hw', hx, hinode, hlfNext⟩ := h.waits i lf hlf x hx
    have hne : q ≠ p := by
      rintro rfl
      rw [hw] at hw'
      cases hw'
      rw [hnext] at hlfNext
      cases hlfNext
    exact ⟨q, w', (run_waiters_of_ne hne).trans hw', hx, hinode, hlfNext⟩
  · obtain ⟨hne, hw'⟩ := run_waiters_eq_some hw'
    exact hne (h.distinct q p w' w hw' hw heq)

/-- A signal wakes the process, but its request stays where it is. -/
theorem Queued.signal (h : s.Queued) (hw : s.waiters p = some w) :
    Queued { s with waiters := update s.waiters p (some { w with asleep := false }) } := by
  set waiters := update s.waiters p (some { w with asleep := false }) with hwaiters
  have hold : ∀ q w', waiters q = some w' → ∃ w'', s.waiters q = some w'' ∧
      w'.lock = w''.lock ∧ w'.inode = w''.inode ∧ w'.lfNext = w''.lfNext ∧
      (w'.asleep = true → w''.asleep = true) := by
    intro q w' hw'
    rcases eq_or_ne q p with rfl | hne
    · rw [hwaiters, update_self] at hw'
      obtain rfl := Option.some.inj hw'
      exact ⟨w, hw, rfl, rfl, rfl, fun hasleep ↦ nomatch hasleep⟩
    · rw [hwaiters, update_of_ne hne] at hw'
      exact ⟨w', hw', rfl, rfl, rfl, id⟩
  refine { h with
    request := fun q w' hw' ↦ ?_
    unlinked := fun q w' i hw' ↦ ?_
    asked := fun q w' hw' ↦ ?_
    distinct := fun q r w' w'' hw' hw'' heq ↦ ?_
    waits := fun i lf hlf x hx ↦ ?_
    queued := fun q w' a hw' hnext ↦ ?_
    asleep := fun q w' hw' hasleep ↦ ?_ }
  · obtain ⟨v, hv, hlock, -⟩ := hold q w' hw'
    exact hlock ▸ h.request q v hv
  · obtain ⟨v, hv, hlock, -⟩ := hold q w' hw'
    exact hlock ▸ h.unlinked q v i hv
  · obtain ⟨v, hv, hlock, -⟩ := hold q w' hw'
    exact hlock ▸ h.asked q v hv
  · obtain ⟨v, hv, hlock, -⟩ := hold q w' hw'
    obtain ⟨v', hv', hlock', -⟩ := hold r w'' hw''
    exact h.distinct q r v v' hv hv' (hlock ▸ hlock' ▸ heq)
  · obtain ⟨q, v, hv, hx, hinode, hnext⟩ := h.waits i lf hlf x hx
    rcases eq_or_ne q p with rfl | hne
    · rw [hw] at hv
      obtain rfl := Option.some.inj hv
      exact ⟨q, _, update_self _ _ _, hx, hinode, hnext⟩
    · exact ⟨q, v, (update_of_ne hne _ _).trans hv, hx, hinode, hnext⟩
  · obtain ⟨v, hv, hlock, hinode, hsame, -⟩ := hold q w' hw'
    rw [hlock, hinode]
    exact h.queued q v a hv (hsame ▸ hnext)
  · obtain ⟨v, hv, -, -, hsame, hasleep'⟩ := hold q w' hw'
    rw [hsame]
    exact h.asleep q v hv (hasleep' hasleep)

end Waiters

section Structs

variable [DecidableEq A]

theorem Queued.update_structs (h : s.Queued) (o : Option (Owner P F))
    (hunlinked : ∀ i, a ∉ (s.lockf i).map Lockf.addr)
    (hdistinct : ∀ q w, s.waiters q = some w → w.lock.addr ≠ a) :
    Queued { s with structs := update s.structs a o } := by
  refine h.congr_structs (fun i lf hlf ↦ update_of_ne ?_ _ _) fun q w hw ↦ update_of_ne ?_ _ _
  · rintro rfl
    exact hunlinked i (List.mem_map_of_mem hlf)
  · exact hdistinct q w hw

theorem Queued.free {own : Owner P F} (h : s.Queued) (hspare : s.Spare a own) :
    (s.free a).Queued :=
  h.update_structs none hspare.unlinked hspare.distinct

/-- A request that has been allocated is spare. -/
theorem Queued.alloc (h : s.Queued) (hlock : s.structs lock.addr = none) :
    (s.alloc lock).Queued ∧ (s.alloc lock).Spare lock.addr lock.lfId := by
  obtain ⟨hunlinked, hdistinct⟩ := h.unused hlock
  exact ⟨h.update_structs _ hunlinked hdistinct, update_self _ _ _, hunlinked, hdistinct⟩

end Structs

section Lists

variable [DecidableEq A] [DecidableEq I] {u : Update A (Owner P F)} {own : Owner P F}
  {splitlock : A} {new : List A}

theorem change_lockf_self : (s.change i own u).lockf i = u.list := update_self _ _ _

theorem change_lockf_of_ne {j : I} (hne : j ≠ i) : (s.change i own u).lockf j = s.lockf j :=
  update_of_ne hne _ _

/-- A waiter of the new state is one of the old state, and is the same unless it has been woken. -/
theorem change_waiters {q : P} {w' : Waiter A P F I}
    (hw' : (s.change i own u).waiters q = some w') :
    ∃ w, s.waiters q = some w ∧ w'.lock = w.lock ∧ w'.inode = w.inode ∧
      (w.lock.addr ∈ u.woken ∧ w'.lfNext = none ∧ w'.asleep = false ∨
        w.lock.addr ∉ u.woken ∧ w' = w) := by
  obtain ⟨w, hw, rfl⟩ := Option.map_eq_some_iff.1 hw'
  refine ⟨w, hw, ?_⟩
  split_ifs with hwoken
  · exact ⟨rfl, rfl, Or.inl ⟨hwoken, rfl, rfl⟩⟩
  · exact ⟨rfl, rfl, Or.inr ⟨hwoken, rfl⟩⟩

theorem change_waiters_of_notMem {q : P} (hw : s.waiters q = some w)
    (hwoken : w.lock.addr ∉ u.woken) : (s.change i own u).waiters q = some w := by
  change (s.waiters q).map _ = some w
  rw [hw, Option.map_some, if_neg hwoken]

section Change

variable (h : s.Queued) (hmoves : u.Moves splitlock new own (s.lockf i))
  (hnew : ∀ a ∈ new, s.Spare a own) (hnodup : new.Nodup) (hsplit : s.structs splitlock = none)

include hmoves

omit [DecidableEq A] [DecidableEq I] in
theorem eq_of_mem_made (ha : a ∈ u.made) : a = splitlock :=
  List.mem_singleton.1 (hmoves.made.subset ha)

omit [DecidableEq A] [DecidableEq I] in
theorem touched_of_mem_list (ha : a ∈ u.list.map Lockf.addr) :
    a ∈ new ++ u.made ++ (s.lockf i).map Lockf.addr :=
  hmoves.addrs.subset (List.mem_append_left u.freed ha)

omit [DecidableEq A] [DecidableEq I] in
theorem touched_of_mem_freed (ha : a ∈ u.freed) :
    a ∈ new ++ u.made ++ (s.lockf i).map Lockf.addr :=
  hmoves.addrs.subset (List.mem_append_right _ ha)

theorem change_structs_of_untouched (ha : a ∉ new ++ u.made ++ (s.lockf i).map Lockf.addr) :
    (s.change i own u).structs a = s.structs a := by
  change (if a ∈ u.made then some own else if a ∈ u.freed then none else s.structs a) = _
  rw [if_neg, if_neg]
  · exact fun hfreed ↦ ha (touched_of_mem_freed hmoves hfreed)
  · exact fun hmade ↦ ha (List.mem_append_left _ (List.mem_append_right new hmade))

include h

omit [DecidableEq A] [DecidableEq I] in
/-- The requests on the changed list are those that have not been woken. -/
theorem change_blocked : (blockedOn u.list ++ u.woken).Nodup :=
  hmoves.waiters.nodup_iff.2 (h.once i)

theorem change_waits (j : I) {lf : Lockf A (Owner P F)} (hlf : lf ∈ (s.change i own u).lockf j)
    {x : A} (hx : x ∈ lf.lfBlock) : ∃ p w, (s.change i own u).waiters p = some w ∧
      w.lock.addr = x ∧ w.inode = j ∧ w.lfNext = some lf.addr := by
  rcases eq_or_ne j i with rfl | hne
  · rw [change_lockf_self] at hlf
    rcases hmoves.stays lf hlf with ⟨old, hold, haddr, -, hsub⟩ | ⟨hnil, -⟩
    · obtain ⟨p, w, hw, rfl, hinode, hnext⟩ := h.waits j old hold x (hsub hx)
      have hwoken : w.lock.addr ∉ u.woken := fun hwoken ↦
        (List.nodup_append.1 (change_blocked h hmoves)).2.2 _ (mem_blockedOn.2 ⟨lf, hlf, hx⟩) _
          hwoken rfl
      exact ⟨p, w, change_waiters_of_notMem hw hwoken, rfl, hinode, haddr ▸ hnext⟩
    · rw [hnil] at hx
      exact absurd hx List.not_mem_nil
  · rw [change_lockf_of_ne hne] at hlf
    obtain ⟨p, w, hw, rfl, hinode, hnext⟩ := h.waits j lf hlf x hx
    have hwoken : w.lock.addr ∉ u.woken := by
      intro hwoken
      obtain ⟨old, hold, hmem⟩ := mem_blockedOn.1
        (hmoves.waiters.subset (List.mem_append_right _ hwoken))
      obtain ⟨q, v, hv, haddr, hinode', -⟩ := h.waits i old hold _ hmem
      obtain rfl := h.distinct q p v w hv hw haddr
      rw [hw] at hv
      obtain rfl := Option.some.inj hv
      exact hne (hinode.symm.trans hinode')
    exact ⟨p, w, change_waiters_of_notMem hw hwoken, rfl, hinode, hnext⟩

include hnew hsplit

omit [DecidableEq A] [DecidableEq I] in
/-- A structure that the change touches is no waiter's request. -/
theorem ne_of_touched (ha : a ∈ new ++ u.made ++ (s.lockf i).map Lockf.addr) {q : P}
    (hw : s.waiters q = some w) : w.lock.addr ≠ a := by
  rcases List.mem_append.1 ha with ha | ha
  · rcases List.mem_append.1 ha with ha | ha
    · exact (hnew a ha).distinct q w hw
    · rw [eq_of_mem_made hmoves ha]
      exact (h.unused hsplit).2 q w hw
  · rintro rfl
    exact h.unlinked q w i hw ha

omit [DecidableEq A] [DecidableEq I] in
/-- A structure that the change touches is on no list of another inode. -/
theorem notMem_of_touched (ha : a ∈ new ++ u.made ++ (s.lockf i).map Lockf.addr) {j : I}
    (hne : j ≠ i) : a ∉ (s.lockf j).map Lockf.addr := by
  rcases List.mem_append.1 ha with ha | ha
  · rcases List.mem_append.1 ha with ha | ha
    · exact (hnew a ha).unlinked j
    · rw [eq_of_mem_made hmoves ha]
      exact (h.unused hsplit).1 j
  · exact fun hmem ↦ hne (h.apart j i a hmem ha)

include hnodup

omit [DecidableEq A] [DecidableEq I] in
theorem nodup_touched : (u.list.map Lockf.addr ++ u.freed).Nodup := by
  refine hmoves.addrs.nodup_iff.2 (List.nodup_append.2 ⟨List.nodup_append.2 ⟨hnodup,
    hmoves.made.nodup (List.nodup_singleton splitlock), fun a ha b hb heq ↦ ?_⟩, h.nodup i,
    fun a ha b hb heq ↦ ?_⟩)
  · have hrequest := (hnew a ha).request
    rw [heq, eq_of_mem_made hmoves hb, hsplit] at hrequest
    cases hrequest
  · subst heq
    rcases List.mem_append.1 ha with ha | ha
    · exact (hnew a ha).unlinked i hb
    · rw [eq_of_mem_made hmoves ha] at hb
      exact (h.unused hsplit).1 i hb

/-- A structure on the changed list is allocated for its owner. -/
theorem change_linked {lf : Lockf A (Owner P F)} (hlf : lf ∈ u.list) :
    (s.change i own u).structs lf.addr = some lf.lfId := by
  have hmem : lf.addr ∈ u.list.map Lockf.addr := List.mem_map_of_mem hlf
  have hfreed : lf.addr ∉ u.freed := fun hfreed ↦
    (List.nodup_append.1 (nodup_touched h hmoves hnew hnodup hsplit)).2.2 _ hmem _ hfreed rfl
  change (if lf.addr ∈ u.made then some own else if lf.addr ∈ u.freed then none
    else s.structs lf.addr) = _
  rw [if_neg hfreed]
  rcases hmoves.stays lf hlf with ⟨old, hold, haddr, hid, -⟩ | ⟨-, haddr, hid⟩
  · have hstructs := h.linked i old hold
    rw [haddr, hid] at hstructs
    rw [if_neg, hstructs]
    intro hmade
    rw [eq_of_mem_made hmoves hmade, hsplit] at hstructs
    cases hstructs
  · rcases List.mem_append.1 haddr with haddr | haddr
    · rw [hid, (hnew _ haddr).request]
      exact ite_self _
    · rw [if_pos haddr, hid]

/-- A change that moves no waiter to another lock keeps every request on its list. -/
theorem Queued.change (htable : Table u.list) : (s.change i own u).Queued where
  table j := by
    rcases eq_or_ne j i with rfl | hne
    · rw [change_lockf_self]
      exact htable
    · rw [change_lockf_of_ne hne]
      exact h.table j
  nodup j := by
    rcases eq_or_ne j i with rfl | hne
    · rw [change_lockf_self]
      exact (List.nodup_append.1 (nodup_touched h hmoves hnew hnodup hsplit)).1
    · rw [change_lockf_of_ne hne]
      exact h.nodup j
  apart j k a ha ha' := by
    rcases eq_or_ne j i with rfl | hj
    · by_contra hne
      rw [change_lockf_self] at ha
      rw [change_lockf_of_ne (Ne.symm hne)] at ha'
      exact notMem_of_touched h hmoves hnew hsplit (touched_of_mem_list hmoves ha) (Ne.symm hne) ha'
    · rw [change_lockf_of_ne hj] at ha
      rcases eq_or_ne k i with rfl | hk
      · rw [change_lockf_self] at ha'
        exact absurd ha
          (notMem_of_touched h hmoves hnew hsplit (touched_of_mem_list hmoves ha') hj)
      · rw [change_lockf_of_ne hk] at ha'
        exact h.apart j k a ha ha'
  linked j lf hlf := by
    rcases eq_or_ne j i with rfl | hne
    · rw [change_lockf_self] at hlf
      exact change_linked h hmoves hnew hnodup hsplit hlf
    · rw [change_lockf_of_ne hne] at hlf
      rw [change_structs_of_untouched hmoves]
      · exact h.linked j lf hlf
      · exact fun ha ↦ notMem_of_touched h hmoves hnew hsplit ha hne (List.mem_map_of_mem hlf)
  request p w hw := by
    obtain ⟨v, hv, hlock, -⟩ := change_waiters hw
    rw [hlock, change_structs_of_untouched hmoves]
    · exact h.request p v hv
    · exact fun ha ↦ ne_of_touched h hmoves hnew hsplit ha hv rfl
  unlinked p w j hw hmem := by
    obtain ⟨v, hv, hlock, -⟩ := change_waiters hw
    rw [hlock] at hmem
    rcases eq_or_ne j i with rfl | hne
    · rw [change_lockf_self] at hmem
      exact ne_of_touched h hmoves hnew hsplit (touched_of_mem_list hmoves hmem) hv rfl
    · rw [change_lockf_of_ne hne] at hmem
      exact h.unlinked p v j hv hmem
  asked p w hw := by
    obtain ⟨v, hv, hlock, -⟩ := change_waiters hw
    exact hlock ▸ h.asked p v hv
  distinct p q w w' hw hw' heq := by
    obtain ⟨v, hv, hlock, -⟩ := change_waiters hw
    obtain ⟨v', hv', hlock', -⟩ := change_waiters hw'
    exact h.distinct p q v v' hv hv' (hlock ▸ hlock' ▸ heq)
  once j := by
    rcases eq_or_ne j i with rfl | hne
    · rw [change_lockf_self]
      exact (List.nodup_append.1 (change_blocked h hmoves)).1
    · rw [change_lockf_of_ne hne]
      exact h.once j
  waits j lf hlf x hx := change_waits h hmoves j hlf hx
  queued p w a hw hnext := by
    obtain ⟨v, hv, hlock, hinode, ⟨-, hnone, -⟩ | ⟨hwoken, rfl⟩⟩ := change_waiters hw
    · rw [hnone] at hnext
      cases hnext
    obtain ⟨old, hold, haddr, hmem⟩ := h.queued p w a hv hnext
    rcases eq_or_ne w.inode i with hi | hne
    · rw [hi] at hold ⊢
      rw [change_lockf_self]
      have hblocked := hmoves.waiters.symm.subset (mem_blockedOn.2 ⟨old, hold, hmem⟩)
      obtain ⟨lf, hlf, hx⟩ := mem_blockedOn.1 ((List.mem_append.1 hblocked).resolve_right hwoken)
      have hnew : lf ∈ (s.change i own u).lockf i := by
        rw [change_lockf_self]
        exact hlf
      obtain ⟨q, v', hv', hsame, -, hnext'⟩ := change_waits h hmoves i hnew hx
      obtain ⟨v'', hv'', hlock', -⟩ := change_waiters hv'
      obtain rfl := h.distinct q p v'' w hv'' hv (hlock' ▸ hsame)
      rw [hw] at hv'
      obtain rfl := Option.some.inj hv'
      rw [hnext] at hnext'
      exact ⟨lf, hlf, (Option.some.inj hnext').symm, hx⟩
    · refine ⟨old, ?_, haddr, hmem⟩
      rw [change_lockf_of_ne hne]
      exact hold
  asleep p w hw hasleep := by
    obtain ⟨v, hv, -, -, ⟨-, -, hwake⟩ | ⟨-, rfl⟩⟩ := change_waiters hw
    · rw [hwake] at hasleep
      cases hasleep
    · exact h.asleep p w hv hasleep

end Change

/-! ### Going to sleep -/

section Sleep

variable [DecidableEq P]

theorem mem_sleep_lockf {j : I} {lf' : Lockf A (Owner P F)} :
    lf' ∈ (s.sleep p i lock block).lockf j ↔ ∃ lf ∈ s.lockf j,
      lf' = if j = i ∧ lf.addr = block.addr then { lf with lfBlock := lf.lfBlock ++ [lock.addr] }
        else lf := by
  rcases eq_or_ne j i with rfl | hne
  · change lf' ∈ update s.lockf j _ j ↔ _
    rw [update_self, lfAddblock, List.mem_map]
    simp only [true_and, eq_comm]
  · change lf' ∈ update s.lockf i _ j ↔ _
    rw [update_of_ne hne]
    simp only [hne, false_and, if_false, exists_eq_right']

theorem map_addr_sleep (j : I) :
    ((s.sleep p i lock block).lockf j).map Lockf.addr = (s.lockf j).map Lockf.addr := by
  change (update s.lockf i _ j).map Lockf.addr = _
  rcases eq_or_ne j i with rfl | hne
  · rw [update_self, map_addr_lfAddblock]
  · rw [update_of_ne hne]

theorem sleep_waiters_self : (s.sleep p i lock block).waiters p =
    some { lock, inode := i, lfNext := some block.addr, asleep := true } :=
  update_self _ _ _

theorem sleep_waiters_of_ne {q : P} (hne : q ≠ p) :
    (s.sleep p i lock block).waiters q = s.waiters q := update_of_ne hne _ _

/-- What was true of every waiter is true of every waiter when it is true of the new one. -/
theorem sleep_waiters_forall {cond : P → Waiter A P F I → Prop}
    (hold : ∀ q w, s.waiters q = some w → cond q w)
    (hnew : cond p { lock, inode := i, lfNext := some block.addr, asleep := true }) (q : P)
    (w : Waiter A P F I) (hw : (s.sleep p i lock block).waiters q = some w) : cond q w := by
  rcases eq_or_ne q p with rfl | hne
  · rw [sleep_waiters_self] at hw
    exact Option.some.inj hw ▸ hnew
  · rw [sleep_waiters_of_ne hne] at hw
    exact hold q w hw

/-- A request that goes to sleep is on the blocked list of the lock that blocks it. -/
theorem Queued.sleep (h : s.Queued) (hspare : s.Spare lock.addr lock.lfId)
    (hrun : s.waiters p = none) (hasked : lock.AskedBy p) (hnil : lock.lfBlock = [])
    (hblock : block.addr ∈ (s.lockf i).map Lockf.addr) : (s.sleep p i lock block).Queued where
  table j := by
    change Table (update s.lockf i _ j)
    rcases eq_or_ne j i with rfl | hne
    · rw [update_self]
      exact (h.table j).lfAddblock _ _
    · rw [update_of_ne hne]
      exact h.table j
  nodup j := by
    rw [map_addr_sleep]
    exact h.nodup j
  apart j k a ha ha' := by
    rw [map_addr_sleep] at ha ha'
    exact h.apart j k a ha ha'
  linked j lf hlf := by
    obtain ⟨old, hold, rfl⟩ := mem_sleep_lockf.1 hlf
    split_ifs
    · exact h.linked j old hold
    · exact h.linked j old hold
  request := sleep_waiters_forall h.request hspare.request
  unlinked q w j hw := by
    rw [map_addr_sleep]
    exact sleep_waiters_forall (fun q w hw ↦ h.unlinked q w j hw) (hspare.unlinked j) q w hw
  asked := sleep_waiters_forall h.asked ⟨hasked, hnil⟩
  distinct q r w w' hw hw' heq := by
    rcases eq_or_ne q p with rfl | hq
    · rcases eq_or_ne r q with rfl | hr
      · rfl
      · rw [sleep_waiters_self] at hw
        rw [sleep_waiters_of_ne hr] at hw'
        obtain rfl := Option.some.inj hw
        exact absurd heq.symm (hspare.distinct r w' hw')
    · rw [sleep_waiters_of_ne hq] at hw
      rcases eq_or_ne r p with rfl | hr
      · rw [sleep_waiters_self] at hw'
        obtain rfl := Option.some.inj hw'
        exact absurd heq (hspare.distinct q w hw)
      · rw [sleep_waiters_of_ne hr] at hw'
        exact h.distinct q r w w' hw hw' heq
  once j := by
    change (blockedOn (update s.lockf i _ j)).Nodup
    rcases eq_or_ne j i with rfl | hne
    · rw [update_self, (blockedOn_lfAddblock (h.nodup j) hblock).nodup_iff]
      refine List.nodup_cons.2 ⟨fun hmem ↦ ?_, h.once j⟩
      obtain ⟨lf, hlf, hx⟩ := mem_blockedOn.1 hmem
      obtain ⟨q, w, hw, haddr, -⟩ := h.waits j lf hlf _ hx
      exact hspare.distinct q w hw haddr
    · rw [update_of_ne hne]
      exact h.once j
  waits j lf hlf x hx := by
    obtain ⟨old, hold, rfl⟩ := mem_sleep_lockf.1 hlf
    have hwaits : ∀ y ∈ old.lfBlock, ∃ q w, (s.sleep p i lock block).waiters q = some w ∧
        w.lock.addr = y ∧ w.inode = j ∧ w.lfNext = some old.addr := by
      intro y hy
      obtain ⟨q, w, hw, hwait⟩ := h.waits j old hold y hy
      have hne : q ≠ p := by
        rintro rfl
        rw [hrun] at hw
        cases hw
      exact ⟨q, w, (sleep_waiters_of_ne hne).trans hw, hwait⟩
    split_ifs at hx ⊢ with hcase
    · rcases List.mem_append.1 hx with hx | hx
      · exact hwaits x hx
      · rw [List.mem_singleton.1 hx, hcase.1, hcase.2]
        exact ⟨p, _, sleep_waiters_self, rfl, rfl, rfl⟩
    · exact hwaits x hx
  queued q w a hw hnext := by
    rcases eq_or_ne q p with rfl | hne
    · rw [sleep_waiters_self] at hw
      obtain rfl := Option.some.inj hw
      obtain rfl := Option.some.inj hnext
      obtain ⟨lf, hlf, haddr⟩ := List.mem_map.1 hblock
      refine ⟨_, mem_sleep_lockf.2 ⟨lf, hlf, rfl⟩, ?_⟩
      rw [if_pos ⟨rfl, haddr⟩]
      exact ⟨haddr, List.mem_append_right _ List.mem_cons_self⟩
    · rw [sleep_waiters_of_ne hne] at hw
      obtain ⟨lf, hlf, haddr, hmem⟩ := h.queued q w a hw hnext
      refine ⟨_, mem_sleep_lockf.2 ⟨lf, hlf, rfl⟩, ?_⟩
      split_ifs
      · exact ⟨haddr, List.mem_append_left _ hmem⟩
      · exact ⟨haddr, hmem⟩
  asleep := sleep_waiters_forall h.asleep fun _ ↦ Option.some_ne_none _

end Sleep

/-! ### Setting and clearing -/

variable [DecidableEq P] [DecidableEq F]

theorem Queued.clearlock {unlock : Lockf A (Owner P F)} (h : s.Queued)
    (hfits : Fits (s.lockf i) (.clear splitlock unlock)) (hsplit : s.structs splitlock = none) :
    (s.change i unlock.lfId (clearLock splitlock unlock (s.lockf i))).Queued :=
  h.change (clearLock_moves splitlock unlock (s.lockf i)) (fun _ ha ↦ absurd ha List.not_mem_nil)
    List.nodup_nil hsplit (clearLock_spec (h.table i) hfits.1 hfits.2).table

/-- A request stays spare when its owner's locks are cleared. -/
theorem Spare.clearlock {unlock : Lockf A (Owner P F)} (hspare : s.Spare a own)
    (hsplit : s.structs splitlock = none) :
    (s.change i unlock.lfId (clearLock splitlock unlock (s.lockf i))).Spare a own := by
  have hmoves := clearLock_moves splitlock unlock (s.lockf i)
  have huntouched : a ∉ [] ++ (clearLock splitlock unlock (s.lockf i)).made ++
      (s.lockf i).map Lockf.addr := by
    intro ha
    rcases List.mem_append.1 ha with ha | ha
    · have hrequest := hspare.request
      rw [eq_of_mem_made hmoves ha, hsplit] at hrequest
      cases hrequest
    · exact hspare.unlinked i ha
  refine ⟨(change_structs_of_untouched hmoves huntouched).trans hspare.request, fun j hmem ↦ ?_,
    fun q w hw ↦ ?_⟩
  · rcases eq_or_ne j i with rfl | hne
    · rw [change_lockf_self] at hmem
      exact huntouched (touched_of_mem_list hmoves hmem)
    · rw [change_lockf_of_ne hne] at hmem
      exact hspare.unlinked j hmem
  · obtain ⟨v, hv, hlock, -⟩ := change_waiters hw
    exact hlock ▸ hspare.distinct q v hv

omit [DecidableEq A] [DecidableEq I] in
/-- A lock of an open file covers the whole file. -/
theorem fits_clear_of_flock {f : F} (hasked : lock.AskedBy p) (hid : lock.lfId = .flock f) :
    Fits (s.lockf i) (.clear splitlock lock) := by
  unfold Lockf.AskedBy at hasked
  rw [hid] at hasked
  obtain ⟨hstart, hend⟩ := hasked
  refine ⟨⟨hstart.ge, ?_, Or.inl hend⟩, fun lf _ hwraps ↦ ?_⟩
  · omega
  · have hmax := hwraps.2.2
    omega

/-- Before an exclusive lock of an open file is waited for, the file's shared locks are removed. -/
theorem Queued.upgrade (h : s.Queued) (hspare : s.Spare lock.addr lock.lfId)
    (hrun : s.waiters p = none) (hasked : lock.AskedBy p) (hsplit : s.structs splitlock = none)
    (hblock : block ∈ s.lockf i) (hid : block.lfId ≠ lock.lfId) :
    (s.upgrade i splitlock lock).Queued ∧
      (s.upgrade i splitlock lock).Spare lock.addr lock.lfId ∧
      (s.upgrade i splitlock lock).waiters p = none ∧
      block ∈ (s.upgrade i splitlock lock).lockf i := by
  unfold LockState.upgrade
  split
  · rename_i f hflock hwrlck
    refine ⟨h.clearlock (fits_clear_of_flock hasked hflock) hsplit, hspare.clearlock hsplit, ?_, ?_⟩
    · change (s.waiters p).map _ = none
      rw [hrun]
      rfl
    · rw [change_lockf_self]
      exact mem_clearLock splitlock hblock hid
  · exact ⟨h, hspare, hrun, hblock⟩

/-- A call of `lf_setlock` that takes over no waiters keeps every request on its list. -/
theorem Queued.setlock {maxlockdepth : ℕ} {wait : Bool} {s' : LockState A P F I} {answer : Answer}
    (h : s.Queued) (hspare : s.Spare lock.addr lock.lfId) (hrun : s.waiters p = none)
    (hasked : lock.AskedBy p) (hnil : lock.lfBlock = []) (hsplit : s.structs splitlock = none)
    (hcareful : s.CarefulSet i splitlock lock)
    (hset : s.setlock maxlockdepth p i wait splitlock lock = some (s', answer)) : s'.Queued := by
  obtain ⟨hfits, hfree⟩ := hcareful
  unfold LockState.setlock at hset
  cases hgetblock : lfGetblock lock (s.lockf i) with
  | none =>
    rw [hgetblock] at hset
    obtain ⟨rfl, -⟩ := Prod.mk.inj (Option.some.inj hset)
    obtain ⟨hrange, hwraps⟩ := hfits hgetblock
    have htable : Added lock (s.lockf i) (addLock splitlock true lock (s.lockf i)).list :=
      addLock_spec (h.table i) hrange hwraps
    exact h.change (addLock_moves splitlock hnil (h.table i) (hfree hgetblock))
      (List.forall_mem_singleton.2 hspare) (List.nodup_singleton _) hsplit htable.table
  | some block =>
    obtain ⟨hmem, hid⟩ := lfGetblock_eq_some hgetblock
    rw [hgetblock] at hset
    dsimp only at hset
    by_cases hwait : wait = false
    · rw [if_pos hwait] at hset
      obtain ⟨rfl, -⟩ := Prod.mk.inj (Option.some.inj hset)
      exact h.free hspare
    rw [if_neg hwait] at hset
    cases hdead : s.deadlock maxlockdepth lock block with
    | none =>
      rw [hdead] at hset
      cases hset
    | some dead =>
      rw [hdead] at hset
      cases dead with
      | true =>
        obtain ⟨rfl, -⟩ := Prod.mk.inj (Option.some.inj hset)
        exact h.free hspare
      | false =>
        obtain ⟨rfl, -⟩ := Prod.mk.inj (Option.some.inj hset)
        obtain ⟨hqueued, hspare', hrun', hmem'⟩ :=
          h.upgrade hspare hrun hasked hsplit hmem hid
        exact hqueued.sleep hspare' hrun' hasked hnil (List.mem_map_of_mem hmem')

/-- Every careful step keeps every request on its list. -/
theorem Queued.step {maxlockdepth : ℕ} {s' : LockState A P F I} {e : Event A P F I}
    {answer : Option Answer} (h : s.Queued) (hcareful : s.Careful e)
    (hstep : Step maxlockdepth s e answer s') : s'.Queued := by
  cases hstep with
  | @setlock p i wait splitlock lock _ _ hrun hasked hblock hlock hsplit hne hset =>
    obtain ⟨hqueued, hspare⟩ := h.alloc hlock
    have hsplit' : (s.alloc lock).structs splitlock = none :=
      (update_of_ne hne _ _).trans hsplit
    exact hqueued.setlock hspare hrun hasked hblock hsplit' hcareful hset
  | clearlock hrun hasked hsplit => exact h.clearlock hcareful hsplit
  | @resume p splitlock w _ _ hw hrun hsplit hset =>
    obtain ⟨hnext, hcarefulSet⟩ := hcareful w hw
    obtain ⟨hqueued, hspare⟩ := h.run hw hnext
    obtain ⟨hasked, hblock⟩ := h.asked p w hw
    exact hqueued.setlock hspare (run_waiters_self s p) hasked hblock hsplit hcarefulSet hset
  | @interrupt p w hw hrun =>
    obtain ⟨hqueued, hspare⟩ := h.run hw (hcareful w hw)
    exact hqueued.free hspare
  | signal hw => exact h.signal hw

theorem Reach.queued {maxlockdepth : ℕ} (h : Reach maxlockdepth Careful s) : s.Queued := by
  induction h with
  | init h => exact h.queued
  | step _ hcareful hstep ih => exact ih.step hcareful hstep

end Lists

end Steps

/-- Every request that sleeps is on the blocked list of exactly one lock, once, and that lock is on
the list of the inode and is the one that `lf_next` names. Nothing that has been freed is on a list
of locks or on a blocked list. -/
structure Sound [DecidableEq A] (s : LockState A P F I) : Prop where
  queued : ∀ p w, s.waiters p = some w → w.asleep = true →
    ∃ lf ∈ s.lockf w.inode, w.lfNext = some lf.addr ∧ lf.lfBlock.count w.lock.addr = 1 ∧
      ∀ i, ∀ lf' ∈ s.lockf i, w.lock.addr ∈ lf'.lfBlock → i = w.inode ∧ lf' = lf
  allocated : ∀ i, ∀ lf ∈ s.lockf i, s.structs lf.addr ≠ none ∧ ∀ x ∈ lf.lfBlock, s.structs x ≠ none

theorem Queued.sound [DecidableEq A] {s : LockState A P F I} (h : s.Queued) : s.Sound where
  queued p w hw hasleep := by
    obtain ⟨a, hnext⟩ := Option.ne_none_iff_exists'.1 (h.asleep p w hw hasleep)
    obtain ⟨lf, hlf, rfl, hmem⟩ := h.queued p w a hw hnext
    have hnodup : lf.lfBlock.Nodup := (List.nodup_flatMap.1 (h.once w.inode)).1 lf hlf
    refine ⟨lf, hlf, hnext, List.count_eq_one_of_mem hnodup hmem, fun i lf' hlf' hmem' ↦ ?_⟩
    obtain ⟨q, v, hv, haddr, hinode, hnext'⟩ := h.waits i lf' hlf' _ hmem'
    obtain rfl := h.distinct q p v w hv hw haddr
    rw [hw] at hv
    obtain rfl := Option.some.inj hv
    rw [hnext] at hnext'
    subst hinode
    exact ⟨rfl, List.inj_on_of_nodup_map (h.nodup w.inode) hlf' hlf (Option.some.inj hnext').symm⟩
  allocated i lf hlf := by
    refine ⟨?_, fun x hx ↦ ?_⟩
    · rw [h.linked i lf hlf]
      exact Option.some_ne_none _
    · obtain ⟨p, w, hw, rfl, -⟩ := h.waits i lf hlf x hx
      rw [h.request p w hw]
      exact Option.some_ne_none _

/-- In every careful run the blocked lists are sound. -/
theorem blocked_sound [DecidableEq A] [DecidableEq P] [DecidableEq F] [DecidableEq I]
    {maxlockdepth : ℕ} {s : LockState A P F I} (h : Reach maxlockdepth Careful s) : s.Sound :=
  h.queued.sound

/-- The state in which two processes start. -/
def start : LockState ℕ ℕ ℕ Unit := ⟨fun _ ↦ [], fun _ ↦ none, fun _ ↦ none⟩

theorem initial_start : start.Initial := ⟨fun _ ↦ rfl, fun _ ↦ rfl⟩

/-- A second process waits for a byte that the first one has locked. -/
theorem blocked_sound_waiting :
    ∃ s : LockState ℕ ℕ ℕ Unit, Reach 50 Careful s ∧ (∃ w, s.waiters 2 = some w ∧ w.asleep = true) ∧
      s.Sound := by
  have hfits : start.CarefulSet () 9 ⟨1, .wrlck, 5, 5, .posix 1, []⟩ :=
    ⟨fun _ ↦ ⟨⟨by decide, by decide, by decide⟩, fun _ h ↦ absurd h List.not_mem_nil⟩,
      fun _ _ h ↦ absurd h List.not_mem_nil⟩
  have hinit : Reach 50 Careful start := .init initial_start
  have hlock := hinit.step
    (e := .setlock 1 () true 9 ⟨1, .wrlck, 5, 5, .posix 1, []⟩) hfits
    (.setlock rfl rfl rfl rfl rfl (by decide) rfl)
  have hwait := hlock.step (e := .setlock 2 () true 9 ⟨2, .wrlck, 5, 5, .posix 2, []⟩)
    ⟨fun h ↦ (nomatch h), fun h ↦ (nomatch h)⟩ (.setlock rfl rfl rfl rfl rfl (by decide) rfl)
  exact ⟨_, hwait, ⟨_, rfl, rfl⟩, blocked_sound hwait⟩

/-- When the first process locks more bytes around a lock that a request waits for, the lock is
freed, and the `lf_next` of the request still names it. -/
theorem not_sound_of_takeover :
    ∃ s : LockState ℕ ℕ ℕ Unit, Reach 50 (fun _ _ ↦ True) s ∧ ¬ s.Sound := by
  have hinit : Reach 50 (fun _ _ ↦ True) start := .init initial_start
  have hlock := hinit.step
    (e := .setlock 1 () true 9 ⟨1, .wrlck, 5, 5, .posix 1, []⟩) trivial
    (.setlock rfl rfl rfl rfl rfl (by decide) rfl)
  have hwait := hlock.step (e := .setlock 2 () true 9 ⟨2, .wrlck, 5, 5, .posix 2, []⟩) trivial
    (.setlock rfl rfl rfl rfl rfl (by decide) rfl)
  have htake := hwait.step (e := .setlock 1 () true 9 ⟨3, .wrlck, 0, 10, .posix 1, []⟩) trivial
    (.setlock rfl rfl rfl rfl rfl (by decide) rfl)
  refine ⟨_, htake, fun hsound ↦ ?_⟩
  obtain ⟨lf, hlf, hnext, -⟩ := hsound.queued 2 _ rfl rfl
  obtain rfl := List.mem_singleton.1 hlf
  cases hnext

/-- When a signal interrupts the sleep of a request, the request is freed on the blocked list. -/
theorem not_sound_of_interrupt :
    ∃ s : LockState ℕ ℕ ℕ Unit, Reach 50 (fun _ _ ↦ True) s ∧ ¬ s.Sound := by
  have hinit : Reach 50 (fun _ _ ↦ True) start := .init initial_start
  have hlock := hinit.step
    (e := .setlock 1 () true 9 ⟨1, .wrlck, 5, 5, .posix 1, []⟩) trivial
    (.setlock rfl rfl rfl rfl rfl (by decide) rfl)
  have hwait := hlock.step (e := .setlock 2 () true 9 ⟨2, .wrlck, 5, 5, .posix 2, []⟩) trivial
    (.setlock rfl rfl rfl rfl rfl (by decide) rfl)
  have hsignal := hwait.step (e := .signal 2) trivial (.signal rfl)
  have hfreed := hsignal.step (e := .interrupt 2) trivial (.interrupt rfl rfl)
  exact ⟨_, hfreed, fun hsound ↦
    (hsound.allocated () _ List.mem_cons_self).2 2 List.mem_cons_self rfl⟩

end LockState

end Bsd386.Ufs
