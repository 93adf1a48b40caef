import Mathlib.Data.List.Count
import Bsd386.Ufs.Lockf.Set

/-!
# The waiters of a list

A change of a list of locks moves structures and the requests blocked on them. Every request that
was blocked is woken or is left where it was, and every structure is freed or is left on the list.
The exception is a lock that takes over the waiters of one that it contains, since these still name
the freed lock as the one that they wait for.
-/

namespace Bsd386.Ufs

variable {A O : Type} {splitlock : A} {new : List A} {own : O} {lf lock : Lockf A O}
  {l rest front back : List (Lockf A O)} {u : Update A O}

/-- All requests that are blocked on a list. -/
def blockedOn (l : List (Lockf A O)) : List A := l.flatMap Lockf.lfBlock

@[simp]
theorem blockedOn_nil : blockedOn ([] : List (Lockf A O)) = [] := rfl

@[simp]
theorem blockedOn_cons (lf : Lockf A O) (l : List (Lockf A O)) :
    blockedOn (lf :: l) = lf.lfBlock ++ blockedOn l := List.flatMap_cons

@[simp]
theorem blockedOn_append (l l' : List (Lockf A O)) :
    blockedOn (l ++ l') = blockedOn l ++ blockedOn l' := List.flatMap_append

theorem mem_blockedOn {x : A} : x ∈ blockedOn l ↔ ∃ lf ∈ l, x ∈ lf.lfBlock := List.mem_flatMap

/-- A lock on the list is one that was there, with at most the waiters that it had. -/
def Lockf.Stays (lf' : Lockf A O) (l : List (Lockf A O)) : Prop :=
  ∃ lf ∈ l, lf.addr = lf'.addr ∧ lf.lfId = lf'.lfId ∧ lf'.lfBlock ⊆ lf.lfBlock

/-- A change of a list moves no request to another lock and leaves no structure behind. The new
structures are those in `new` and the one that a split allocates. -/
structure Update.Moves (u : Update A O) (splitlock : A) (new : List A) (own : O)
    (l : List (Lockf A O)) : Prop where
  waiters : (blockedOn u.list ++ u.woken).Perm (blockedOn l)
  addrs : (u.list.map Lockf.addr ++ u.freed).Perm (new ++ u.made ++ l.map Lockf.addr)
  stays : ∀ lf' ∈ u.list,
    lf'.Stays l ∨ lf'.lfBlock = [] ∧ lf'.addr ∈ new ++ u.made ∧ lf'.lfId = own
  made : u.made.Sublist [splitlock]

theorem Lockf.Stays.mono {lf' : Lockf A O} (h : lf'.Stays rest) : lf'.Stays (lf :: rest) := by
  obtain ⟨a, ha, hsame⟩ := h
  exact ⟨a, List.mem_cons_of_mem lf ha, hsame⟩

theorem Lockf.stays_of_mem (h : lf ∈ l) : lf.Stays l := ⟨lf, h, rfl, rfl, List.Subset.refl _⟩

/-- Nothing happens. -/
theorem moves_refl (splitlock : A) (own : O) (lock : Lockf A O) (l : List (Lockf A O)) :
    ({ lock, list := l } : Update A O).Moves splitlock [] own l where
  waiters := by rw [List.append_nil]
  addrs := by simp
  stays lf' h := Or.inl (Lockf.stays_of_mem h)
  made := List.nil_sublist _

/-- A lock stays where it is. -/
theorem Update.Moves.cons (h : u.Moves splitlock new own rest) (lf : Lockf A O) :
    (u.cons lf).Moves splitlock new own (lf :: rest) where
  waiters := by
    change (blockedOn (lf :: u.list) ++ u.woken).Perm (blockedOn (lf :: rest))
    rw [blockedOn_cons, blockedOn_cons, List.append_assoc]
    exact h.waiters.append_left lf.lfBlock
  addrs := by
    change (lf.addr :: u.list.map Lockf.addr ++ u.freed).Perm
      (new ++ u.made ++ lf.addr :: rest.map Lockf.addr)
    exact (h.addrs.cons lf.addr).trans List.perm_middle.symm
  stays lf' h' := by
    rcases List.mem_cons.1 h' with rfl | h'
    · exact Or.inl (Lockf.stays_of_mem List.mem_cons_self)
    · exact (h.stays lf' h').imp Lockf.Stays.mono id
  made := h.made

/-- A new lock is put on the list. -/
theorem Update.Moves.insert (h : u.Moves splitlock [] lock.lfId l) (front back : List (Lockf A O))
    (hlist : u.list = front ++ back) (hblock : lock.lfBlock = []) :
    ({ u with lock, list := front ++ lock :: back } : Update A O).Moves splitlock [lock.addr]
      lock.lfId l where
  waiters := by
    refine List.Perm.trans ?_ h.waiters
    rw [hlist, blockedOn_append, blockedOn_cons, hblock, blockedOn_append]
    exact List.Perm.refl _
  addrs := by
    have hmiddle : ((front ++ lock :: back).map Lockf.addr ++ u.freed).Perm
        (lock.addr :: (u.list.map Lockf.addr ++ u.freed)) := by
      rw [hlist, List.map_append, List.map_append, List.map_cons, ← List.cons_append]
      exact List.perm_middle.append_right u.freed
    exact hmiddle.trans (h.addrs.cons lock.addr)
  stays lf' h' := by
    rcases List.mem_append.1 h' with h' | h'
    · refine (h.stays lf' (hlist ▸ List.mem_append_left back h')).imp id fun hnew ↦ ?_
      exact ⟨hnew.1, List.mem_append_right [lock.addr] hnew.2.1, hnew.2.2⟩
    · rcases List.mem_cons.1 h' with rfl | h'
      · exact Or.inr ⟨hblock, List.mem_append_left _ List.mem_cons_self, rfl⟩
      · refine (h.stays lf' (hlist ▸ List.mem_append_right front h')).imp id fun hnew ↦ ?_
        exact ⟨hnew.1, List.mem_append_right [lock.addr] hnew.2.1, hnew.2.2⟩
  made := h.made

/-- A lock on the list takes the place of the new one, which is freed. -/
theorem Update.Moves.absorb (h : u.Moves splitlock [] lock.lfId l) :
    ({ u with freed := lock.addr :: u.freed } : Update A O).Moves splitlock [lock.addr] lock.lfId l
    where
  waiters := h.waiters
  addrs := List.perm_middle.trans (h.addrs.cons lock.addr)
  stays lf' h' := (h.stays lf' h').imp id fun hnew ↦
    ⟨hnew.1, List.mem_append_right [lock.addr] hnew.2.1, hnew.2.2⟩
  made := h.made

variable [DecidableEq A]

/-- The first lock is replaced by pieces of it, and the rest of the list changes too. -/
theorem Update.Moves.replace (h : u.Moves splitlock [] own rest) (lf : Lockf A O)
    (pieces : List (Lockf A O)) (woken freed made : List A)
    (hwaiters : (blockedOn pieces ++ woken).Perm lf.lfBlock)
    (haddrs : (pieces.map Lockf.addr ++ freed).Perm (made ++ [lf.addr]))
    (hstays : ∀ lf' ∈ pieces, lf'.Stays (lf :: rest) ∨
      lf'.lfBlock = [] ∧ lf'.addr ∈ made ∧ lf'.lfId = own)
    (hmade : (made ++ u.made).Sublist [splitlock]) :
    ({ u with
        list := pieces ++ u.list
        woken := woken ++ u.woken
        freed := freed ++ u.freed
        made := made ++ u.made } : Update A O).Moves splitlock [] own (lf :: rest) where
  waiters := by
    rw [List.perm_iff_count] at hwaiters ⊢
    intro x
    have hhead := hwaiters x
    have htail := List.perm_iff_count.1 h.waiters x
    simp only [blockedOn_append, blockedOn_cons, List.count_append] at hhead htail ⊢
    omega
  addrs := by
    rw [List.perm_iff_count] at haddrs ⊢
    intro x
    have hhead := haddrs x
    have htail := List.perm_iff_count.1 h.addrs x
    simp only [List.map_append, List.map_cons, List.count_append, List.count_cons, List.count_nil,
      List.nil_append] at hhead htail ⊢
    omega
  stays lf' h' := by
    rcases List.mem_append.1 h' with h' | h'
    · refine (hstays lf' h').imp id fun hnew ↦ ?_
      exact ⟨hnew.1, List.mem_append_left u.made hnew.2.1, hnew.2.2⟩
    · refine (h.stays lf' h').imp Lockf.Stays.mono fun hnew ↦ ?_
      exact ⟨hnew.1, List.mem_append_right made hnew.2.1, hnew.2.2⟩
  made := hmade

/-- The first lock is shrunk and its waiters are woken. -/
theorem Update.Moves.shrink (h : u.Moves splitlock [] own rest) (lf lf' : Lockf A O)
    (haddr : lf'.addr = lf.addr) (hid : lf'.lfId = lf.lfId) (hblock : lf'.lfBlock = []) :
    ({ u with list := lf' :: u.list, woken := lf.lfBlock ++ u.woken } : Update A O).Moves
      splitlock [] own (lf :: rest) := by
  refine h.replace lf [lf'] lf.lfBlock [] [] ?_ ?_ ?_ h.made
  · rw [blockedOn_cons, hblock]
    exact List.Perm.refl _
  · rw [List.map_singleton, haddr]
    exact List.Perm.refl _
  · refine List.forall_mem_singleton.2 (Or.inl ⟨lf, List.mem_cons_self, haddr.symm, hid.symm, ?_⟩)
    rw [hblock]
    exact List.nil_subset _

/-- The first lock goes away and its waiters are woken. -/
theorem Update.Moves.remove (h : u.Moves splitlock [] own rest) (lf : Lockf A O) :
    ({ u with woken := lf.lfBlock ++ u.woken, freed := lf.addr :: u.freed } : Update A O).Moves
      splitlock [] own (lf :: rest) :=
  h.replace lf [] lf.lfBlock [lf.addr] [] (List.Perm.refl _) (List.Perm.refl _)
    (fun _ h' ↦ absurd h' List.not_mem_nil) h.made

/-! ## Clearing and setting a range -/

/-- A lock that is split: the part before the second lock and the part behind it. -/
theorem Update.Moves.split (h : u.Moves splitlock [] lf.lfId rest) (hmade : u.made = [])
    (lock : Lockf A O) :
    ({ u with
        list := (lfSplit splitlock (lfWakelock lf) lock).1 ++
          ((lfSplit splitlock (lfWakelock lf) lock).2.1 ++ u.list)
        woken := lf.lfBlock ++ u.woken
        made := (lfSplit splitlock (lfWakelock lf) lock).2.2 } : Update A O).Moves
      splitlock [] lf.lfId (lf :: rest) := by
  have hstays : ∀ lf' : Lockf A O, lf'.addr = lf.addr → lf'.lfId = lf.lfId → lf'.lfBlock = [] →
      lf'.Stays (lf :: rest) := by
    intro lf' haddr hid hblock
    exact ⟨lf, List.mem_cons_self, haddr.symm, hid.symm, hblock ▸ List.nil_subset _⟩
  obtain ⟨_, list, woken, freed, made⟩ := u
  obtain rfl : made = [] := hmade
  unfold lfSplit
  split_ifs
  · exact h.shrink lf { lfWakelock lf with lfStart := toLong (lock.lfEnd + 1) } rfl rfl rfl
  · exact h.shrink lf { lfWakelock lf with lfEnd := toLong (lock.lfStart - 1) } rfl rfl rfl
  · have hreplace := h.replace lf
      [{ lfWakelock lf with lfEnd := toLong (lock.lfStart - 1) },
        { lfWakelock lf with
          addr := splitlock, lfStart := toLong (lock.lfEnd + 1), lfBlock := [] }]
      lf.lfBlock [] [splitlock] (List.Perm.refl _) ?_ ?_ ?_
    · exact hreplace
    · exact List.Perm.swap _ _ _
    · refine List.forall_mem_cons.2 ⟨Or.inl (hstays _ rfl rfl rfl), ?_⟩
      exact List.forall_mem_singleton.2 (Or.inr ⟨rfl, List.mem_cons_self, rfl⟩)
    · exact List.Sublist.refl _

variable [DecidableEq O]

/-- `lf_clearlock` wakes the waiters of every lock that it changes. -/
theorem clearLock_moves (splitlock : A) (unlock : Lockf A O) (l : List (Lockf A O)) :
    (clearLock splitlock unlock l).Moves splitlock [] unlock.lfId l := by
  induction l with
  | nil => exact moves_refl splitlock unlock.lfId unlock []
  | cons lf rest ih =>
    have hrefl := moves_refl splitlock unlock.lfId unlock rest
    by_cases hid : lf.lfId = unlock.lfId
    swap
    · rw [clearLock_other splitlock rest hid]
      exact ih.cons lf
    rw [show clearLock splitlock unlock (lf :: rest) = _ from if_neg (not_not.2 hid)]
    cases ovcase lf unlock with
    | noOverlap =>
      dsimp only
      by_cases hstop : unlock.lfEnd ≠ -1 ∧ lf.lfStart > unlock.lfEnd
      · rw [if_pos hstop]
        exact moves_refl splitlock unlock.lfId unlock (lf :: rest)
      · rw [if_neg hstop]
        exact ih.cons lf
    | equal =>
      have hremove := hrefl.remove lf
      rw [List.append_nil] at hremove
      exact hremove
    | overlapContains =>
      dsimp only
      by_cases hfirst : lf.lfStart = unlock.lfStart
      · have hshrink := hrefl.shrink lf
          { lfWakelock lf with lfStart := toLong (unlock.lfEnd + 1) } rfl rfl rfl
        rw [List.append_nil] at hshrink
        rw [if_pos hfirst]
        exact hshrink
      · rw [← hid] at hrefl ⊢
        have hsplit := hrefl.split rfl unlock
        rw [List.append_nil] at hsplit
        rw [if_neg hfirst]
        exact hsplit
    | lockContains => exact ih.remove lf
    | startsBefore =>
      exact ih.shrink lf { lfWakelock lf with lfEnd := toLong (unlock.lfStart - 1) } rfl rfl rfl
    | endsAfter =>
      have hshrink := hrefl.shrink lf
        { lfWakelock lf with lfStart := toLong (unlock.lfEnd + 1) } rfl rfl rfl
      rw [List.append_nil] at hshrink
      exact hshrink

omit [DecidableEq A] in
/-- The locks of other owners stay. -/
theorem mem_clearLock {unlock : Lockf A O} (splitlock : A) (hlf : lf ∈ l)
    (hid : lf.lfId ≠ unlock.lfId) : lf ∈ (clearLock splitlock unlock l).list := by
  induction l with
  | nil => exact absurd hlf List.not_mem_nil
  | cons a rest ih =>
    by_cases ha : a.lfId = unlock.lfId
    swap
    · rw [clearLock_other splitlock rest ha]
      rcases List.mem_cons.1 hlf with rfl | hlf
      · exact List.mem_cons_self
      · exact List.mem_cons_of_mem a (ih hlf)
    rw [show clearLock splitlock unlock (a :: rest) = _ from if_neg (not_not.2 ha)]
    have hrest : lf ∈ rest := by
      rcases List.mem_cons.1 hlf with rfl | hlf
      · exact absurd ha hid
      · exact hlf
    cases ovcase a unlock with
    | noOverlap =>
      dsimp only
      by_cases hstop : unlock.lfEnd ≠ -1 ∧ a.lfStart > unlock.lfEnd
      · rw [if_pos hstop]
        exact hlf
      · rw [if_neg hstop]
        exact List.mem_cons_of_mem a (ih hrest)
    | equal => exact hrest
    | overlapContains =>
      dsimp only
      by_cases hfirst : a.lfStart = unlock.lfStart
      · rw [if_pos hfirst]
        exact List.mem_cons_of_mem _ hrest
      · rw [if_neg hfirst]
        exact List.mem_append_right _ (List.mem_append_right _ hrest)
    | lockContains => exact ih hrest
    | startsBefore => exact List.mem_cons_of_mem _ (ih hrest)
    | endsAfter => exact List.mem_cons_of_mem _ hrest

/-! ## Blocking -/

section Addblock

variable {block x : A}

omit [DecidableEq O] in
@[simp]
theorem map_addr_lfAddblock (block : A) (blocked : List A) (l : List (Lockf A O)) :
    (lfAddblock block blocked l).map Lockf.addr = l.map Lockf.addr := by
  rw [lfAddblock, List.map_map]
  refine List.map_congr_left fun lf _ ↦ ?_
  rw [Function.comp_apply]
  split_ifs <;> rfl

omit [DecidableEq O] in
theorem lfAddblock_of_notMem (hblock : block ∉ l.map Lockf.addr) (blocked : List A) :
    lfAddblock block blocked l = l := by
  induction l with
  | nil => rfl
  | cons lf rest ih =>
    rw [List.map_cons, List.mem_cons, not_or] at hblock
    rw [lfAddblock, List.map_cons, if_neg (Ne.symm hblock.1)]
    exact congrArg (List.cons lf) (ih hblock.2)

omit [DecidableEq O] in
/-- A request that blocks is blocked once. -/
theorem blockedOn_lfAddblock (hnodup : (l.map Lockf.addr).Nodup)
    (hblock : block ∈ l.map Lockf.addr) :
    (blockedOn (lfAddblock block [x] l)).Perm (x :: blockedOn l) := by
  induction l with
  | nil => exact absurd hblock List.not_mem_nil
  | cons lf rest ih =>
    obtain ⟨hnotMem, hrest⟩ := List.nodup_cons.1 hnodup
    rw [lfAddblock, List.map_cons, blockedOn_cons, blockedOn_cons]
    by_cases haddr : lf.addr = block
    · have hsame : lfAddblock block [x] rest = rest := lfAddblock_of_notMem (haddr ▸ hnotMem) [x]
      rw [lfAddblock] at hsame
      rw [if_pos haddr, hsame, List.append_assoc]
      exact List.perm_middle
    · rw [if_neg haddr]
      have hmem := (List.mem_cons.1 hblock).resolve_left (Ne.symm haddr)
      exact ((ih hrest hmem).append_left lf.lfBlock).trans List.perm_middle

end Addblock

/-- No lock that the request takes over has waiters: they are woken when the request is a downgrade,
and move to the new lock otherwise. -/
def NoTakeover (lock : Lockf A O) (l : List (Lockf A O)) : Prop :=
  ∀ lf ∈ l, lf.lfId = lock.lfId → ovcase lf lock = .lockContains →
    ¬ (lock.lfType = .rdlck ∧ lf.lfType = .wrlck) → lf.lfBlock = []

omit [DecidableEq A] in
theorem clearLock_lock (splitlock : A) (unlock : Lockf A O) (l : List (Lockf A O)) :
    (clearLock splitlock unlock l).lock = unlock := by
  induction l with
  | nil => rfl
  | cons lf rest ih =>
    by_cases hid : lf.lfId = unlock.lfId
    swap
    · rw [clearLock_other splitlock rest hid]
      exact ih
    rw [show clearLock splitlock unlock (lf :: rest) = _ from if_neg (not_not.2 hid)]
    cases ovcase lf unlock with
    | noOverlap =>
      dsimp only
      by_cases hstop : unlock.lfEnd ≠ -1 ∧ lf.lfStart > unlock.lfEnd
      · rw [if_pos hstop]
      · rw [if_neg hstop]
        exact ih
    | equal => rfl
    | overlapContains =>
      dsimp only
      by_cases hfirst : lf.lfStart = unlock.lfStart
      · rw [if_pos hfirst]
      · rw [if_neg hfirst]
    | lockContains => exact ih
    | startsBefore => exact ih
    | endsAfter => rfl

omit [DecidableEq A] in
/-- Behind a lock that is on the list already, its range is cleared. -/
theorem addLock_false_eq (splitlock : A) (hfree : NoTakeover lock l)
    (hlater : ∀ lf ∈ l, lf.lfId = lock.lfId → lock.lfStart < lf.lfStart) :
    addLock splitlock false lock l = clearLock splitlock lock l := by
  induction l with
  | nil => rfl
  | cons lf rest ih =>
    obtain ⟨hlf, hrest⟩ := List.forall_mem_cons.1 hlater
    obtain ⟨hhead, htail⟩ := List.forall_mem_cons.1 hfree
    have hih := ih htail hrest
    by_cases hid : lf.lfId = lock.lfId
    swap
    · rw [addLock_other splitlock false rest hid, clearLock_other splitlock rest hid, hih]
    rw [show addLock splitlock false lock (lf :: rest) = _ from if_neg (not_not.2 hid),
      show clearLock splitlock lock (lf :: rest) = _ from if_neg (not_not.2 hid)]
    have hlt := hlf hid
    cases hcase : ovcase lf lock with
    | noOverlap =>
      dsimp only
      rw [hih]
      rfl
    | equal => exact absurd (ovcase_equal hcase).1 (by omega)
    | overlapContains => exact absurd (ovcase_overlapContains hcase).1 (by omega)
    | lockContains =>
      dsimp only
      by_cases hdown : lock.lfType = .rdlck ∧ lf.lfType = .wrlck
      · simp only [if_pos hdown, hih]
        rfl
      · have hnone := hhead hid hcase hdown
        have hsame : { lock with lfBlock := lf.lfBlock ++ lock.lfBlock } = lock := by
          rw [hnone, List.nil_append]
        simp only [if_neg hdown, hsame, hih]
        rw [hnone]
        rfl
    | startsBefore => exact absurd (ovcase_startsBefore hcase).1 (by omega)
    | endsAfter => rfl

/-- `lf_setlock` wakes the waiters of every lock that it changes, but for a change of the type that
downgrades nothing. -/
theorem addLock_moves (splitlock : A) (hblock : lock.lfBlock = []) (htable : Table l)
    (hfree : NoTakeover lock l) :
    (addLock splitlock true lock l).Moves splitlock [lock.addr] lock.lfId l := by
  induction l with
  | nil =>
    have hrefl := moves_refl splitlock lock.lfId lock []
    exact hrefl.insert [] _ rfl hblock
  | cons lf rest ih =>
    obtain ⟨hhead, hfreeRest⟩ := List.forall_mem_cons.1 hfree
    have htail := ih (table_cons.1 htable).2.2 hfreeRest
    have hrefl := moves_refl splitlock lock.lfId lock rest
    have hclear := clearLock_moves splitlock lock rest
    by_cases hid : lf.lfId = lock.lfId
    swap
    · rw [addLock_other splitlock true rest hid]
      exact htail.cons lf
    rw [show addLock splitlock true lock (lf :: rest) = _ from if_neg (not_not.2 hid)]
    have hlater := lfStart_lt_of_not_before htable hid
    cases hcase : ovcase lf lock with
    | noOverlap =>
      dsimp only
      by_cases hstop : lock.lfEnd ≠ -1 ∧ lf.lfStart > lock.lfEnd
      · rw [if_pos hstop]
        exact (moves_refl splitlock lock.lfId lock (lf :: rest)).insert [] _ rfl hblock
      · rw [if_neg hstop]
        exact htail.cons lf
    | equal =>
      dsimp only
      by_cases hdown : lock.lfType = .rdlck ∧ lf.lfType = .wrlck
      · have hshrink := hrefl.shrink lf { lfWakelock lf with lfType := lock.lfType } rfl rfl rfl
        rw [List.append_nil] at hshrink
        rw [if_pos hdown]
        exact hshrink.absorb
      · have hretype := hrefl.replace lf [{ lf with lfType := lock.lfType }] [] [] [] ?_
          (List.Perm.refl _) (List.forall_mem_singleton.2 (Or.inl ?_)) (List.nil_sublist _)
        · rw [if_neg hdown]
          exact hretype.absorb
        · rw [List.append_nil, blockedOn_cons, blockedOn_nil, List.append_nil]
        · exact ⟨lf, List.mem_cons_self, rfl, rfl, List.Subset.refl _⟩
    | overlapContains =>
      dsimp only
      by_cases htype : lf.lfType = lock.lfType
      · rw [if_pos htype]
        exact (moves_refl splitlock lock.lfId lock (lf :: rest)).absorb
      rw [if_neg htype]
      by_cases hfirst : lf.lfStart = lock.lfStart
      · have hshrink := hrefl.shrink lf
          { lfWakelock lf with lfStart := toLong (lock.lfEnd + 1) } rfl rfl rfl
        rw [List.append_nil] at hshrink
        rw [if_pos hfirst]
        exact hshrink.insert [] _ rfl hblock
      · rw [if_neg hfirst]
        rw [← hid] at hrefl
        have hsplit := hrefl.split rfl lock
        rw [List.append_nil, hid] at hsplit
        exact hsplit.insert _ _ rfl hblock
    | lockContains =>
      have hcontains := ovcase_lockContains hcase
      have hlfends := (table_cons.1 htable).1.ends
      have hnot : ¬ lf.Before lock := by
        unfold Lockf.Before
        omega
      have htail := addLock_false_eq splitlock hfreeRest (hlater hnot)
      have hremove := (hclear.remove lf).insert [] _ rfl hblock
      dsimp only
      rw [if_pos rfl]
      by_cases hdown : lock.lfType = .rdlck ∧ lf.lfType = .wrlck
      · simp only [if_pos hdown, htail, clearLock_lock]
        exact hremove
      · have hnone := hhead hid hcase hdown
        have hsame : { lock with lfBlock := lf.lfBlock ++ lock.lfBlock } = lock := by
          rw [hnone, List.nil_append]
        simp only [if_neg hdown, hsame, htail, clearLock_lock]
        rw [hnone] at hremove
        exact hremove
    | startsBefore =>
      have hstarts := ovcase_startsBefore hcase
      have hnot : ¬ lf.Before lock := by
        unfold Lockf.Before
        omega
      have hshrink := hclear.shrink lf
        { lfWakelock lf with lfEnd := toLong (lock.lfStart - 1) } rfl rfl rfl
      dsimp only
      rw [addLock_false_eq splitlock hfreeRest (hlater hnot), clearLock_lock]
      exact hshrink.insert [_] _ rfl hblock
    | endsAfter =>
      have hshrink := hrefl.shrink lf
        { lfWakelock lf with lfStart := toLong (lock.lfEnd + 1) } rfl rfl rfl
      rw [List.append_nil] at hshrink
      exact hshrink.insert [] _ rfl hblock

end Bsd386.Ufs
