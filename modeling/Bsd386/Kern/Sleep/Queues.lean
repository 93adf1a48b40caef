import Bsd386.Kern.Sleep.Basic

/-!
# The queues

The processes on the sleep queues and on the run queues, and what `setrq` and the functions that
take a process off a sleep queue do to them. Both kinds of queues go through `p_link`, so that each
leaves the other alone as long as no process is on both.
-/

namespace Bsd386.Kern.Sleep

open Function

variable {P : Type} {s s' t : System P} {sl : Fin 64 → List P} {rl : Fin 32 → List P} {p : P}

/-- What a pointer to a process holds. -/
def pointer (p : P) : Option (Node P) := some (.proc p)

/-- The processes `l` are on the sleep queue `h`, in this order. -/
def System.Asleep (s : System P) (h : Fin 64) (l : List P) : Prop :=
  Leads none pointer Cell.link s.load (.head h) l

/-- The sleep queues and the run queues. A sleep queue that was never used has no tail pointer. -/
structure Queues (s : System P) (sl : Fin 64 → List P) (rl : Fin 32 → List P) : Prop where
  sleepers : ∀ h, s.Asleep h (sl h)
  asleep : ∀ p h, p ∈ sl h ↔ (s.proc p).wchan ≠ 0 ∧ hash (s.proc p).wchan = h
  once : ∀ h, (sl h).Nodup
  tail : ∀ h, s.sqTailp h = some (endCell Cell.link (.head h) (sl h)) ∨
    sl h = [] ∧ s.sqTailp h = none
  runners : ∀ i, s.links.Ring (.header i) ((rl i).map .proc)
  ready : ∀ p, (∃ i, p ∈ rl i) ↔ s.links.prev (.proc p) ≠ none
  which : ∀ i, s.whichqs i = true ↔ rl i ≠ []
  index : ∀ p i, p ∈ rl i → s.rqidx p = i
  runnable : ∀ p i, p ∈ rl i → (s.proc p).stat = .srun ∧ (s.proc p).wchan = 0

/-- The queues leave all else alone. -/
structure Same (s s' : System P) : Prop where
  callouts : s'.callouts = s.callouts
  curproc : s'.curproc = s.curproc
  pc : s'.pc = s.pc
  value : s'.value = s.value
  addr : s'.addr = s.addr
  jobc : s'.jobc = s.jobc

theorem ok_bind {A B : Type} (a : A) (f : A → Except Fault B) : (Except.ok a >>= f) = f a := rfl

theorem deref_bind {A B : Type} (a : A) (f : A → Except Fault B) : (deref (some a) >>= f) = f a :=
  rfl

theorem Same.refl (s : System P) : Same s s := ⟨rfl, rfl, rfl, rfl, rfl, rfl⟩

theorem Same.trans (h : Same s s') (h' : Same s' t) : Same s t :=
  ⟨h'.callouts.trans h.callouts, h'.curproc.trans h.curproc, h'.pc.trans h.pc,
  h'.value.trans h.value,
    h'.addr.trans h.addr, h'.jobc.trans h.jobc⟩

theorem pointer_injective : Injective (pointer (P := P)) := fun p q h ↦ by
  have hnode := Option.some.inj h
  injection hnode

theorem link_injective : Injective (Cell.link (P := P)) := fun p q h ↦ by injection h

theorem head_ne_link {h : Fin 64} : ∀ q : P, Cell.head h ≠ .link q := fun q heq ↦ by cases heq

theorem header_notMem {i : Fin 32} {l : List P} : Node.header i ∉ l.map .proc := by
  intro hmem
  obtain ⟨q, -, hq⟩ := List.mem_map.mp hmem
  cases hq

theorem proc_mem {l : List P} : Node.proc p ∈ l.map .proc ↔ p ∈ l :=
  List.mem_map_of_injective fun q r h ↦ by injection h

/-- A process sleeps in one place. -/
theorem Queues.sleeping_unique {h h' : Fin 64} (hq : Queues s sl rl) (hp : p ∈ sl h)
    (hp' : p ∈ sl h') :
    h = h' :=
  ((hq.asleep p h).mp hp).2.symm.trans ((hq.asleep p h').mp hp').2

/-- A process that is ready does not sleep. -/
theorem Queues.notMem_sl {i : Fin 32} {h : Fin 64} (hq : Queues s sl rl) (hp : p ∈ rl i) :
    p ∉ sl h :=
  fun hmem ↦ ((hq.asleep p h).mp hmem).1 (hq.runnable p i hp).2

/-- The cells of a sleep queue are none of another. -/
theorem Queues.endCell_ne {h h' : Fin 64} {l₁ l₂ : List P} (hq : Queues s sl rl) (hne : h' ≠ h)
    (hl : sl h = l₁ ++ l₂) :
    endCell Cell.link (.head h) l₁ ≠ .head h' ∧
      ∀ q ∈ sl h', endCell Cell.link (.head h) l₁ ≠ .link q := by
  rcases endCell_cases Cell.link (.head h) l₁ with ⟨-, hcell⟩ | ⟨r, hr, hcell⟩
  · rw [hcell]
    refine ⟨fun heq ↦ hne ?_, fun q _ ↦ head_ne_link q⟩
    injection heq with heq
    exact heq.symm
  · rw [hcell]
    refine ⟨fun heq ↦ head_ne_link r heq.symm, fun q hq' heq ↦ hne ?_⟩
    obtain rfl := link_injective heq
    exact hq.sleeping_unique hq' (hl ▸ List.mem_append_left l₂ hr)

/-- The length of a queue is at most the number of processes. -/
theorem Queues.length_le [Fintype P] (hq : Queues s sl rl) (h : Fin 64) :
    (sl h).length ≤ Fintype.card P :=
  (hq.once h).length_le_card

theorem rqidx_congr (hpri : (s'.proc p).pri = (s.proc p).pri) : s'.rqidx p = s.rqidx p := by
  apply Fin.ext
  change ((s'.proc p).pri : ℕ) / 4 = ((s.proc p).pri : ℕ) / 4
  rw [hpri]

variable [DecidableEq P]

/-! ### Pointers -/

theorem load_store (s : System P) (cell : Cell P) (v : Option (Node P)) :
    (s.store cell v).load = update s.load cell v := by
  funext other
  cases cell with
  | head h =>
    cases other with
    | head h' =>
      by_cases heq : h' = h
      · subst heq
        simp [System.store, System.load]
      · simp [System.store, System.load, heq]
    | link q => rfl
  | link p =>
    cases other with
    | head h' => rfl
    | link q =>
      by_cases heq : q = p
      · subst heq
        simp [System.store, System.load]
      · simp [System.store, System.load, heq]

theorem prev_store (s : System P) (cell : Cell P) (v : Option (Node P)) :
    (s.store cell v).links.prev = s.links.prev := by
  cases cell <;> rfl

/-- A pointer of a sleep queue is none of a run queue, but for the link of the same process. -/
theorem next_store {cell : Cell P} {n : Node P} (v : Option (Node P))
    (hne : ∀ q, n = .proc q → cell ≠ .link q) : (s.store cell v).links.next n = s.links.next n := by
  cases cell with
  | head h => rfl
  | link q => exact update_of_ne (fun heq ↦ hne q heq rfl) ..

/-- What `store` leaves alone. -/
theorem store_rest (s : System P) (cell : Cell P) (v : Option (Node P)) :
    (s.store cell v).proc = s.proc ∧ (s.store cell v).sqTailp = s.sqTailp ∧
      (s.store cell v).whichqs = s.whichqs ∧ Same s (s.store cell v) := by
  cases cell <;> exact ⟨rfl, rfl, rfl, ⟨rfl, rfl, rfl, rfl, rfl, rfl⟩⟩

omit [DecidableEq P] in
/-- The run queues depend on the links of their processes only. -/
theorem Queues.rings_congr (hq : Queues s sl rl) (hprev : s'.links.prev = s.links.prev)
    (hheader : ∀ i, s'.links.next (.header i) = s.links.next (.header i))
    (hproc : ∀ i, ∀ q ∈ rl i, s'.links.next (.proc q) = s.links.next (.proc q)) (i : Fin 32) :
    s'.links.Ring (.header i) ((rl i).map .proc) := by
  refine (hq.runners i).congr (fun n hn ↦ ?_) fun n _ ↦ congrFun hprev n
  rcases List.mem_cons.mp hn with rfl | hn
  · exact hheader i
  · obtain ⟨q, hmem, rfl⟩ := List.mem_map.mp hn
    exact hproc i q hmem

/-! ### Run queues -/

/-- A process is put on its run queue. -/
theorem Queues.setrq (hq : Queues s sl rl) (hprev : s.links.prev (.proc p) = none)
    (hstat : (s.proc p).stat = .srun) (hwchan : (s.proc p).wchan = 0) :
    ∃ s', s.setrq p = .ok s' ∧ s'.proc = s.proc ∧ Same s s' ∧
      Queues s' sl (update rl (s.rqidx p) (rl (s.rqidx p) ++ [p])) ∧
      (∀ q, q ≠ p → s'.links.prev (.proc q) = s.links.prev (.proc q)) := by
  obtain ⟨i, hi⟩ : ∃ i, s.rqidx p = i := ⟨_, rfl⟩
  have hring := hq.runners i
  have hnew : ∀ j, p ∉ rl j := fun j hmem ↦ (hq.ready p).mp ⟨j, hmem⟩ hprev
  have hout : ∀ j, Node.proc p ∉ Node.header j :: (rl j).map .proc := by
    intro j hmem
    rcases List.mem_cons.mp hmem with heq | hmem
    · cases heq
    · exact hnew j (proc_mem.mp hmem)
  -- The node before the header.
  obtain ⟨last, hlast⟩ : ∃ last, s.links.Linked last (.header i) ∧
      (last = .header i ∨ ∃ q ∈ rl i, last = .proc q) := by
    rcases List.eq_nil_or_concat (rl i) with hnil | ⟨l, q, hl⟩
    · refine ⟨.header i, ?_, .inl rfl⟩
      have hrun := hring.2
      rw [hnil] at hrun
      exact (List.isChain_cons_cons.mp hrun).1
    · refine ⟨.proc q, ?_, .inr ⟨q, by rw [hl]; simp, rfl⟩⟩
      rw [hl, List.concat_eq_append, List.map_append] at hring
      have hrun := hring.2
      have hsplit : Node.header i :: (l.map Node.proc ++ [q].map .proc) ++ [.header i] =
          (Node.header i :: l.map .proc) ++ .proc q :: .header i :: [] := by simp
      rw [hsplit] at hrun
      exact (List.isChain_append_cons_cons.mp hrun).2.1
  have hne : last ≠ .proc p := by
    rcases hlast.2 with rfl | ⟨q, hmem, rfl⟩
    · intro heq
      cases heq
    · intro heq
      injection heq with heq
      exact hnew i (heq ▸ hmem)
  obtain ⟨s', hs'⟩ : ∃ s' : System P, s' = { s with
      links := (s.links.join last (.proc p)).join (.proc p) (.header i)
      whichqs := update s.whichqs i true } := ⟨_, rfl⟩
  have hcomm : update (update s.links.next (.proc p) (some (.header i))) last (some (.proc p)) =
      update (update s.links.next last (some (.proc p))) (.proc p) (some (.header i)) :=
    update_comm hne.symm ..
  have hrun : s.setrq p = .ok s' := by
    rw [System.setrq, if_neg (not_not_intro hprev), hi, hlast.1.2, deref_bind, hcomm, hs']
    rfl
  have hwhich : s'.whichqs = update s.whichqs i true := by rw [hs']
  have hnextp : ∀ n, n ≠ last → n ≠ .proc p → s'.links.next n = s.links.next n := by
    intro n hn hnp
    rw [hs']
    exact (update_of_ne hnp ..).trans (update_of_ne hn ..)
  have hprevp : ∀ n, n ≠ .header i → n ≠ .proc p → s'.links.prev n = s.links.prev n := by
    intro n hn hnp
    rw [hs']
    exact (update_of_ne hn ..).trans (update_of_ne hnp ..)
  have hload : ∀ c : Cell P, (∀ q, c = .link q → ∃ h, q ∈ sl h) → s'.load c = s.load c := by
    intro c hc
    cases c with
    | head h => rw [hs']; rfl
    | link q =>
      obtain ⟨h, hmem⟩ := hc q rfl
      refine hnextp _ ?_ ?_
      · rcases hlast.2 with rfl | ⟨r, hr, rfl⟩
        · intro heq
          cases heq
        · intro heq
          injection heq with heq
          exact hq.notMem_sl hr (heq ▸ hmem)
      · intro heq
        injection heq with heq
        exact ((hq.asleep q h).mp hmem).1 (heq ▸ hwchan)
  have hproc : s'.proc = s.proc := by rw [hs']
  refine ⟨s', hrun, hproc, by rw [hs']; exact ⟨rfl, rfl, rfl, rfl, rfl, rfl⟩, ?_, ?_⟩
  · rw [hi]
    refine ⟨fun h ↦ ?_, ?_, hq.once, ?_, fun j ↦ ?_, fun q ↦ ?_, fun j ↦ ?_, ?_, ?_⟩
    · refine (hq.sleepers h).congr (hload _ fun q heq ↦ ?_) fun q hmem ↦ hload _ fun r heq ↦ ?_
      · cases heq
      · exact ⟨h, link_injective heq ▸ hmem⟩
    · rw [hproc]
      exact hq.asleep
    · rw [hs']
      exact hq.tail
    · by_cases hj : j = i
      · subst hj
        rw [update_self, List.map_append, hs']
        exact hring.insertTail (hout j) hlast.1
      · rw [update_of_ne hj]
        refine (hq.runners j).congr (fun n hn ↦ ?_) fun n hn ↦ ?_
        · refine hnextp n ?_ (fun heq ↦ hout j (heq ▸ hn))
          rintro rfl
          rcases hlast.2 with rfl | ⟨q, hmem, rfl⟩
          · rcases List.mem_cons.mp hn with heq | hn
            · injection heq with heq
              exact hj heq.symm
            · exact header_notMem hn
          · rcases List.mem_cons.mp hn with heq | hn
            · cases heq
            · have hqi := hq.index q i hmem
              have hqj := hq.index q j (proc_mem.mp hn)
              exact hj (hqj.symm.trans hqi)
        · refine hprevp n ?_ (fun heq ↦ hout j (heq ▸ hn))
          rintro rfl
          rcases List.mem_cons.mp hn with heq | hn
          · injection heq with heq
            exact hj heq.symm
          · exact header_notMem hn
    · by_cases hqp : q = p
      · subst hqp
        refine iff_of_true ⟨i, ?_⟩ ?_
        · rw [update_self]
          exact List.mem_append_right _ List.mem_cons_self
        · rw [hs']
          dsimp only [Links.join]
          rw [update_of_ne (fun heq ↦ by cases heq), update_self]
          exact Option.some_ne_none last
      · rw [hprevp _ (fun heq ↦ by cases heq) (fun heq ↦ hqp (by injection heq)), ← hq.ready q]
        refine exists_congr fun j ↦ ?_
        by_cases hj : j = i
        · subst hj
          rw [update_self]
          simp [hqp]
        · rw [update_of_ne hj]
    · rw [hwhich]
      by_cases hj : j = i
      · subst hj
        rw [update_self, update_self]
        simp
      · rw [update_of_ne hj, update_of_ne hj]
        exact hq.which j
    · intro q j hmem
      rw [rqidx_congr (congrArg (fun f ↦ (f q).pri) hproc)]
      by_cases hj : j = i
      · subst hj
        rw [update_self] at hmem
        rcases List.mem_append.mp hmem with hmem | hmem
        · exact hq.index q j hmem
        · rw [List.mem_singleton.mp hmem, hi]
      · rw [update_of_ne hj] at hmem
        exact hq.index q j hmem
    · intro q j hmem
      rw [hproc]
      by_cases hj : j = i
      · subst hj
        rw [update_self] at hmem
        rcases List.mem_append.mp hmem with hmem | hmem
        · exact hq.runnable q j hmem
        · rw [List.mem_singleton.mp hmem]
          exact ⟨hstat, hwchan⟩
      · rw [update_of_ne hj] at hmem
        exact hq.runnable q j hmem
  · intro q hqp
    exact hprevp _ (fun heq ↦ by cases heq) (fun heq ↦ hqp (by injection heq))

/-! ### Sleep queues -/

/-- A change of a process that the queues do not depend on. -/
theorem Queues.modify {f : Proc P → Proc P} (hq : Queues s sl rl)
    (hwchan : (f (s.proc p)).wchan = (s.proc p).wchan)
    (hready : s.links.prev (.proc p) ≠ none →
      (f (s.proc p)).pri = (s.proc p).pri ∧ (f (s.proc p)).stat = .srun) :
    Queues (s.modify p f) sl rl := by
  have hsame : ∀ q, ((s.modify p f).proc q).wchan = (s.proc q).wchan := by
    intro q
    change (update s.proc p (f (s.proc p)) q).wchan = _
    by_cases hqp : q = p
    · rw [hqp, update_self, hwchan]
    · rw [update_of_ne hqp]
  refine ⟨hq.sleepers, fun q h ↦ ?_, hq.once, hq.tail, hq.runners, hq.ready, hq.which,
    fun q i hi ↦ ?_,
    fun q i hi ↦ ?_⟩
  · rw [hsame]
    exact hq.asleep q h
  · rw [← hq.index q i hi]
    apply rqidx_congr
    change (update s.proc p (f (s.proc p)) q).pri = _
    by_cases hqp : q = p
    · subst hqp
      rw [update_self]
      exact (hready ((hq.ready q).mp ⟨i, hi⟩)).1
    · rw [update_of_ne hqp]
  · obtain ⟨hstat, hzero⟩ := hq.runnable q i hi
    refine ⟨?_, (hsame q).trans hzero⟩
    change (update s.proc p (f (s.proc p)) q).stat = _
    by_cases hqp : q = p
    · subst hqp
      rw [update_self]
      exact (hready ((hq.ready q).mp ⟨i, hi⟩)).2
    · rw [update_of_ne hqp, hstat]

omit [DecidableEq P] in
theorem endCell_of_ne_nil {c d : Cell P} {l : List P} (hne : l ≠ []) :
    endCell Cell.link c l = endCell Cell.link d l := by
  cases l with
  | nil => exact absurd rfl hne
  | cons q l => rfl

/-- The process behind the processes `l₁` is taken off its queue. -/
theorem Queues.dequeue {h : Fin 64} {l₁ l₂ : List P} (hq : Queues s sl rl)
    (hl : sl h = l₁ ++ p :: l₂) :
    Queues (s.dequeue p h (endCell Cell.link (.head h) l₁)) (update sl h (l₁ ++ l₂)) rl := by
  obtain ⟨cell, hcell⟩ : ∃ cell, endCell Cell.link (.head h) l₁ = cell := ⟨_, rfl⟩
  have hnodup : (l₁ ++ p :: l₂).Nodup := hl ▸ hq.once h
  have hsub : ∀ q ∈ l₁ ++ l₂, q ∈ sl h ∧ q ≠ p := by
    intro q hmem
    have hperm : (p :: (l₁ ++ l₂)).Nodup := List.perm_middle.nodup_iff.mp hnodup
    refine ⟨?_, fun heq ↦ (List.nodup_cons.mp hperm).1 (heq ▸ hmem)⟩
    rw [hl]
    exact List.perm_middle.mem_iff.mpr (List.mem_cons_of_mem p hmem)
  have hp : p ∈ sl h := hl ▸ List.mem_append_right l₁ List.mem_cons_self
  obtain ⟨t, ht⟩ : ∃ t, s.dequeue p h cell = t := ⟨_, rfl⟩
  have hload : t.load = update s.load cell (s.load (.link p)) := by
    rw [← load_store, ← ht, System.dequeue]
    split_ifs <;> rfl
  have hlinks : t.links = (s.store cell (s.load (.link p))).links := by
    rw [← ht, System.dequeue]
    split_ifs <;> rfl
  have hproc : t.proc = update s.proc p { s.proc p with wchan := 0 } := by
    rw [← ht, System.dequeue]
    split_ifs <;> cases cell <;> rfl
  have hwhich : t.whichqs = s.whichqs := by
    rw [← ht, System.dequeue]
    split_ifs <;> cases cell <;> rfl
  have htail : t.sqTailp = if s.sqTailp h = some (.link p) then update s.sqTailp h (some cell)
      else s.sqTailp := by
    rw [← ht, System.dequeue]
    split_ifs <;> cases cell <;> rfl
  have hwchan : ∀ q, q ≠ p → (t.proc q).wchan = (s.proc q).wchan := by
    intro q hqp
    rw [hproc, update_of_ne hqp]
  have hzero : (t.proc p).wchan = 0 := by rw [hproc, update_self]
  have hrest : ∀ q, (t.proc q).stat = (s.proc q).stat ∧ (t.proc q).pri = (s.proc q).pri := by
    intro q
    rw [hproc]
    by_cases hqp : q = p
    · rw [hqp, update_self]
      exact ⟨rfl, rfl⟩
    · rw [update_of_ne hqp]
      exact ⟨rfl, rfl⟩
  have hcellOf : ∀ q, cell = .link q → q ∈ sl h := by
    intro q heq
    rcases endCell_cases Cell.link (.head h) l₁ with ⟨-, hhead⟩ | ⟨r, hr, hlink⟩
    · exact absurd (hhead.symm.trans (hcell.trans heq)) (head_ne_link q)
    · obtain rfl := link_injective (hlink.symm.trans (hcell.trans heq))
      rw [hl]
      exact List.mem_append_left _ hr
  rw [hcell, ht]
  refine ⟨fun h' ↦ ?_, fun q h' ↦ ?_, fun h' ↦ ?_, fun h' ↦ ?_, ?_, fun q ↦ ?_, ?_, fun q i hi ↦ ?_,
    fun q i hi ↦ ?_⟩
  · rw [System.Asleep, hload]
    by_cases hh : h' = h
    · subst hh
      rw [update_self, ← hcell]
      refine Leads.remove link_injective (hl ▸ hq.sleepers h') (fun q _ ↦ head_ne_link q) hnodup
    · rw [update_of_ne hh]
      obtain ⟨hhead, hlink⟩ := hq.endCell_ne hh hl
      rw [hcell] at hhead hlink
      exact Leads.store (hq.sleepers h') hhead hlink _
  · by_cases hqp : q = p
    · subst hqp
      refine iff_of_false ?_ fun hthis ↦ hthis.1 hzero
      by_cases hh : h' = h
      · subst hh
        rw [update_self]
        exact fun hmem ↦ (hsub q hmem).2 rfl
      · rw [update_of_ne hh]
        exact fun hmem ↦ hh (hq.sleeping_unique hmem hp)
    · rw [hwchan q hqp, ← hq.asleep q h']
      by_cases hh : h' = h
      · subst hh
        rw [update_self, hl]
        simp [hqp]
      · rw [update_of_ne hh]
  · by_cases hh : h' = h
    · subst hh
      rw [update_self]
      exact (List.nodup_cons.mp (List.perm_middle.nodup_iff.mp hnodup)).2
    · rw [update_of_ne hh]
      exact hq.once h'
  · have hold : s.sqTailp h = some (endCell Cell.link (.link p) l₂) := by
      rcases hq.tail h with hthis | ⟨hnil, -⟩
      · rw [hthis, hl, endCell_append]
        rfl
      · rw [hnil] at hp
        exact absurd hp List.not_mem_nil
    by_cases hh : h' = h
    · subst hh
      left
      rw [htail, update_self, endCell_append, hcell]
      rcases List.eq_nil_or_concat l₂ with hnil | ⟨m, r, hm⟩
      · rw [hnil] at hold ⊢
        have hlast : s.sqTailp h' = some (.link p) := hold
        rw [if_pos hlast, update_self]
        rfl
      · have hne : l₂ ≠ [] := by
          rw [hm]
          simp
        have hlast : endCell Cell.link (.link p) l₂ = .link r := by
          rw [hm, List.concat_eq_append, endCell_concat]
        have hrp : r ≠ p := by
          refine (hsub r (List.mem_append_right l₁ ?_)).2
          rw [hm]
          simp
        have hother : s.sqTailp h' ≠ some (.link p) := by
          rw [hold, hlast]
          exact fun heq ↦ hrp (link_injective (Option.some.inj heq))
        rw [if_neg hother, hold]
        exact congrArg some (endCell_of_ne_nil hne)
    · rw [htail, update_of_ne hh]
      split_ifs
      · rw [update_of_ne hh]
        exact hq.tail h'
      · exact hq.tail h'
  · refine hq.rings_congr ?_ (fun i ↦ ?_) fun i q hi ↦ ?_
    · rw [hlinks, prev_store]
    · rw [hlinks]
      exact next_store _ fun q heq ↦ by cases heq
    · rw [hlinks]
      refine next_store _ fun r heq hlink ↦ ?_
      injection heq with heq
      exact hq.notMem_sl hi (heq ▸ hcellOf r hlink)
  · rw [hlinks, prev_store]
    exact hq.ready q
  · rw [hwhich]
    exact hq.which
  · rw [← hq.index q i hi]
    exact rqidx_congr (hrest q).2
  · obtain ⟨hstat, hnone⟩ := hq.runnable q i hi
    refine ⟨(hrest q).1.trans hstat, ?_⟩
    by_cases hqp : q = p
    · rw [hqp, hzero]
    · rw [hwchan q hqp, hnone]

/-- What `dequeue` does to the rest. -/
theorem dequeue_rest (s : System P) (p : P) (h : Fin 64) (cell : Cell P) :
    (s.dequeue p h cell).proc = update s.proc p { s.proc p with wchan := 0 } ∧
      (s.dequeue p h cell).links.prev = s.links.prev ∧ Same s (s.dequeue p h cell) := by
  rw [System.dequeue]
  split_ifs <;> cases cell <;> exact ⟨rfl, rfl, ⟨rfl, rfl, rfl, rfl, rfl, rfl⟩⟩

/-- A process is put on the sleep queue of its channel. -/
theorem Queues.enqueue {chan : ℕ} (hq : Queues s sl rl) (pri : Fin 128)
    (hwchan : (s.proc p).wchan = 0)
    (hchan : chan ≠ 0) (hprev : s.links.prev (.proc p) = none) :
    ∃ s', System.enqueue p (hash chan) (s.modify p fun q ↦ { q with wchan := chan, pri := pri }) =
        .ok s' ∧
      Queues s' (update sl (hash chan) (sl (hash chan) ++ [p])) rl ∧
      s'.proc = update s.proc p { s.proc p with wchan := chan, pri := pri } ∧
      s'.links.prev = s.links.prev ∧ Same s s' := by
  obtain ⟨h, hh⟩ : ∃ h, hash chan = h := ⟨_, rfl⟩
  obtain ⟨u, hu⟩ : ∃ u, s.modify p (fun q ↦ { q with wchan := chan, pri := pri }) = u := ⟨_, rfl⟩
  obtain ⟨cell, hcell⟩ : ∃ cell, endCell Cell.link (.head h) (sl h) = cell := ⟨_, rfl⟩
  have huload : u.load = s.load := by
    rw [← hu]
    rfl
  have hnot : ∀ h', p ∉ sl h' := fun h' hmem ↦ ((hq.asleep p h').mp hmem).1 hwchan
  have hnotrl : ∀ i, p ∉ rl i := fun i hi ↦ (hq.ready p).mp ⟨i, hi⟩ hprev
  have hhead : s.sqHead h = none ↔ sl h = [] := by
    have hlead := hq.sleepers h
    cases hsl : sl h with
    | nil =>
      rw [hsl] at hlead
      exact iff_of_true hlead rfl
    | cons q l =>
      rw [hsl] at hlead
      refine iff_of_false (fun hnone ↦ ?_) (List.cons_ne_nil q l)
      have hthis : s.sqHead h = some (.proc q) := hlead.1
      rw [hthis] at hnone
      cases hnone
  obtain ⟨t, ht⟩ : ∃ t : System P, { (u.store cell (some (.proc p))).store (.link p) none with
      sqTailp := update u.sqTailp h (some (.link p)) } = t := ⟨_, rfl⟩
  have hrun : System.enqueue p h u = .ok t := by
    rw [System.enqueue]
    have husq : u.sqHead = s.sqHead := by
      rw [← hu]
      rfl
    have hutail : u.sqTailp = s.sqTailp := by
      rw [← hu]
      rfl
    by_cases hnil : sl h = []
    · have hfirst : cell = .head h := by
        rw [← hcell, hnil]
        rfl
      have hnone : u.sqHead h = none := by rw [husq, hhead.mpr hnil]
      rw [if_pos hnone, ok_bind, ← ht, hfirst]
      rfl
    · have hsome : u.sqHead h ≠ none := by
        rw [husq]
        exact mt hhead.mp hnil
      have hlast : u.sqTailp h = some cell := by
        rw [hutail]
        rcases hq.tail h with hthis | hthis
        · rw [hthis, hcell]
        · exact absurd hthis.1 hnil
      rw [if_neg hsome, hlast, deref_bind, ← ht]
      cases cell <;> rfl
  have hload : t.load = update (update s.load cell (some (.proc p))) (.link p) none := by
    rw [← huload, ← load_store, ← load_store, ← ht]
    rfl
  have hproc : t.proc = update s.proc p { s.proc p with wchan := chan, pri := pri } := by
    rw [← ht]
    cases cell <;> rw [← hu] <;> rfl
  have hprevs : t.links.prev = s.links.prev := by
    rw [← ht]
    cases cell <;> rw [← hu] <;> rfl
  have hwhich : t.whichqs = s.whichqs := by
    rw [← ht]
    cases cell <;> rw [← hu] <;> rfl
  have htail : t.sqTailp = update s.sqTailp h (some (.link p)) := by
    rw [← ht]
    cases cell <;> rw [← hu] <;> rfl
  have hnext : ∀ n, (∀ q, n = .proc q → q ∉ sl h ∧ q ≠ p) → t.links.next n = s.links.next n := by
    intro n hn
    have hfirst : t.links.next n = (u.store cell (some (.proc p))).links.next n := by
      rw [← ht]
      refine next_store none fun q heq hlink ↦ ?_
      exact (hn q heq).2 (link_injective hlink).symm
    have hsecond : (u.store cell (some (.proc p))).links.next n = u.links.next n := by
      refine next_store _ fun q heq hlink ↦ ?_
      rcases endCell_cases Cell.link (.head h) (sl h) with ⟨-, hc⟩ | ⟨r, hr, hc⟩
      · exact head_ne_link q (hc.symm.trans (hcell.trans hlink))
      · obtain rfl := link_injective (hc.symm.trans (hcell.trans hlink))
        exact (hn r heq).1 hr
    rw [hfirst, hsecond, ← hu]
    rfl
  have hother : ∀ q, q ≠ p → t.proc q = s.proc q := by
    intro q hqp
    rw [hproc, update_of_ne hqp]
  have hself : (t.proc p).wchan = chan := by rw [hproc, update_self]
  rw [hh, hu]
  refine ⟨t, hrun, ⟨fun h' ↦ ?_, fun q h' ↦ ?_, fun h' ↦ ?_, fun h' ↦ ?_, ?_, fun q ↦ ?_, ?_,
    fun q i hi ↦ ?_, fun q i hi ↦ ?_⟩, hproc, hprevs, ?_⟩
  · rw [System.Asleep, hload]
    by_cases hh' : h' = h
    · subst hh'
      rw [update_self, ← hcell]
      refine Leads.concat link_injective (hq.sleepers h') (fun q _ ↦ head_ne_link q) ?_
      exact List.nodup_append.mpr ⟨hq.once h', List.nodup_singleton p, fun q hmem r hr heq ↦
        hnot h' (List.mem_singleton.mp hr ▸ heq ▸ hmem)⟩
    · rw [update_of_ne hh']
      obtain ⟨hne, hlink⟩ := hq.endCell_ne hh' (List.append_nil (sl h)).symm
      rw [hcell] at hne hlink
      refine Leads.store (Leads.store (hq.sleepers h') hne hlink _) (head_ne_link p).symm
        (fun q hmem heq ↦ ?_) _
      exact hnot h' (link_injective heq ▸ hmem)
  · by_cases hqp : q = p
    · subst hqp
      rw [hself, hh]
      by_cases hh' : h' = h
      · subst hh'
        rw [update_self]
        exact iff_of_true (List.mem_append_right _ List.mem_cons_self) ⟨hchan, rfl⟩
      · rw [update_of_ne hh']
        exact iff_of_false (hnot h') fun hthis ↦ hh' hthis.2.symm
    · rw [hother q hqp, ← hq.asleep q h']
      by_cases hh' : h' = h
      · subst hh'
        rw [update_self]
        simp [hqp]
      · rw [update_of_ne hh']
  · by_cases hh' : h' = h
    · subst hh'
      rw [update_self]
      exact List.nodup_append.mpr ⟨hq.once h', List.nodup_singleton p, fun q hmem r hr heq ↦
        hnot h' (List.mem_singleton.mp hr ▸ heq ▸ hmem)⟩
    · rw [update_of_ne hh']
      exact hq.once h'
  · by_cases hh' : h' = h
    · subst hh'
      left
      rw [htail, update_self, update_self, endCell_concat]
    · rw [htail, update_of_ne hh', update_of_ne hh']
      exact hq.tail h'
  · refine hq.rings_congr hprevs (fun i ↦ hnext _ fun q heq ↦ by cases heq) fun i q hi ↦ ?_
    refine hnext _ fun r heq ↦ ?_
    injection heq with heq
    exact ⟨heq ▸ hq.notMem_sl hi, fun hrp ↦ hnotrl i (hrp ▸ heq ▸ hi)⟩
  · rw [hprevs]
    exact hq.ready q
  · rw [hwhich]
    exact hq.which
  · have hqp : q ≠ p := fun heq ↦ hnotrl i (heq ▸ hi)
    rw [← hq.index q i hi]
    exact rqidx_congr (congrArg Proc.pri (hother q hqp))
  · have hqp : q ≠ p := fun heq ↦ hnotrl i (heq ▸ hi)
    rw [hother q hqp]
    exact hq.runnable q i hi
  · rw [← ht]
    cases cell <;> rw [← hu] <;> exact ⟨rfl, rfl, rfl, rfl, rfl, rfl⟩

end Bsd386.Kern.Sleep
