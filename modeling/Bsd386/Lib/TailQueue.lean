import Mathlib.Data.List.Nodup
import Bsd386.Lib.Linked

/-!
# Tail queues

A tail queue keeps a pointer to its first element and the address of the cell that holds the null
pointer after the last one; every element points to its successor and to the cell that points to
it. The cells are the head and the `next` field of each element, so a tail queue is a run of cells,
each leading to the `next` field of the element it points to. An operation that would follow a null
pointer has no result.
-/

namespace Bsd386

open Function

variable {E : Type*} [DecidableEq E]

/-- The address of a cell of a queue: the head, or the `next` field of an element. -/
inductive Slot (E : Type*)
  | head
  | next (e : E)
  deriving DecidableEq

/-- A queue and the links of its elements; `none` is the null pointer. -/
structure TailQueue (E : Type*) where
  head : Option E
  tail : Slot E
  next : E → Option E
  prev : E → Option (Slot E)

namespace TailQueue

variable {q : TailQueue E} {e f : E} {l l₁ l₂ : List E}

/-- The contents of a cell. -/
def load (q : TailQueue E) : Slot E → Option E
  | .head => q.head
  | .next e => q.next e

/-- Write a cell. -/
def store (q : TailQueue E) (cell : Slot E) (value : Option E) : TailQueue E :=
  match cell with
  | .head => { q with head := value }
  | .next e => { q with next := update q.next e value }

/-- Unlink an element: the cell before it takes its successor, and the successor, or the tail,
takes the address of that cell. -/
def remove (q : TailQueue E) (e : E) : Option (TailQueue E) := do
  let before ← q.prev e
  let q := q.store before (q.next e)
  match q.next e with
  | some f => return { q with prev := update q.prev f (q.prev e) }
  | none => return { q with tail := before }

/-- Link an element after the last one. -/
def insertTail (q : TailQueue E) (e : E) : TailQueue E :=
  let q := { q with next := update q.next e none, prev := update q.prev e (some q.tail) }
  { q.store q.tail (some e) with tail := .next e }

/-- Link an element before the first one, which must exist. -/
def insertHead (q : TailQueue E) (e : E) : Option (TailQueue E) := do
  let q := { q with next := update q.next e q.head, prev := update q.prev e (some .head) }
  let first ← q.head
  return { q with prev := update q.prev first (some (.next e)), head := some e }

/-- The queue as a run of cells. -/
def links (q : TailQueue E) : Links (Slot E) where
  next cell := (q.load cell).map .next
  prev
    | .head => none
    | .next e => q.prev e

/-- The cells of a queue with the elements of `l`. -/
def cells (l : List E) : List (Slot E) := .head :: l.map .next

/-- The cell after the last element. -/
def lastCell (l : List E) : Slot E := l.getLast?.elim .head .next

/-- The elements of the queue, in order. -/
structure Holds (q : TailQueue E) (l : List E) : Prop where
  nodup : l.Nodup
  run : q.links.Run (cells l)
  tail_eq : q.tail = lastCell l
  last : q.load q.tail = none

/-! ## Cells -/

theorem load_store (q : TailQueue E) (cell : Slot E) (value : Option E) :
    (q.store cell value).load = update q.load cell value := by
  funext other
  cases cell with
  | head =>
    cases other with
    | head => rfl
    | next f => rfl
  | next e =>
    cases other with
    | head => rfl
    | next f =>
      by_cases hf : f = e
      · subst hf
        simp [store, load]
      · simp [store, load, hf]

@[simp]
theorem prev_store (q : TailQueue E) (cell : Slot E) (value : Option E) :
    (q.store cell value).prev = q.prev := by
  cases cell <;> rfl

@[simp]
theorem tail_store (q : TailQueue E) (cell : Slot E) (value : Option E) :
    (q.store cell value).tail = q.tail := by
  cases cell <;> rfl

theorem next_store {cell : Slot E} (hcell : cell ≠ .next e) (value : Option E) :
    (q.store cell value).next e = q.next e :=
  (congrFun (load_store q cell value) (.next e)).trans (update_of_ne hcell.symm ..)

theorem links_store (q : TailQueue E) (cell : Slot E) (value : Option E) :
    (q.store cell value).links =
      { q.links with next := update q.links.next cell (value.map .next) } := by
  simp only [links, load_store, prev_store, Links.mk.injEq, and_true]
  funext other
  by_cases hother : other = cell
  · subst hother
    simp
  · simp [hother]

/-- Pointing a cell at an element, and the element back at the cell, is a join. -/
theorem links_join (q : TailQueue E) (cell : Slot E) (f : E) :
    { q.store cell (some f) with prev := update q.prev f (some cell) }.links =
      q.links.join cell (.next f) := by
  have hnext := congrArg Links.next (links_store q cell (some f))
  have hprev : (fun other : Slot E ↦ match other with
      | .head => none
      | .next e => update q.prev f (some cell) e) =
      update q.links.prev (.next f) (some cell) := by
    funext other
    cases other with
    | head => rfl
    | next e =>
      by_cases he : e = f
      · simp [he]
      · simp [he, links]
  exact congrArg₂ Links.mk hnext hprev

/-- Unlinking the last element. -/
theorem remove_last {cell : Slot E} (hprev : q.prev e = some cell) (hcell : cell ≠ .next e)
    (hnext : q.next e = none) : q.remove e = some { q.store cell none with tail := cell } := by
  have hkeep := next_store (q := q) hcell none
  rw [hnext] at hkeep
  simp [remove, hprev, hnext, hkeep]

/-- Unlinking any other element. -/
theorem remove_inner {cell : Slot E} (hprev : q.prev e = some cell) (hcell : cell ≠ .next e)
    (hnext : q.next e = some f) :
    q.remove e =
      some { q.store cell (some f) with prev := update q.prev f (some cell) } := by
  have hkeep := next_store (q := q) hcell (some f)
  rw [hnext] at hkeep
  simp [remove, hprev, hnext, hkeep]

omit [DecidableEq E] in
theorem linked_next {cell : Slot E} :
    q.links.Linked cell (.next e) ↔ q.load cell = some e ∧ q.prev e = some cell := by
  simp [Links.Linked, links]

omit [DecidableEq E] in
theorem mem_cells : .next e ∈ cells l ↔ e ∈ l := by
  simp [cells]

omit [DecidableEq E] in
theorem nodup_cells : (cells l).Nodup ↔ l.Nodup := by
  have hinj : Injective (Slot.next : E → Slot E) := fun _ _ h ↦ Slot.next.inj h
  rw [cells, List.nodup_cons, List.nodup_map_iff hinj]
  simp

omit [DecidableEq E] in
theorem cells_append (l₁ l₂ : List E) : cells (l₁ ++ l₂) = cells l₁ ++ l₂.map .next := by
  simp [cells]

omit [DecidableEq E] in
theorem cells_eq (l : List E) : ∃ s, cells l = s ++ [lastCell l] := by
  rcases List.eq_nil_or_concat l with rfl | ⟨l, e, rfl⟩
  · exact ⟨[], rfl⟩
  · exact ⟨cells l, by simp [cells, lastCell]⟩

/-! ## What a queue holds -/

omit [DecidableEq E] in
theorem Holds.nil (next : E → Option E) (prev : E → Option (Slot E)) :
    Holds ⟨none, .head, next, prev⟩ [] :=
  ⟨List.nodup_nil, List.isChain_singleton _, rfl, rfl⟩

omit [DecidableEq E] in
/-- The links of an element. -/
theorem Holds.links_of_append (h : q.Holds (l₁ ++ e :: l₂)) :
    q.prev e = some (lastCell l₁) ∧
      q.load (lastCell l₁) = some e ∧ q.next e = l₂.head? := by
  obtain ⟨s, hs⟩ := cells_eq l₁
  have hrun := h.run
  have htail := h.tail_eq
  rw [cells_append, hs, List.append_assoc] at hrun
  obtain ⟨-, hlink, hrest⟩ := List.isChain_append_cons_cons.1 hrun
  obtain ⟨hload, hprev⟩ := linked_next.1 hlink
  refine ⟨hprev, hload, ?_⟩
  cases l₂ with
  | nil =>
    have hcell : q.tail = .next e := by
      rw [htail]
      simp [lastCell]
    have hlast := h.last
    rw [hcell] at hlast
    exact hlast
  | cons f l₂ => exact (linked_next.1 (List.isChain_cons_cons.1 hrest).1).1

omit [DecidableEq E] in
theorem Holds.head_eq (h : q.Holds l) : q.head = l.head? := by
  cases l with
  | nil =>
    have hlast := h.last
    rw [h.tail_eq] at hlast
    exact hlast
  | cons e l =>
    have hholds : q.Holds ([] ++ e :: l) := h
    exact hholds.links_of_append.2.1

/-- An element can always be unlinked. -/
theorem Holds.remove_append (h : q.Holds (l₁ ++ e :: l₂)) :
    ∃ q', q.remove e = some q' ∧ q'.Holds (l₁ ++ l₂) := by
  obtain ⟨hprev, hload, hnext⟩ := h.links_of_append
  obtain ⟨s, hs⟩ := cells_eq l₁
  have hperm : (l₁ ++ e :: l₂).Perm (e :: (l₁ ++ l₂)) := List.perm_middle
  obtain ⟨he, hnodup⟩ := List.nodup_cons.1 (hperm.nodup_iff.1 h.nodup)
  rw [List.mem_append, not_or] at he
  have hnotin : Slot.next e ∉ cells l₁ := fun hmem ↦ he.1 (mem_cells.1 hmem)
  have hbefore : lastCell l₁ ≠ .next e := by
    rintro heq
    exact hnotin (by simp [hs, heq])
  have hcells : cells (l₁ ++ e :: l₂) = s ++ lastCell l₁ :: .next e :: l₂.map .next := by
    rw [cells_append, hs]
    simp
  have hrun := h.run
  rw [hcells] at hrun
  cases l₂ with
  | nil =>
    refine ⟨_, remove_last hprev hbefore hnext, ?_⟩
    rw [List.append_nil] at hnodup ⊢
    refine ⟨hnodup, ?_, rfl, ?_⟩
    · have hleft := (List.isChain_append_cons_cons.1 hrun).1
      rw [← hs] at hleft
      refine hleft.imp_of_mem_imp fun x y _ hy hxy ↦ ?_
      have hx : x ≠ lastCell l₁ := by
        rintro rfl
        exact hnotin (hxy.next_unique (linked_next.2 ⟨hload, hprev⟩) ▸ hy)
      have hlinks : { q.store (lastCell l₁) none with tail := lastCell l₁ }.links =
          { q.links with next := update q.links.next (lastCell l₁) none } := links_store ..
      rw [hlinks]
      exact ⟨(update_of_ne hx ..).trans hxy.1, hxy.2⟩
    · exact (congrFun (load_store q (lastCell l₁) none) (lastCell l₁)).trans (update_self ..)
  | cons f l₂ =>
    refine ⟨_, remove_inner hprev hbefore hnext, hnodup, ?_, ?_, ?_⟩
    · rw [links_join, cells_append, hs, List.append_assoc]
      refine hrun.remove ?_ ?_
      · rw [← hs]
        exact hnotin
      · rw [← List.map_cons, List.mem_map_of_injective (fun _ _ h ↦ Slot.next.inj h)]
        exact he.2
    · refine (tail_store ..).trans (h.tail_eq.trans ?_)
      simp [lastCell]
    · have htail : q.tail ≠ lastCell l₁ := fun htail ↦ by
        have hlast := h.last
        rw [htail, hload] at hlast
        exact Option.some_ne_none e hlast
      refine (congrFun (load_store q (lastCell l₁) (some f)) _).trans ?_
      rw [tail_store, update_of_ne htail]
      exact h.last

theorem Holds.remove (h : q.Holds l) (he : e ∈ l) :
    ∃ q', q.remove e = some q' ∧ q'.Holds (l.erase e) := by
  obtain ⟨l₁, l₂, hnot, rfl, herase⟩ := List.exists_erase_eq he
  rw [herase]
  exact h.remove_append

omit [DecidableEq E] in
theorem lastCell_mem (l : List E) : lastCell l ∈ cells l := by
  obtain ⟨s, hs⟩ := cells_eq l
  rw [hs]
  simp

/-- The fields of what is not in the queue do not matter. -/
theorem Holds.setLinks (h : q.Holds l) (he : e ∉ l) (next : Option E) (prev : Option (Slot E)) :
    Holds { q with next := update q.next e next, prev := update q.prev e prev } l := by
  have hload : ∀ cell ∈ cells l,
      load { q with next := update q.next e next, prev := update q.prev e prev } cell =
        q.load cell := by
    intro cell hcell
    cases cell with
    | head => rfl
    | next f => exact update_of_ne (ne_of_mem_of_not_mem (mem_cells.1 hcell) he) ..
  refine ⟨h.nodup, h.run.congr ?_ ?_, h.tail_eq, ?_⟩
  · exact fun cell hcell ↦ congrArg (Option.map Slot.next) (hload cell hcell)
  · intro cell hcell
    cases cell with
    | head => rfl
    | next f => exact update_of_ne (ne_of_mem_of_not_mem (mem_cells.1 hcell) he) ..
  · exact (hload q.tail (h.tail_eq ▸ lastCell_mem l)).trans h.last

/-- An element is linked after the last one. -/
theorem Holds.insertTail (h : q.Holds l) (he : e ∉ l) : (q.insertTail e).Holds (l ++ [e]) := by
  obtain ⟨s, hs⟩ := cells_eq l
  have hnotin : Slot.next e ∉ cells l := fun hmem ↦ he (mem_cells.1 hmem)
  have hload : (q.insertTail e).load =
      update (update q.load (.next e) none) q.tail (some e) := by
    refine (load_store _ q.tail (some e)).trans ?_
    have hclear :
      { q with next := update q.next e none, prev := update q.prev e (some q.tail) }.load =
        update q.load (.next e) none := load_store q (.next e) none
    rw [hclear]
  have htail : q.tail ∈ cells l := h.tail_eq ▸ lastCell_mem l
  have hprev : (q.insertTail e).prev = update q.prev e (some q.tail) := prev_store ..
  refine ⟨List.nodup_append_comm.1 (List.nodup_cons.2 ⟨he, h.nodup⟩), ?_, ?_, ?_⟩
  · have hcells : cells (l ++ [e]) = s ++ q.tail :: .next e :: [] := by
      rw [cells_append, hs, h.tail_eq]
      simp
    rw [hcells]
    refine List.isChain_append_cons_cons.2 ⟨?_, ?_, List.isChain_singleton _⟩
    · have hrun := h.run
      rw [h.tail_eq, ← hs]
      refine hrun.imp_of_mem_imp fun x y hx hy hxy ↦ ?_
      cases y with
      | head => exact absurd hxy.2 (by simp [links])
      | next g =>
        obtain ⟨hx', hg⟩ := linked_next.1 hxy
        have hxtail : x ≠ q.tail := by
          rintro rfl
          rw [h.last] at hx'
          exact Option.some_ne_none g hx'.symm
        have hge : g ≠ e := by
          rintro rfl
          exact hnotin hy
        refine linked_next.2 ⟨?_, ?_⟩
        · rw [hload, update_of_ne hxtail, update_of_ne (ne_of_mem_of_not_mem hx hnotin)]
          exact hx'
        · rw [hprev, update_of_ne hge]
          exact hg
    · refine linked_next.2 ⟨?_, ?_⟩
      · rw [hload, update_self]
      · rw [hprev, update_self]
  · simp [TailQueue.insertTail, lastCell]
  · refine (congrFun hload (.next e)).trans ?_
    rw [update_of_ne (ne_of_mem_of_not_mem htail hnotin).symm, update_self]

/-- An element is linked before the first one. -/
theorem Holds.insertHead (h : q.Holds (f :: l)) (he : e ∉ f :: l) :
    ∃ q', q.insertHead e = some q' ∧ q'.Holds (e :: f :: l) := by
  have hhead := h.head_eq
  let r := { q.store .head (some e) with prev := update q.prev e (some .head) }
  let r' := { r.store (.next e) (some f) with prev := update r.prev f (some (.next e)) }
  have hresult : q.insertHead e = some r' := by
    simp only [TailQueue.insertHead, hhead, List.head?_cons, Option.bind_eq_bind, Option.bind_some]
    rfl
  refine ⟨r', hresult, List.nodup_cons.2 ⟨he, h.nodup⟩, ?_, ?_, ?_⟩
  · have hlinks : r'.links = (q.links.join .head (.next e)).join (.next e) (.next f) := by
      rw [links_join r (.next e) f, links_join q .head e]
    have hrun : q.links.Run ([] ++ .head :: .next f :: l.map .next) := h.run
    have hnodup := nodup_cells.2 h.nodup
    rw [hlinks]
    refine hrun.insert (by simp) ?_ (by simp) ?_
    · exact (List.nodup_cons.1 (List.nodup_cons.1 hnodup).2).1
    · exact fun hmem ↦ he (mem_cells.1 (List.mem_cons_of_mem _ hmem))
  · refine h.tail_eq.trans ?_
    simp [lastCell]
  · have hload : r'.load = update (update q.load .head (some e)) (.next e) (some f) := by
      refine (load_store r (.next e) (some f)).trans ?_
      rw [show r.load = update q.load .head (some e) from load_store q .head (some e)]
    have htail : q.tail ∈ cells (f :: l) := h.tail_eq ▸ lastCell_mem _
    have hnotin : Slot.next e ∉ cells (f :: l) := fun hmem ↦ he (mem_cells.1 hmem)
    have hne : q.tail ≠ .head := by
      rw [h.tail_eq]
      simp [lastCell, List.getLast?_cons]
    refine (congrFun hload q.tail).trans ?_
    rw [update_of_ne (ne_of_mem_of_not_mem htail hnotin), update_of_ne hne]
    exact h.last

/-- Linking before the first element follows the null pointer of an empty queue. -/
theorem Holds.insertHead_nil (h : q.Holds []) : q.insertHead e = none := by
  have hhead := h.head_eq
  simp [TailQueue.insertHead, hhead]

end TailQueue

end Bsd386
