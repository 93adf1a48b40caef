import Mathlib.Data.List.Perm.Basic
import Mathlib.Data.List.Nodup
import Bsd386.Kern.Clock.Callout

/-!
# Deadlines

The callout queue keeps the deadline of each timeout, whatever is inserted, removed or called before
it.
-/

namespace Bsd386.Kern.Clock

open Deltas

variable {E Fn Arg : Type} {base t : ℤ} {l l' : Queue E Fn Arg}

/-! ### The loops -/

/-- The times of a queue are in order and within the range of an `int`. -/
structure Queue.Sound (base : ℤ) (l : Queue E Fn Arg) : Prop where
  ordered : Ordered base l
  low : ∀ x ∈ l, -2 ^ 31 ≤ x.2
  high : ∀ x ∈ offsets base l, x.2 < 2 ^ 31

theorem Queue.Sound.nil : Queue.Sound base ([] : Queue E Fn Arg) :=
  ⟨trivial, fun _ hx ↦ absurd hx List.not_mem_nil, fun _ hx ↦ absurd hx List.not_mem_nil⟩

theorem Queue.sound_cons_over {p : Callout E Fn Arg} (hover : t ≤ 0) :
    Queue.Sound base ((p, t) :: l) ↔
      (0 < base → 0 ≤ t) ∧ -2 ^ 31 ≤ t ∧ base + t < 2 ^ 31 ∧ Queue.Sound base l := by
  constructor
  · rintro ⟨hordered, hlow, hhigh⟩
    rw [ordered_cons_over hover] at hordered
    rw [offsets_cons_over hover] at hhigh
    exact ⟨hordered.1, hlow _ List.mem_cons_self, hhigh _ List.mem_cons_self, hordered.2,
      fun x hx ↦ hlow x (List.mem_cons_of_mem _ hx), fun x hx ↦ hhigh x (List.mem_cons_of_mem _ hx)⟩
  · rintro ⟨hbase, hlow, hhigh, hrest⟩
    refine ⟨(ordered_cons_over hover).mpr ⟨hbase, hrest.ordered⟩, ?_, ?_⟩
    · exact List.forall_mem_cons.mpr ⟨hlow, hrest.low⟩
    · rw [offsets_cons_over hover]
      exact List.forall_mem_cons.mpr ⟨hhigh, hrest.high⟩

theorem Queue.sound_cons_ahead {p : Callout E Fn Arg} (hahead : 0 ≤ t) :
    Queue.Sound base ((p, t) :: l) ↔ base + t < 2 ^ 31 ∧ Queue.Sound (base + t) l := by
  constructor
  · rintro ⟨hordered, hlow, hhigh⟩
    rw [ordered_cons_ahead hahead] at hordered
    rw [offsets_cons_ahead hahead] at hhigh
    exact ⟨hhigh _ List.mem_cons_self, hordered,
      fun x hx ↦ hlow x (List.mem_cons_of_mem _ hx), fun x hx ↦ hhigh x (List.mem_cons_of_mem _ hx)⟩
  · rintro ⟨hhigh, hrest⟩
    refine ⟨(ordered_cons_ahead hahead).mpr hrest.ordered, ?_, ?_⟩
    · exact List.forall_mem_cons.mpr ⟨by dsimp only; omega, hrest.low⟩
    · rw [offsets_cons_ahead hahead]
      exact List.forall_mem_cons.mpr ⟨hhigh, hrest.high⟩

/-- The part of a queue that is ahead, when the base comes down. -/
theorem Queue.Sound.lower {base' : ℤ} (hsound : Queue.Sound base l) (hpos : 0 < base)
    (hle : base' ≤ base) : Queue.Sound base' l := by
  refine ⟨hsound.ordered.rebase hpos, hsound.low, fun x hx ↦ ?_⟩
  have hbase : base = base' + (base - base') := by omega
  have hhigh := hsound.high
  rw [hbase, offsets_add] at hhigh
  have hthis := hhigh _ (List.mem_map_of_mem hx)
  dsimp only at hthis
  omega

/-- A tick: all deadlines come one tick nearer, and `needsoft` says whether one is reached. -/
theorem hardclock_spec (hsound : Queue.Sound 0 l) (hlow : ∀ x ∈ l, -2 ^ 31 < x.2) :
    Queue.Sound 0 l.hardclock.1 ∧
      offsets 0 l.hardclock.1 = (offsets 0 l).map (fun x ↦ (x.1, x.2 - 1)) ∧
      (l.hardclock.2 = true ↔ ∃ x ∈ offsets 0 l.hardclock.1, x.2 ≤ 0) := by
  induction l with
  | nil => exact ⟨.nil, rfl, by simp [Queue.hardclock]⟩
  | cons y rest ih =>
    obtain ⟨p1, time⟩ := y
    have htime := hlow _ List.mem_cons_self
    dsimp only at htime
    rcases le_or_gt time 0 with hover | hahead
    · -- It is over, and so the next one is looked at.
      obtain ⟨-, -, hhigh, hrest⟩ := (Queue.sound_cons_over hover).mp hsound
      have hint : int (time - 1) = time - 1 := int_eq (by omega) (by omega)
      obtain ⟨hsound', hoffsets, -⟩ := ih hrest fun x hx ↦ hlow x (List.mem_cons_of_mem _ hx)
      rw [Queue.hardclock, hint, if_neg (by omega), if_neg (by omega)]
      refine ⟨?_, ?_, iff_of_true rfl ?_⟩
      · exact (Queue.sound_cons_over (by omega)).mpr ⟨by omega, by omega, by omega, hsound'⟩
      · rw [offsets_cons_over (by omega), offsets_cons_over hover, hoffsets, List.map_cons,
          add_sub_assoc]
      · rw [offsets_cons_over (by omega)]
        exact ⟨_, List.mem_cons_self, by dsimp only; omega⟩
    · obtain ⟨hhigh, hrest⟩ := (Queue.sound_cons_ahead hahead.le).mp hsound
      have hint : int (time - 1) = time - 1 := int_eq (by omega) (by omega)
      have hsound' : Queue.Sound 0 ((p1, time - 1) :: rest) :=
        (Queue.sound_cons_ahead (by omega)).mpr ⟨by omega, hrest.lower (by omega) (by omega)⟩
      have hoffsets : offsets 0 ((p1, time - 1) :: rest) =
          (offsets 0 ((p1, time) :: rest)).map fun x ↦ (x.1, x.2 - 1) := by
        have hmove : offsets (0 + time) rest =
            (offsets (0 + (time - 1)) rest).map fun x ↦ (x.1, x.2 + 1) := by
          rw [← offsets_add]
          congr 1
          omega
        rw [offsets_cons_ahead (by omega), offsets_cons_ahead hahead.le, hmove, List.map_cons,
          List.map_map]
        have hsame : ((fun x : Callout E Fn Arg × ℤ ↦ (x.1, x.2 - 1)) ∘ fun x ↦ (x.1, x.2 + 1)) =
          id := by
          funext x
          simp
        rw [hsame, List.map_id, add_sub_assoc]
      rw [Queue.hardclock, hint]
      by_cases hone : time = 1
      · rw [if_neg (by omega), if_pos (by omega)]
        refine ⟨hsound', hoffsets, iff_of_true rfl ?_⟩
        rw [offsets_cons_ahead (by omega)]
        exact ⟨_, List.mem_cons_self, by dsimp only; omega⟩
      · rw [if_pos (by omega)]
        refine ⟨hsound', hoffsets, iff_of_false Bool.false_ne_true ?_⟩
        rintro ⟨x, hx, hle⟩
        have hordered := hsound'.ordered
        rw [ordered_cons_ahead (by omega)] at hordered
        rw [offsets_cons_ahead (by omega)] at hx
        rcases List.mem_cons.mp hx with rfl | hx
        · dsimp only at hle
          omega
        · have hthis := le_of_mem_offsets (by omega) hordered x hx
          omega

/-- A timeout is put between the others, whose deadlines stay. -/
theorem insert_spec (pnew : Callout E Fn Arg) (hbase : 0 ≤ base) (ht : 0 < t)
    (hhigh : base + t < 2 ^ 31)
    (hsound : Queue.Sound base l) :
    Queue.Sound base (l.insert pnew t) ∧
      (offsets base (l.insert pnew t)).Perm ((pnew, base + t) :: offsets base l) := by
  induction l generalizing base t with
  | nil =>
    refine ⟨(Queue.sound_cons_ahead ht.le).mpr ⟨hhigh, .nil⟩, ?_⟩
    rw [Queue.insert, offsets_cons_ahead ht.le]
    exact List.Perm.refl _
  | cons y rest ih =>
    obtain ⟨p2, time⟩ := y
    rw [Queue.insert]
    by_cases hlt : time < t
    · rw [if_pos hlt]
      rcases le_or_gt time 0 with hover | hahead
      · obtain ⟨hpos, hlow, htime, hrest⟩ := (Queue.sound_cons_over hover).mp hsound
        obtain ⟨hsound', hperm⟩ := ih hbase ht hhigh hrest
        rw [if_neg (by omega)]
        refine ⟨(Queue.sound_cons_over hover).mpr ⟨hpos, hlow, htime, hsound'⟩, ?_⟩
        rw [offsets_cons_over hover, offsets_cons_over hover]
        exact (hperm.cons _).trans (.swap _ _ _)
      · obtain ⟨htime, hrest⟩ := (Queue.sound_cons_ahead hahead.le).mp hsound
        have hint : int (t - time) = t - time := int_eq (by omega) (by omega)
        obtain ⟨hsound', hperm⟩ := ih (t := t - time) (by omega) (by omega) (by omega) hrest
        rw [if_pos hahead, hint]
        refine ⟨(Queue.sound_cons_ahead hahead.le).mpr ⟨htime, hsound'⟩, ?_⟩
        have hsame : base + time + (t - time) = base + t := by omega
        rw [hsame] at hperm
        rw [offsets_cons_ahead hahead.le, offsets_cons_ahead hahead.le]
        exact (hperm.cons _).trans (.swap _ _ _)
    · obtain ⟨htime, hrest⟩ := (Queue.sound_cons_ahead (by omega)).mp hsound
      have hint : int (time - t) = time - t := int_eq (by omega) (by omega)
      have hsame : base + t + (time - t) = base + time := by omega
      rw [if_neg hlt, hint]
      constructor
      · rw [Queue.sound_cons_ahead ht.le, Queue.sound_cons_ahead (by omega), hsame]
        exact ⟨hhigh, htime, hrest⟩
      · rw [offsets_cons_ahead ht.le, offsets_cons_ahead (t := time - t) (by omega),
          offsets_cons_ahead (t := time) (by omega), hsame]

/-- What follows an entry that is removed keeps its deadlines. -/
theorem inherit_spec {p2 : Callout E Fn Arg} (hbase : 0 ≤ base)
    (hsound : Queue.Sound base ((p2, t) :: l)) :
    Queue.Sound base (l.inherit t) ∧
      offsets base ((p2, t) :: l) = (p2, base + t) :: offsets base (l.inherit t) := by
  rcases le_or_gt t 0 with hover | hahead
  · obtain ⟨-, -, -, hrest⟩ := (Queue.sound_cons_over hover).mp hsound
    have hsame : l.inherit t = l := by
      cases l with
      | nil => rfl
      | cons y l => rw [Queue.inherit, if_neg (by omega)]
    rw [hsame, offsets_cons_over hover]
    exact ⟨hrest, rfl⟩
  · obtain ⟨-, hrest⟩ := (Queue.sound_cons_ahead hahead.le).mp hsound
    rw [offsets_cons_ahead hahead.le]
    cases l with
    | nil => exact ⟨.nil, rfl⟩
    | cons y l =>
      obtain ⟨p3, next⟩ := y
      have hnext : 0 ≤ next := hrest.ordered.1 (by omega)
      obtain ⟨hhigh, hrest'⟩ := (Queue.sound_cons_ahead hnext).mp hrest
      have hint : int (next + t) = next + t := int_eq (by omega) (by omega)
      have hsame : base + (next + t) = base + t + next := by omega
      rw [Queue.inherit, if_pos hahead, hint, Queue.sound_cons_ahead (by omega), hsame,
        offsets_cons_ahead hnext, offsets_cons_ahead (by omega), hsame]
      exact ⟨⟨hhigh, hrest'⟩, rfl⟩

variable [DecidableEq Fn] [DecidableEq Arg] {func : Fn} {arg : Arg}

theorem remove_none (hnone : l.remove func arg = none) :
    ∀ x ∈ l, ¬(x.1.cFunc = func ∧ x.1.cArg = arg) := by
  induction l with
  | nil => exact fun x hx ↦ absurd hx List.not_mem_nil
  | cons y rest ih =>
    obtain ⟨p2, time⟩ := y
    rw [Queue.remove] at hnone
    split_ifs at hnone with hmatch
    rw [Option.map_eq_none_iff] at hnone
    exact List.forall_mem_cons.mpr ⟨hmatch, ih hnone⟩

/-- `untimeout` takes out one match, and the deadlines of the others stay. -/
theorem remove_some {p : E} (hbase : 0 ≤ base) (hsound : Queue.Sound base l)
    (hsome : l.remove func arg = some (p, l')) :
    Queue.Sound base l' ∧ ∃ x, x.1.addr = p ∧ x.1.cFunc = func ∧ x.1.cArg = arg ∧
      (offsets base l).Perm (x :: offsets base l') := by
  induction l generalizing base l' with
  | nil => exact absurd hsome (Option.some_ne_none _).symm
  | cons y rest ih =>
    obtain ⟨p2, time⟩ := y
    rw [Queue.remove] at hsome
    split_ifs at hsome with hmatch
    · cases hsome
      obtain ⟨hsound', hoffsets⟩ := inherit_spec hbase hsound
      refine ⟨hsound', (p2, base + time), rfl, hmatch.1, hmatch.2, ?_⟩
      rw [hoffsets]
    · obtain ⟨⟨p', l''⟩, hsome', heq⟩ := Option.map_eq_some_iff.mp hsome
      cases heq
      rcases le_or_gt time 0 with hover | hahead
      · obtain ⟨hpos, hlow, htime, hrest⟩ := (Queue.sound_cons_over hover).mp hsound
        obtain ⟨hsound', x, haddr, hfunc, harg, hperm⟩ := ih hbase hrest hsome'
        refine ⟨(Queue.sound_cons_over hover).mpr ⟨hpos, hlow, htime, hsound'⟩, x, haddr, hfunc,
          harg, ?_⟩
        rw [offsets_cons_over hover, offsets_cons_over hover]
        exact (hperm.cons _).trans (.swap _ _ _)
      · obtain ⟨htime, hrest⟩ := (Queue.sound_cons_ahead hahead.le).mp hsound
        obtain ⟨hsound', x, haddr, hfunc, harg, hperm⟩ := ih (by omega) hrest hsome'
        refine ⟨(Queue.sound_cons_ahead hahead.le).mpr ⟨htime, hsound'⟩, x, haddr, hfunc, harg, ?_⟩
        rw [offsets_cons_ahead hahead.le, offsets_cons_ahead hahead.le]
        exact (hperm.cons _).trans (.swap _ _ _)

/-! ### Simulation -/

section Representation

omit [DecidableEq Fn] [DecidableEq Arg]

variable {table : List E} {s s' : Table E Fn Arg} {d : Deadlines Fn Arg} {number : E → ℕ}

/-- An entry that was represented goes back to the free ones. -/
theorem Represents.drop {x : Callout E Fn Arg × ℤ} (hrep : Represents table s d number)
    (hperm : s.waiting.Perm (x :: s'.waiting)) (hfree : s'.callfree = x.1.addr :: s.callfree) :
    Represents table s' { d with pending := Function.update d.pending (number x.1.addr) none }
      number := by
  have hdistinct := (hperm.map fun x ↦ number x.1.addr).nodup_iff.mp hrep.distinct
  rw [List.map_cons, List.nodup_cons] at hdistinct
  have hother : ∀ y ∈ s'.waiting, number y.1.addr ≠ number x.1.addr := fun y hy heq ↦
    hdistinct.1 (heq ▸ List.mem_map_of_mem (f := fun x ↦ number x.1.addr) hy)
  refine ⟨?_, fun y hy ↦ ?_, fun i r hi ↦ ?_, hdistinct.2, fun i r hi ↦ ?_⟩
  · have hentries := ((hperm.map fun x ↦ x.1.addr).append_right s.callfree).symm.trans hrep.entries
    rw [hfree]
    exact List.perm_middle.trans hentries
  · dsimp only
    rw [Function.update_of_ne (hother y hy)]
    exact hrep.pending y (hperm.mem_iff.mpr (List.mem_cons_of_mem x hy))
  · dsimp only at hi
    by_cases hne : i = number x.1.addr
    · rw [hne, Function.update_self] at hi
      exact absurd hi (Option.some_ne_none r).symm
    · rw [Function.update_of_ne hne] at hi
      obtain ⟨y, hy, rfl⟩ := hrep.queued i r hi
      rcases List.mem_cons.mp (hperm.mem_iff.mp hy) with rfl | hy
      · exact absurd rfl hne
      · exact ⟨y, hy, rfl⟩
  · dsimp only at hi
    by_cases hne : i = number x.1.addr
    · rw [hne, Function.update_self] at hi
      exact absurd hi (Option.some_ne_none r).symm
    · rw [Function.update_of_ne hne] at hi
      exact hrep.fresh i r hi

/-- A free entry is taken for a new timeout. -/
theorem Represents.add [DecidableEq E] {pnew : Callout E Fn Arg} {t : ℤ} (htable : table.Nodup)
    (hrep : Represents table s d number) (hperm : s'.waiting.Perm ((pnew, t) :: s.waiting))
    (hfree : s.callfree = pnew.addr :: s'.callfree) :
    Represents table s'
      { d with
        next := d.next + 1
        pending := Function.update d.pending d.next (some ⟨pnew.cFunc, pnew.cArg, d.now + t⟩) }
      (Function.update number pnew.addr d.next) := by
  have hnodup := hrep.entries.nodup_iff.mpr htable
  rw [hfree] at hnodup
  have hother : ∀ y ∈ s.waiting, y.1.addr ≠ pnew.addr := fun y hy heq ↦ by
    rw [List.nodup_middle, List.nodup_cons] at hnodup
    exact hnodup.1 (heq ▸ List.mem_append_left _
      (List.mem_map_of_mem (f := fun x ↦ x.1.addr) hy))
  have hold : ∀ y ∈ s.waiting, number y.1.addr < d.next := fun y hy ↦
    hrep.fresh _ _ (hrep.pending y hy)
  have hsame : (s.waiting.map fun x ↦ Function.update number pnew.addr d.next x.1.addr) =
      s.waiting.map fun x ↦ number x.1.addr :=
    List.map_congr_left fun y hy ↦ Function.update_of_ne (hother y hy) ..
  refine ⟨?_, fun y hy ↦ ?_, fun i r hi ↦ ?_, ?_, fun i r hi ↦ ?_⟩
  · have hentries := hrep.entries
    rw [hfree] at hentries
    exact ((hperm.map fun x ↦ x.1.addr).append_right s'.callfree).trans
      (List.perm_middle.symm.trans hentries)
  · dsimp only
    rcases List.mem_cons.mp (hperm.mem_iff.mp hy) with rfl | hy
    · rw [Function.update_self, Function.update_self]
    · rw [Function.update_of_ne (hother y hy), Function.update_of_ne (Nat.ne_of_lt (hold y hy))]
      exact hrep.pending y hy
  · dsimp only at hi
    by_cases hnew : i = d.next
    · exact ⟨_, hperm.mem_iff.mpr List.mem_cons_self, by rw [Function.update_self, hnew]⟩
    · rw [Function.update_of_ne hnew] at hi
      obtain ⟨y, hy, rfl⟩ := hrep.queued i r hi
      exact ⟨y, hperm.mem_iff.mpr (List.mem_cons_of_mem _ hy),
        Function.update_of_ne (hother y hy) ..⟩
  · refine (hperm.map _).nodup_iff.mpr ?_
    rw [List.map_cons, hsame, List.nodup_cons]
    refine ⟨fun hmem ↦ ?_, hrep.distinct⟩
    obtain ⟨y, hy, heq⟩ := List.mem_map.mp hmem
    rw [Function.update_self] at heq
    exact absurd heq (Nat.ne_of_lt (hold y hy))
  · dsimp only at hi ⊢
    by_cases hnew : i = d.next
    · omega
    · rw [Function.update_of_ne hnew] at hi
      exact Nat.lt_succ_of_lt (hrep.fresh i r hi)

/-- A timeout that waits has an entry. -/
theorem Represents.entry {i : ℕ} {r : Registration Fn Arg} (hrep : Represents table s d number)
    (hpending : d.pending i = some r) :
    ∃ x ∈ s.waiting, number x.1.addr = i ∧ r = ⟨x.1.cFunc, x.1.cArg, d.now + x.2⟩ := by
  obtain ⟨x, hx, rfl⟩ := hrep.queued i r hpending
  exact ⟨x, hx, rfl, Option.some.inj (hpending.symm.trans (hrep.pending x hx))⟩

/-- A timeout is due where its entry is. -/
theorem Represents.due_iff (hrep : Represents table s d number) :
    (∃ i, d.Due i) ↔ ∃ x ∈ s.waiting, x.2 ≤ 0 := by
  constructor
  · rintro ⟨i, r, hpending, hdue⟩
    obtain ⟨x, hx, -, rfl⟩ := hrep.entry hpending
    exact ⟨x, hx, by dsimp only at hdue; omega⟩
  · rintro ⟨x, hx, hle⟩
    exact ⟨_, _, hrep.pending x hx, by dsimp only; omega⟩

end Representation

variable {table : List E} {s s' : Table E Fn Arg} {d : Deadlines Fn Arg} {number : E → ℕ}

omit [DecidableEq Fn] [DecidableEq Arg] in
/-- A turn of the loop of `softclock`. -/
theorem Represents.softclock (hrep : Represents table s d number) (hsound : s.calltodo.Sound 0) :
    match s.softclock with
    | (s', none) => s' = s ∧ ∀ i, ¬d.Due i
    | (s', some (func, arg, a)) => s'.calltodo.Sound 0 ∧ ∃ d',
      d.Step .softclock (.called func arg a) d' ∧ Represents table s' d' number := by
  rw [Table.softclock]
  cases hqueue : s.calltodo with
  | nil =>
    have hwaiting : s.waiting = [] := by rw [Table.waiting, hqueue, offsets_nil]
    refine ⟨rfl, fun i hdue ↦ ?_⟩
    obtain ⟨x, hx, -⟩ := hrep.due_iff.mp ⟨i, hdue⟩
    rw [hwaiting] at hx
    exact absurd hx List.not_mem_nil
  | cons y rest =>
    obtain ⟨p1, a⟩ := y
    dsimp only
    rw [hqueue] at hsound
    split_ifs with hahead
    · refine ⟨rfl, fun i hdue ↦ ?_⟩
      obtain ⟨x, hx, hle⟩ := hrep.due_iff.mp ⟨i, hdue⟩
      have hordered := hsound.ordered
      rw [ordered_cons_ahead hahead.le] at hordered
      rw [Table.waiting, hqueue, offsets_cons_ahead hahead.le] at hx
      rcases List.mem_cons.mp hx with rfl | hx
      · dsimp only at hle
        omega
      · have hthis := le_of_mem_offsets (by omega) hordered x hx
        omega
    · have hover : a ≤ 0 := by omega
      have hwaiting : s.waiting = (p1, a) :: offsets 0 rest := by
        rw [Table.waiting, hqueue, offsets_cons_over hover, zero_add]
      have hpending := hrep.pending (p1, a) (hwaiting ▸ List.mem_cons_self)
      have hlate : -((d.now : ℤ) - (d.now + a)) = a := by omega
      have hstep := Deadlines.Step.called hpending (by dsimp only; omega)
      dsimp only at hstep
      rw [hlate] at hstep
      refine ⟨((Queue.sound_cons_over hover).mp hsound).2.2.2, _, hstep, ?_⟩
      have hperm :
        s.waiting.Perm ((p1, a) :: (⟨rest, p1.addr :: s.callfree⟩ : Table E Fn Arg).waiting) :=
        hwaiting ▸ List.Perm.refl _
      exact hrep.drop hperm rfl

/-- One event that meets its condition. -/
theorem Represents.exec [DecidableEq E] {e : Event Fn Arg} {o : Output Fn Arg}
    (htable : table.Nodup)
    (hrep : Represents table s d number) (hsound : s.calltodo.Sound 0) (hmeets : e.Meets s)
    (hexec : s.exec e = .ok (s', o)) :
    s'.calltodo.Sound 0 ∧ ∃ d' number', d.Step e o d' ∧ Represents table s' d' number' := by
  cases e with
  | hardclock =>
    cases hexec
    obtain ⟨hsound', hoffsets, -⟩ := hardclock_spec hsound hmeets
    have hrep' : Represents table ⟨s.calltodo.hardclock.1, s.callfree⟩
        { d with now := d.now + 1 } number := by
      have hwaiting : (⟨s.calltodo.hardclock.1, s.callfree⟩ : Table E Fn Arg).waiting =
          s.waiting.map fun x ↦ (x.1, x.2 - 1) := hoffsets
      refine ⟨?_, fun x hx ↦ ?_, fun i r hi ↦ ?_, ?_, hrep.fresh⟩
      · rw [hwaiting, List.map_map]
        exact hrep.entries
      · rw [hwaiting] at hx
        obtain ⟨y, hy, rfl⟩ := List.mem_map.mp hx
        dsimp only
        rw [hrep.pending y hy]
        have hdeadline : (d.now : ℤ) + y.2 = ((d.now + 1 : ℕ) : ℤ) + (y.2 - 1) := by omega
        rw [hdeadline]
      · obtain ⟨y, hy, heq⟩ := hrep.queued i r hi
        refine ⟨(y.1, y.2 - 1), ?_, heq⟩
        rw [hwaiting]
        exact List.mem_map.mpr ⟨y, hy, rfl⟩
      · rw [hwaiting, List.map_map]
        exact hrep.distinct
    exact ⟨hsound', _, number, .tick, hrep'⟩
  | softclock =>
    have hturn := hrep.softclock hsound
    rw [Table.exec] at hexec
    cases hrun : s.softclock with
    | mk s₁ called =>
      rw [hrun] at hturn hexec
      cases called with
      | none =>
        cases hexec
        obtain ⟨rfl, hnone⟩ := hturn
        exact ⟨hsound, d, number, .ended hnone, hrep⟩
      | some call =>
        obtain ⟨func, arg, a⟩ := call
        cases hexec
        obtain ⟨hsound', d', hstep, hrep'⟩ := hturn
        exact ⟨hsound', d', number, hstep, hrep'⟩
  | timeout func arg t =>
    rw [Table.exec, Table.timeout] at hexec
    cases hfree : s.callfree with
    | nil =>
      rw [hfree] at hexec
      cases hexec
    | cons pnew callfree =>
      rw [hfree] at hexec
      cases hexec
      have ht : (if t.1 ≤ 0 then 1 else t.1) = max t.1 1 := by
        split_ifs with hle
        · exact (max_eq_right (by omega)).symm
        · exact (max_eq_left (by omega)).symm
      have hrange := t.2
      obtain ⟨hsound', hperm⟩ := insert_spec (t := max t.1 1) ⟨pnew, func, arg⟩ le_rfl (by omega)
        (by omega) hsound
      rw [zero_add] at hperm
      have hperm' :
        (⟨s.calltodo.insert ⟨pnew, func, arg⟩ (max t.1 1), callfree⟩ : Table E Fn Arg).waiting.Perm
          ((⟨pnew, func, arg⟩, max t.1 1) :: s.waiting) := hperm
      rw [ht]
      exact ⟨hsound', _, _, .registered, hrep.add htable hperm' hfree⟩
  | untimeout func arg =>
    rw [Table.exec, Table.untimeout] at hexec
    cases hremove : s.calltodo.remove func arg with
    | none =>
      rw [hremove] at hexec
      cases hexec
      refine ⟨hsound, d, number, .missed fun i r hi ↦ ?_, hrep⟩
      obtain ⟨x, hx, -, rfl⟩ := hrep.entry hi
      have hmem : x.1 ∈ s.calltodo.map Prod.fst := by
        have hfst : (offsets 0 s.calltodo).map Prod.fst = s.calltodo.map Prod.fst := map_fst_offsets
        rw [← hfst]
        exact List.mem_map_of_mem hx
      obtain ⟨y, hy, heq⟩ := List.mem_map.mp hmem
      rw [← heq]
      exact remove_none hremove y hy
    | some found =>
      obtain ⟨p2, calltodo⟩ := found
      rw [hremove] at hexec
      cases hexec
      obtain ⟨hsound', x, rfl, rfl, rfl, hperm⟩ := remove_some le_rfl hsound hremove
      have hpending := hrep.pending x (hperm.mem_iff.mpr List.mem_cons_self)
      have hperm' : s.waiting.Perm
          (x :: (⟨calltodo, x.1.addr :: s.callfree⟩ : Table E Fn Arg).waiting) := hperm
      exact ⟨hsound', _, number, .removed hpending, hrep.drop hperm' rfl⟩

/-! ### Runs -/

/-- In a run in which no callout becomes `2 ^ 31` ticks late, the queue keeps the deadlines: each
timeout that was set and not removed waits in one entry, and is called once, with how late it is, in
the first run of `softclock` at its deadline or after it. Only a table without free entries stops
`timeout`. -/
theorem callout_deadlines {h : List (Event Fn Arg × Output Fn Arg)} (htable : table.Nodup)
    (hrun : Run table (fun s e ↦ e.Meets s) h s) :
    (∃ d number, Deadlines.Run h d ∧ Represents table s d number) ∧
      ∀ e : Event Fn Arg, (∃ s' o, s.exec e = .ok (s', o)) ∨
        s.callfree = [] ∧ s.exec e = .error (.panic "timeout table overflow") := by
  classical
  constructor
  · have hall : s.calltodo.Sound 0 ∧ ∃ d number, Deadlines.Run h d ∧
      Represents table s d number := by
      induction hrun with
      | start =>
        exact ⟨.nil, ⟨0, 0, fun _ ↦ none⟩, fun _ ↦ 0, .start, List.Perm.refl _,
          fun x hx ↦ absurd hx List.not_mem_nil, fun i r hi ↦
          absurd hi (Option.some_ne_none r).symm,
          List.nodup_nil, fun i r hi ↦ absurd hi (Option.some_ne_none r).symm⟩
      | step hrun hallowed hexec ih =>
        obtain ⟨hsound, d, number, hd, hrep⟩ := ih
        obtain ⟨hsound', d', number', hstep, hrep'⟩ := hrep.exec htable hsound hallowed hexec
        exact ⟨hsound', d', number', hd.step hstep, hrep'⟩
    exact hall.2
  · intro e
    cases e with
    | hardclock => exact .inl ⟨_, _, rfl⟩
    | softclock =>
      rw [Table.exec]
      rcases s.softclock with ⟨s₁, _ | ⟨func, arg, a⟩⟩
      · exact .inl ⟨_, _, rfl⟩
      · exact .inl ⟨_, _, rfl⟩
    | timeout func arg t =>
      rw [Table.exec, Table.timeout]
      cases hfree : s.callfree with
      | nil => exact .inr ⟨rfl, rfl⟩
      | cons pnew callfree => exact .inl ⟨_, _, rfl⟩
    | untimeout func arg => exact .inl ⟨_, _, rfl⟩

/-- A timeout of one tick is called two ticks late. -/
theorem callout_deadlines_late :
    ∃ (s : Table ℕ ℕ ℕ) (h : List (Event ℕ ℕ × Output ℕ ℕ)) (d : Deadlines ℕ ℕ),
      s.exec .softclock = .ok (⟨[], [0, 1]⟩, .called 7 8 (-2)) ∧
        (∃ number, Deadlines.Run h d ∧ Represents [0, 1] s d number) := by
  have hmeets : ∀ t : ℤ, -2 ^ 31 < t →
      (Event.hardclock : Event ℕ ℕ).Meets (⟨[(⟨0, 7, 8⟩, t)], [1]⟩ : Table ℕ ℕ ℕ) := by
    intro t ht x hx
    rw [List.mem_singleton.mp hx]
    exact ht
  have hrun : Run [0, 1] (fun s (e : Event ℕ ℕ) ↦ e.Meets s) [] (⟨[], [0, 1]⟩ : Table ℕ ℕ ℕ) :=
    .start
  have hset := hrun.step (e := .timeout 7 8 ⟨1, by decide⟩) trivial rfl
  have hfirst := hset.step (e := .hardclock) (hmeets _ (by decide)) rfl
  have hsecond := hfirst.step (e := .hardclock) (hmeets _ (by decide)) rfl
  have hthird := hsecond.step (e := .hardclock) (hmeets _ (by decide)) rfl
  obtain ⟨d, number, hd, hrep⟩ := (callout_deadlines (by decide) hthird).1
  exact ⟨_, _, d, rfl, number, hd, hrep⟩

/-! ### A callout that is too late -/

omit [DecidableEq Fn] [DecidableEq Arg] in
theorem Deadlines.Run.snoc {h : List (Event Fn Arg × Output Fn Arg)} {e : Event Fn Arg}
    {o : Output Fn Arg} (hrun : Deadlines.Run (h ++ [(e, o)]) d) :
    ∃ d₀, Deadlines.Run h d₀ ∧ d₀.Step e o d := by
  generalize hlist : h ++ [(e, o)] = l at hrun
  cases hrun with
  | start => simp at hlist
  | step hrun hstep =>
    obtain ⟨rfl, heq⟩ := List.append_inj' hlist rfl
    cases heq
    exact ⟨_, hrun, hstep⟩

/-- A timeout of one tick, and then only ticks. -/
def ticking (n : ℕ) : List (Event ℕ ℕ × Output ℕ ℕ) :=
  (.timeout 7 8 ⟨1, by decide⟩, .registered) :: List.replicate n (.hardclock, .needsoft true)

theorem ticking_succ (n : ℕ) : ticking (n + 1) = ticking n ++ [(.hardclock, .needsoft true)] := by
  rw [ticking, List.replicate_succ', ticking, List.cons_append]

theorem run_ticking {n : ℕ} (hle : n ≤ 2 ^ 31 + 1) :
    Run [0] (fun _ _ ↦ True) (ticking n) (⟨[(⟨0, 7, 8⟩, 1 - n)], []⟩ : Table ℕ ℕ ℕ) := by
  induction n with
  | zero => exact Run.start.step (e := .timeout 7 8 ⟨1, by decide⟩) trivial rfl
  | succ n ih =>
    have hint : int (1 - (n : ℤ) - 1) = 1 - ((n + 1 : ℕ) : ℤ) := by
      rw [int_eq (by omega) (by omega)]
      omega
    have hloop : (Queue.hardclock [(⟨0, 7, 8⟩, 1 - (n : ℤ))] : Queue ℕ ℕ ℕ × Bool) =
        ([(⟨0, 7, 8⟩, 1 - ((n + 1 : ℕ) : ℤ))], true) := by
      rw [Queue.hardclock, hint, if_neg (by omega)]
      split_ifs <;> rfl
    rw [ticking_succ]
    refine (ih (by omega)).step (e := .hardclock) trivial ?_
    rw [Table.exec, hloop]

theorem deadlines_ticking {n : ℕ} {d : Deadlines ℕ ℕ} (hrun : Deadlines.Run (ticking n) d) :
    d.now = n ∧ d.pending 0 = some ⟨7, 8, 1⟩ := by
  induction n generalizing d with
  | zero =>
    obtain ⟨d₀, hstart, hstep⟩ := Deadlines.Run.snoc (h := []) hrun
    generalize hnil : ([] : List (Event ℕ ℕ × Output ℕ ℕ)) = l at hstart
    cases hstart with
    | start =>
      cases hstep
      exact ⟨rfl, rfl⟩
    | step => simp at hnil
  | succ n ih =>
    rw [ticking_succ] at hrun
    obtain ⟨d₀, hbefore, hstep⟩ := hrun.snoc
    obtain ⟨hnow, hpending⟩ := ih hbefore
    cases hstep
    exact ⟨congrArg (· + 1) hnow, hpending⟩

/-- A callout that is `2 ^ 31 + 1` ticks late seems to lie ahead, and a run of `softclock` leaves
it. -/
theorem callout_forgotten :
    ¬ ∀ (h : List (Event ℕ ℕ × Output ℕ ℕ)) (s : Table ℕ ℕ ℕ), Run [0] (fun _ _ ↦ True) h s →
      ∃ d number, Deadlines.Run h d ∧ Represents [0] s d number := by
  intro hall
  obtain ⟨s, hs⟩ : ∃ s : Table ℕ ℕ ℕ, s = ⟨[(⟨0, 7, 8⟩, 2 ^ 31 - 1)], []⟩ := ⟨_, rfl⟩
  have hlast : Run [0] (fun _ _ ↦ True) (ticking (2 ^ 31 + 1) ++ [(.hardclock, .needsoft false)])
    s := by
    refine (run_ticking le_rfl).step (e := .hardclock) trivial ?_
    have hint : int (1 - ((2 ^ 31 + 1 : ℕ) : ℤ) - 1) = 2 ^ 31 - 1 := by decide
    rw [Table.exec, Queue.hardclock, hint, hs]
    rfl
  have hturn : s.exec .softclock = .ok (s, .ended) := by
    rw [hs]
    rfl
  have hended := hlast.step (e := .softclock) trivial hturn
  obtain ⟨d, number, hrun, -⟩ := hall _ _ hended
  obtain ⟨d₁, hrun₁, hstep₁⟩ := hrun.snoc
  obtain ⟨d₀, hrun₀, hstep₀⟩ := hrun₁.snoc
  obtain ⟨hnow, hpending⟩ := deadlines_ticking hrun₀
  cases hstep₀
  cases hstep₁ with
  | ended hnone =>
    refine hnone 0 ⟨_, hpending, ?_⟩
    dsimp only
    rw [hnow]
    decide

end Bsd386.Kern.Clock
