import Bsd386.Kern.Fork.Basic
import Mathlib.Data.Finset.Card
import Mathlib.Order.Interval.Finset.Nat

/-!
# Process ids

The search of `fork1` ends as long as some id is free, and the id it finds is the pid of no process
and the id of no process group if no process has a pid next to the id of its group. A call that
sleeps keeps this, unless `nextpid` comes round to its id again.
-/

namespace Bsd386.Kern.Fork

open Function

/-! ## The scan -/

/-- A process whose two ids are not neighbours. After the candidate has moved past one of them, the
scan does not compare it with the other one. -/
def Proc.Apart (p : Proc) : Prop := p.pPid ≠ p.pgId + 1 ∧ p.pgId ≠ p.pPid + 1

/-- One of the ids of a process. -/
def Proc.Has (p : Proc) (id : ℕ) : Prop := id = p.pPid ∨ id = p.pgId

variable {procs : List Proc} {nextpid pidchecked fuel f : ℕ}

theorem bound_spec (hlt : nextpid < pidchecked) (id : ℕ) :
    bound nextpid pidchecked id ≤ pidchecked ∧ nextpid < bound nextpid pidchecked id ∧
      (nextpid < id → bound nextpid pidchecked id ≤ id) := by
  unfold bound
  split_ifs <;> omega

theorem scan_cons {p : Proc} : scan (p :: procs) nextpid pidchecked =
    if p.pPid = nextpid ∨ p.pgId = nextpid then
      if pidchecked ≤ nextpid + 1 then (true, nextpid + 1, pidchecked)
      else
        scan procs (nextpid + 1)
          (bound (nextpid + 1) (bound (nextpid + 1) pidchecked p.pPid) p.pgId)
    else scan procs nextpid (bound nextpid (bound nextpid pidchecked p.pPid) p.pgId) :=
  rfl

/-- The candidate grows, and a scan that goes back has moved it up to `pidchecked`. -/
theorem scan_bounds (procs : List Proc) (hlt : nextpid < pidchecked) :
    nextpid ≤ (scan procs nextpid pidchecked).2.1 ∧
      (scan procs nextpid pidchecked).2.1 ≤ pidchecked ∧
      ((scan procs nextpid pidchecked).1 = true →
        nextpid < (scan procs nextpid pidchecked).2.1 ∧
          (scan procs nextpid pidchecked).2.2 ≤ (scan procs nextpid pidchecked).2.1) := by
  induction procs generalizing nextpid pidchecked with
  | nil => exact ⟨Nat.le_refl _, Nat.le_of_lt hlt, fun h ↦ absurd h Bool.false_ne_true⟩
  | cons p rest ih =>
    rw [scan_cons]
    split_ifs with hmatch hretry
    · exact ⟨Nat.le_succ _, hlt, fun _ ↦ ⟨Nat.lt_succ_self _, hretry⟩⟩
    · have hfirst := bound_spec (Nat.lt_of_not_le hretry) p.pPid
      have hsecond := bound_spec hfirst.2.1 p.pgId
      have hrest := ih hsecond.2.1
      exact ⟨by omega, by omega, fun h ↦ ⟨by have hback := (hrest.2.2 h).1; omega, (hrest.2.2 h).2⟩⟩
    · have hfirst := bound_spec hlt p.pPid
      have hsecond := bound_spec hfirst.2.1 p.pgId
      have hrest := ih hsecond.2.1
      exact ⟨by omega, by omega, fun h ↦ ⟨by have hback := (hrest.2.2 h).1; omega, (hrest.2.2 h).2⟩⟩

/-- The candidate does not pass an id that no process has. -/
theorem scan_le_free (pidchecked : ℕ) (hfree : ∀ p ∈ procs, ¬ p.Has f) (hle : nextpid ≤ f) :
    (scan procs nextpid pidchecked).2.1 ≤ f := by
  induction procs generalizing nextpid pidchecked with
  | nil => exact hle
  | cons p rest ih =>
    have hrest := fun q hq ↦ hfree q (List.mem_cons_of_mem p hq)
    have hhead := hfree p List.mem_cons_self
    unfold Proc.Has at hhead
    rw [scan_cons]
    split_ifs with hmatch hretry
    · dsimp only
      omega
    · exact ih _ hrest (by omega)
    · exact ih _ hrest hle

/-- Behind a scan that is not repeated, no process has an id from the candidate up to
`pidchecked`. -/
theorem scan_free (hapart : ∀ p ∈ procs, p.Apart) (hlt : nextpid < pidchecked)
    (hdone : (scan procs nextpid pidchecked).1 = false) :
    (scan procs nextpid pidchecked).2.1 < (scan procs nextpid pidchecked).2.2 ∧
      (scan procs nextpid pidchecked).2.2 ≤ pidchecked ∧
      ∀ p ∈ procs, ∀ id, p.Has id →
        id < (scan procs nextpid pidchecked).2.1 ∨ (scan procs nextpid pidchecked).2.2 ≤ id := by
  induction procs generalizing nextpid pidchecked with
  | nil => exact ⟨hlt, Nat.le_refl _, fun p hp ↦ absurd hp List.not_mem_nil⟩
  | cons p rest ih =>
    have hrest := fun q hq ↦ hapart q (List.mem_cons_of_mem p hq)
    have hhead := hapart p List.mem_cons_self
    unfold Proc.Apart at hhead
    rw [scan_cons] at hdone ⊢
    split_ifs at hdone ⊢ with hmatch hretry
    · have hfirst := bound_spec (Nat.lt_of_not_le hretry) p.pPid
      have hsecond := bound_spec hfirst.2.1 p.pgId
      have hnext := ih hrest hsecond.2.1 hdone
      have hgrows := (scan_bounds rest hsecond.2.1).1
      refine ⟨hnext.1, by omega, fun q hq id hid ↦ ?_⟩
      rw [List.mem_cons] at hq
      obtain hq | hq := hq
      · rw [hq] at hid
        unfold Proc.Has at hid
        omega
      · exact hnext.2.2 q hq id hid
    · have hfirst := bound_spec hlt p.pPid
      have hsecond := bound_spec hfirst.2.1 p.pgId
      have hnext := ih hrest hsecond.2.1 hdone
      have hgrows := (scan_bounds rest hsecond.2.1).1
      refine ⟨hnext.1, by omega, fun q hq id hid ↦ ?_⟩
      rw [List.mem_cons] at hq
      obtain hq | hq := hq
      · rw [hq] at hid
        unfold Proc.Has at hid
        omega
      · exact hnext.2.2 q hq id hid

/-! ## The search -/

theorem wrapPid_lt (nextpid : ℕ) : wrapPid nextpid < pidMax := by
  unfold wrapPid
  split_ifs with hwrap
  · exact (by decide : 100 < pidMax)
  · exact Nat.lt_of_not_le hwrap

/-- The turns that the search takes at most when the id `f` is free. -/
def turns (f nextpid : ℕ) : ℕ :=
  if nextpid ≤ f then f - nextpid else pidMax - nextpid + (f - 100) + 1

/-- The search ends if an id is free. -/
theorem search_ends (pidchecked : ℕ) (hfree : ∀ p ∈ procs, ¬ p.Has f) (hlow : 100 ≤ f)
    (hhigh : f < pidMax) (hfuel : turns f nextpid < fuel) :
    ∃ found, search procs fuel nextpid pidchecked = some found := by
  induction fuel generalizing nextpid pidchecked with
  | zero => exact absurd hfuel (Nat.not_lt_zero _)
  | succ fuel ih =>
    rw [search]
    split_ifs with hscan hretry
    · have hbounds := scan_bounds procs (wrapPid_lt nextpid)
      have hgrows := (hbounds.2.2 hretry).1
      apply ih
      by_cases hend : pidMax ≤ nextpid
      · have hwrap : wrapPid nextpid = 100 := if_pos hend
        rw [hwrap] at hgrows ⊢
        have hbelow := scan_le_free pidMax hfree hlow
        unfold turns at hfuel ⊢
        rw [if_pos hbelow]
        rw [if_neg (by omega)] at hfuel
        omega
      · have hwrap : wrapPid nextpid = nextpid := if_neg hend
        rw [hwrap] at hgrows hbounds ⊢
        unfold turns at hfuel ⊢
        by_cases hle : nextpid ≤ f
        · have hbelow := scan_le_free pidMax hfree hle
          rw [if_pos hbelow]
          rw [if_pos hle] at hfuel
          omega
        · rw [if_neg hle] at hfuel
          rw [if_neg (by omega)]
          omega
    · exact ⟨_, rfl⟩
    · exact ⟨_, rfl⟩

/-- What the search finds is the id of no process, and neither is an id from there up to
`pidchecked`. -/
theorem search_spec (hapart : ∀ p ∈ procs, p.Apart)
    (hrun : nextpid < pidchecked → ∀ p ∈ procs, ∀ id, p.Has id → id < nextpid ∨ pidchecked ≤ id)
    {found : ℕ × ℕ} (hfound : search procs fuel nextpid pidchecked = some found) :
    found.1 < found.2 ∧ ∀ p ∈ procs, ∀ id, p.Has id → id < found.1 ∨ found.2 ≤ id := by
  induction fuel generalizing nextpid pidchecked with
  | zero => exact absurd hfound.symm (Option.some_ne_none found)
  | succ fuel ih =>
    rw [search] at hfound
    split_ifs at hfound with hscan hretry
    · have hbounds := scan_bounds procs (wrapPid_lt nextpid)
      refine ih (fun hlt ↦ ?_) hfound
      have hback := (hbounds.2.2 hretry).2
      omega
    · cases hfound
      have hfree := scan_free hapart (wrapPid_lt nextpid) (Bool.eq_false_iff.mpr hretry)
      exact ⟨hfree.1, hfree.2.2⟩
    · cases hfound
      unfold wrapChecked wrapPid at hscan ⊢
      split_ifs at hscan ⊢ with hwrap
      · omega
      · exact ⟨Nat.lt_of_not_le hscan, hrun (Nat.lt_of_not_le hscan)⟩

/-! ## Runs -/

variable {A : Type} [DecidableEq A] {s t : System A} {maxproc : ℕ} {p1 p2 : A}

/-- No process has an id next to the one of its group. -/
def System.Apart (s : System A) : Prop := ∀ a ∈ s.members, (s.proc a).Apart

/-- Fewer ids are in use than there are from 100 up to `PID_MAX`. -/
def System.Roomy (s : System A) : Prop := s.ids.toFinset.card < pidMax - 100

/-- What is promised of a step: the search ends, and a child gets an id that no process has. -/
def Unique (maxproc : ℕ) (s : System A) (e : Event A) : Prop :=
  (s.exec maxproc e).1 ≠ .endless ∧ ∀ pid, (s.exec maxproc e).1 = .child pid → pid ∉ s.ids

/-- The condition on the steps: no process has neighbouring ids where the lists are searched, and a
call that finds its id in `nextpid` after the allocation has made the last search. -/
def Regular (s : System A) : Event A → Prop
  | .fork1 _ => s.Apart
  | .malloc p1 _ => ∀ w, s.waiting p1 = some w →
      (w.mypid = s.nextpid → w.stamp = s.searches) ∧ (w.mypid ≠ s.nextpid → s.Apart)
  | _ => True

omit [DecidableEq A] in
theorem System.mem_ids {id : ℕ} : id ∈ s.ids ↔ ∃ a ∈ s.members, (s.proc a).Has id := by
  unfold System.ids Proc.Has
  simp only [List.mem_flatMap, List.mem_cons, List.not_mem_nil, or_false]

omit [DecidableEq A] in
theorem System.Roomy.exists_free (hroomy : s.Roomy) :
    ∃ f, 100 ≤ f ∧ f < pidMax ∧ ∀ p ∈ s.members.map s.proc, ¬ p.Has f := by
  have hcard : s.ids.toFinset.card < (Finset.Ico 100 pidMax).card := by
    rw [Nat.card_Ico]
    exact hroomy
  obtain ⟨f, hf, hunused⟩ := Finset.exists_mem_notMem_of_card_lt_card hcard
  rw [Finset.mem_Ico] at hf
  refine ⟨f, hf.1, hf.2, fun p hp hhas ↦ hunused ?_⟩
  obtain ⟨a, ha, haddr⟩ := List.mem_map.mp hp
  rw [List.mem_toFinset, System.mem_ids]
  exact ⟨a, ha, by rw [haddr]; exact hhas⟩

/-- The ids behind `nextpid` and below `pidchecked` are free, and so is the one of the call that has
made the last search, while it waits. -/
structure System.Sound (s : System A) : Prop where
  run : ∀ id ∈ s.ids, id ≤ s.nextpid ∨ s.pidchecked ≤ id
  parent : ∀ p w, s.waiting p = some w → p ∈ s.allproc
  stamp_le : ∀ p w, s.waiting p = some w → w.stamp ≤ s.searches
  stamp_inj : ∀ p q w v, s.waiting p = some w → s.waiting q = some v → w.stamp = v.stamp → p = q
  latest : ∀ p w, s.waiting p = some w → w.stamp = s.searches →
    w.mypid = s.nextpid ∧ w.mypid ∉ s.ids

omit [DecidableEq A] in
/-- A step that brings no ids and no calls keeps this. -/
theorem System.Sound.mono (hsound : s.Sound) (hids : ∀ id ∈ t.ids, id ∈ s.ids)
    (hnextpid : t.nextpid = s.nextpid) (hchecked : t.pidchecked = s.pidchecked)
    (hsearches : t.searches = s.searches)
    (hwaiting : ∀ p w, t.waiting p = some w → s.waiting p = some w)
    (hparent : ∀ p w, t.waiting p = some w → p ∈ t.allproc) : t.Sound where
  run id hid := by
    rw [hnextpid, hchecked]
    exact hsound.run id (hids id hid)
  parent := hparent
  stamp_le p w hw := by
    rw [hsearches]
    exact hsound.stamp_le p w (hwaiting p w hw)
  stamp_inj p q w v hw hv :=
    hsound.stamp_inj p q w v (hwaiting p w hw) (hwaiting q v hv)
  latest p w hw hstamp := by
    rw [hsearches] at hstamp
    have hlatest := hsound.latest p w (hwaiting p w hw) hstamp
    rw [hnextpid]
    exact ⟨hlatest.1, fun hid ↦ hlatest.2 (hids _ hid)⟩

theorem waiting_of_update {waiting : A → Option Waiting} {p q : A} {w : Waiting}
    (hw : update waiting p none q = some w) : q ≠ p ∧ waiting q = some w := by
  by_cases hq : q = p
  · rw [hq, update_self] at hw
    exact absurd hw.symm (Option.some_ne_none w)
  · rw [update_of_ne hq] at hw
    exact ⟨hq, hw⟩

omit [DecidableEq A] in
/-- The search of a system with room for an id. -/
theorem System.Sound.search (hsound : s.Sound) (hapart : s.Apart) (hroomy : s.Roomy) :
    ∃ found, Fork.search (s.members.map s.proc) searchFuel (s.nextpid + 1) s.pidchecked =
        some found ∧ found.1 < found.2 ∧ ∀ id ∈ s.ids, id < found.1 ∨ found.2 ≤ id := by
  obtain ⟨f, hlow, hhigh, hfree⟩ := hroomy.exists_free
  have hfuel : turns f (s.nextpid + 1) < searchFuel := by
    have hmax : pidMax = 30000 := rfl
    unfold turns searchFuel
    split_ifs <;> omega
  obtain ⟨found, hfound⟩ := search_ends s.pidchecked hfree hlow hhigh hfuel
  have hspec := search_spec ?_ ?_ hfound
  · refine ⟨found, hfound, hspec.1, fun id hid ↦ ?_⟩
    obtain ⟨a, ha, hhas⟩ := System.mem_ids.mp hid
    exact hspec.2 _ (List.mem_map_of_mem ha) id hhas
  · intro p hp
    obtain ⟨a, ha, haddr⟩ := List.mem_map.mp hp
    rw [← haddr]
    exact hapart a ha
  · intro _ p hp id hid
    obtain ⟨a, ha, haddr⟩ := List.mem_map.mp hp
    have hrun := hsound.run id (System.mem_ids.mpr ⟨a, ha, by rw [haddr]; exact hid⟩)
    omega

/-- A call up to the allocation, also one that starts again. -/
theorem System.Sound.redo (hsound : s.Sound) (maxproc : ℕ) (hapart : s.Apart) (hroomy : s.Roomy)
    (hp1 : p1 ∈ s.allproc) :
    (s.redo maxproc p1).1 ≠ .endless ∧ (∀ pid, (s.redo maxproc p1).1 ≠ .child pid) ∧
      (s.redo maxproc p1).2.Sound := by
  unfold System.redo
  cases s.refusal maxproc p1 with
  | some why =>
    refine ⟨fun h ↦ (by cases h), fun pid h ↦ (by cases h), ?_⟩
    refine hsound.mono (fun id hid ↦ hid) rfl rfl rfl (fun p w hw ↦ (waiting_of_update hw).2)
      fun p w hw ↦ hsound.parent p w (waiting_of_update hw).2
  | none =>
    obtain ⟨found, hfound, hlt, hfree⟩ := hsound.search hapart hroomy
    dsimp only
    rw [hfound]
    refine ⟨fun h ↦ (by cases h), fun pid h ↦ (by cases h), ?_⟩
    have hold : ∀ {p w}, p ≠ p1 → update s.waiting p1 (some ⟨found.1, s.searches + 1⟩) p = some w →
        s.waiting p = some w := by
      intro p w hp hw
      rw [update_of_ne hp] at hw
      exact hw
    have hnew : ∀ {w}, update s.waiting p1 (some ⟨found.1, s.searches + 1⟩) p1 = some w →
        w = ⟨found.1, s.searches + 1⟩ := by
      intro w hw
      rw [update_self] at hw
      exact (Option.some.inj hw).symm
    constructor
    · intro id hid
      have hid' := hfree id hid
      dsimp only
      omega
    · intro p w hw
      by_cases hp : p = p1
      · rw [hp]
        exact hp1
      · exact hsound.parent p w (hold hp hw)
    · intro p w hw
      by_cases hp : p = p1
      · rw [hp] at hw
        rw [hnew hw]
      · exact Nat.le_succ_of_le (hsound.stamp_le p w (hold hp hw))
    · intro p q w v hw hv hstamp
      by_cases hp : p = p1
      · by_cases hq : q = p1
        · rw [hp, hq]
        · rw [hp] at hw
          rw [hnew hw] at hstamp
          have hle := hsound.stamp_le q v (hold hq hv)
          dsimp only at hstamp
          omega
      · by_cases hq : q = p1
        · rw [hq] at hv
          rw [hnew hv] at hstamp
          have hle := hsound.stamp_le p w (hold hp hw)
          dsimp only at hstamp
          omega
        · exact hsound.stamp_inj p q w v (hold hp hw) (hold hq hv) hstamp
    · intro p w hw hstamp
      by_cases hp : p = p1
      · rw [hp] at hw
        rw [hnew hw]
        refine ⟨rfl, fun hid ↦ ?_⟩
        have hid' := hfree found.1 hid
        omega
      · have hle := hsound.stamp_le p w (hold hp hw)
        dsimp only at hstamp
        omega

/-- The ids after a child is in the list: its own one is new. -/
theorem System.ids_insert (hp1 : p1 ∈ s.allproc) {mypid id : ℕ}
    (hid : id ∈ (s.insert p1 p2 mypid).ids) : id = mypid ∨ id ∈ s.ids := by
  obtain ⟨a, ha, hhas⟩ := System.mem_ids.mp hid
  have hmem : a = p2 ∨ a ∈ s.members := List.mem_cons.mp ha
  unfold System.insert at hhas
  dsimp only at hhas
  by_cases hnew : a = p2
  · rw [hnew, update_self] at hhas
    obtain hpid | hpgid := hhas
    · exact Or.inl hpid
    · exact Or.inr (System.mem_ids.mpr ⟨p1, List.mem_append_left _ hp1, Or.inr hpgid⟩)
  · rw [update_of_ne hnew] at hhas
    exact Or.inr (System.mem_ids.mpr ⟨a, hmem.resolve_left hnew, hhas⟩)

/-- A call that has made the last search brings its child into the list. -/
theorem System.Sound.insert (hsound : s.Sound) {w : Waiting} (p2 : A)
    (hw : s.waiting p1 = some w) (hlast : w.stamp = s.searches) :
    (s.insert p1 p2 w.mypid).Sound := by
  have hp1 := hsound.parent p1 w hw
  have hlatest := hsound.latest p1 w hw hlast
  constructor
  · intro id hid
    obtain hnew | hold := System.ids_insert hp1 hid
    · rw [hnew]
      exact Or.inl (Nat.le_of_eq hlatest.1)
    · exact hsound.run id hold
  · intro p v hv
    exact List.mem_cons_of_mem p2 (hsound.parent p v (waiting_of_update hv).2)
  · intro p v hv
    exact hsound.stamp_le p v (waiting_of_update hv).2
  · intro p q v v' hv hv'
    exact hsound.stamp_inj p q v v' (waiting_of_update hv).2 (waiting_of_update hv').2
  · intro p v hv hstamp
    have hother := waiting_of_update hv
    exact absurd (hsound.stamp_inj p p1 v w hother.2 hw (hstamp.trans hlast.symm)) hother.1

/-- What a step keeps. -/
theorem System.Sound.exec (hsound : s.Sound) (hroomy : s.Roomy) {e : Event A}
    (hregular : Regular s e) : Unique maxproc s e ∧ (s.exec maxproc e).2.Sound := by
  cases e with
  | fork1 p1 =>
    unfold Unique
    rw [System.exec]
    split_ifs with hcall
    · have hredo := hsound.redo maxproc hregular hroomy hcall.1
      exact ⟨⟨hredo.1, fun pid hpid ↦ absurd hpid (hredo.2.1 pid)⟩, hredo.2.2⟩
    · exact ⟨⟨fun h ↦ (by cases h), fun pid h ↦ (by cases h)⟩, hsound⟩
  | malloc p1 p2 =>
    unfold Unique
    rw [System.exec]
    cases hw : s.waiting p1 with
    | none => exact ⟨⟨fun h ↦ (by cases h), fun pid h ↦ (by cases h)⟩, hsound⟩
    | some w =>
      have hcond := hregular w hw
      dsimp only
      split_ifs with hp2
      · exact ⟨⟨fun h ↦ (by cases h), fun pid h ↦ (by cases h)⟩, hsound⟩
      · unfold System.malloc
        split_ifs with hmoved
        · have hredo := hsound.redo maxproc (hcond.2 hmoved) hroomy (hsound.parent p1 w hw)
          exact ⟨⟨hredo.1, fun pid hpid ↦ absurd hpid (hredo.2.1 pid)⟩, hredo.2.2⟩
        · have hlast := hcond.1 (not_not.mp hmoved)
          refine ⟨⟨fun h ↦ (by cases h), fun pid hpid ↦ ?_⟩, hsound.insert p2 hw hlast⟩
          cases hpid
          exact (hsound.latest p1 w hw hlast).2
  | exit p =>
    unfold Unique
    rw [System.exec]
    split_ifs with hexit
    · refine ⟨⟨fun h ↦ (by cases h), fun pid h ↦ (by cases h)⟩, hsound.mono ?_ rfl rfl rfl
        (fun q w hw ↦ hw) fun q w hw ↦ ?_⟩
      · intro id hid
        obtain ⟨a, ha, hhas⟩ := System.mem_ids.mp hid
        refine System.mem_ids.mpr ⟨a, ?_, hhas⟩
        unfold System.members at ha ⊢
        rw [List.mem_append, List.mem_cons] at ha
        rw [List.mem_append]
        obtain hall | hself | hzomb := ha
        · exact Or.inl (List.mem_of_mem_erase hall)
        · rw [hself]
          exact Or.inl hexit.1
        · exact Or.inr hzomb
      · have hne : q ≠ p := by
          intro hq
          rw [hq] at hw
          rw [hw] at hexit
          exact absurd hexit.2 Bool.false_ne_true
        exact (List.mem_erase_of_ne hne).mpr (hsound.parent q w hw)
    · exact ⟨⟨fun h ↦ (by cases h), fun pid h ↦ (by cases h)⟩, hsound⟩
  | wait4 p =>
    unfold Unique
    rw [System.exec]
    split_ifs with hwait
    · refine ⟨⟨fun h ↦ (by cases h), fun pid h ↦ (by cases h)⟩, hsound.mono ?_ rfl rfl rfl
        (fun q w hw ↦ hw) fun q w hw ↦ hsound.parent q w hw⟩
      intro id hid
      obtain ⟨a, ha, hhas⟩ := System.mem_ids.mp hid
      refine System.mem_ids.mpr ⟨a, ?_, hhas⟩
      unfold System.members at ha ⊢
      rw [List.mem_append] at ha ⊢
      exact ha.imp_right List.mem_of_mem_erase
    · exact ⟨⟨fun h ↦ (by cases h), fun pid h ↦ (by cases h)⟩, hsound⟩
  | enterpgrp p pgid =>
    unfold Unique
    rw [System.exec]
    split_ifs with henter
    · refine ⟨⟨fun h ↦ (by cases h), fun pid h ↦ (by cases h)⟩, hsound.mono ?_ rfl rfl rfl
        (fun q w hw ↦ hw) fun q w hw ↦ hsound.parent q w hw⟩
      intro id hid
      obtain ⟨a, ha, hhas⟩ := System.mem_ids.mp hid
      dsimp only at hhas
      by_cases hp : a = p
      · rw [hp, update_self] at hhas
        obtain hpid | hpgid := hhas
        · exact System.mem_ids.mpr ⟨p, List.mem_append_left _ henter.1, Or.inl hpid⟩
        · obtain hown | ⟨q, hq, hgroup⟩ := henter.2
          · exact System.mem_ids.mpr
              ⟨p, List.mem_append_left _ henter.1, Or.inl (hpgid.trans hown)⟩
          · exact System.mem_ids.mpr ⟨q, hq, Or.inr (hpgid.trans hgroup.symm)⟩
      · rw [update_of_ne hp] at hhas
        exact System.mem_ids.mpr ⟨a, ha, hhas⟩
    · exact ⟨⟨fun h ↦ (by cases h), fun pid h ↦ (by cases h)⟩, hsound⟩

/-- In a run that begins without a cached run of ids, each child gets an id that is the pid and the
process group of no process, if no process has a pid next to the id of its group where the lists are
searched and `nextpid` does not come round to an id that a call holds while it sleeps. -/
theorem pids_exact (maxproc : ℕ) (s : System A) (hchecked : s.pidchecked = 0)
    (hwaiting : ∀ p, s.waiting p = none) (es : List (Event A))
    (hsteps : Machine.Each (System.exec maxproc) (fun s e ↦ s.Roomy ∧ Regular s e) es s) :
    Machine.Each (System.exec maxproc) (Unique maxproc) es s := by
  apply Machine.each_of_invariant System.Sound
    (fun t e hsound hstep ↦ (hsound.exec hstep.1 hstep.2).1)
    (fun t e hsound hstep ↦ (hsound.exec hstep.1 hstep.2).2) es ?_ hsteps
  have hnone : ∀ {p w}, s.waiting p ≠ some w := fun {p w} hw ↦ by
    rw [hwaiting p] at hw
    cases hw
  exact ⟨fun id _ ↦ Or.inr (by omega), fun p w hw ↦ absurd hw hnone,
    fun p w hw ↦ absurd hw hnone, fun p q w v hw ↦ absurd hw hnone,
    fun p w hw ↦ absurd hw hnone⟩

instance (p : Proc) : Decidable p.Apart :=
  inferInstanceAs (Decidable (_ ∧ _))

/-- The first process alone. -/
def alone : System ℕ :=
  ⟨fun _ ↦ ⟨1, 1, 0, 0, 40⟩, [0], [], 1, 1, 0, fun _ ↦ none, 0⟩

/-- A process group 101 with the processes 101 and 102, behind the first process. -/
def neighbours : System ℕ :=
  ⟨fun a ↦ if a = 0 then ⟨1, 1, 0, 0, 40⟩ else ⟨100 + a, 101, 0, 0, 40⟩, [2, 1, 0], [], 3, 100, 0,
    fun _ ↦ none, 0⟩

theorem pids_exact_alone :
    Machine.Each (System.exec 50) (Unique 50) [.fork1 0, .malloc 0 1] alone := by
  refine pids_exact 50 alone rfl (fun _ ↦ rfl) [.fork1 0, .malloc 0 1]
    ⟨⟨(by decide : alone.ids.toFinset.card < 29900), ?_⟩,
      ⟨?_, fun w hw ↦ ?_⟩, trivial⟩
  · exact (by decide : ∀ a ∈ alone.members, (alone.proc a).Apart)
  · exact (by decide :
      ((alone.exec 50 (.fork1 0)).2.ids.toFinset.card < 29900))
  · have hwaiting : (alone.exec 50 (.fork1 0)).2.waiting 0 = some ⟨2, 1⟩ := by decide
    rw [hwaiting] at hw
    cases hw
    exact ⟨fun _ ↦ (by decide : 1 = (alone.exec 50 (.fork1 0)).2.searches),
      fun hmoved ↦ absurd (by decide : 2 = (alone.exec 50 (.fork1 0)).2.nextpid) hmoved⟩

/-- The child gets the id 102, which a process of the group 101 has. -/
theorem pids_twice :
    ¬ ∀ (maxproc : ℕ) (s : System ℕ) (es : List (Event ℕ)), s.pidchecked = 0 →
      (∀ p, s.waiting p = none) →
        Machine.Each (System.exec maxproc) (fun s _ ↦ s.Roomy) es s →
          Machine.Each (System.exec maxproc) (Unique maxproc) es s := by
  intro hall
  have heach := hall 50 neighbours [.fork1 0, .malloc 0 3] rfl (fun _ ↦ rfl)
    ⟨(by decide : neighbours.ids.toFinset.card < 29900),
      (by decide : (neighbours.exec 50 (.fork1 0)).2.ids.toFinset.card < 29900), trivial⟩
  have hunused := heach.2.1.2 102 (by decide)
  exact hunused (by decide)

end Bsd386.Kern.Fork
