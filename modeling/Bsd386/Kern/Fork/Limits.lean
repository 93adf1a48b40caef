import Bsd386.Kern.Fork.Basic

/-!
# Process limits

What `fork1` checks before it looks for a process id. `use_priv` returns 0 for a privileged process,
so that `haspriv` is 0 where the process has the privilege.
-/

namespace Bsd386.Kern.Fork

open Function

variable {A : Type} [DecidableEq A] {s : System A} {maxproc : ℕ} {p1 p2 : A}

/-- A process without the privilege `PRV_NO_UPROCLIMIT`. -/
def System.Denied (s : System A) (p : A) : Prop := (s.proc p).usePriv ≠ 0

/-- The process whose call of `fork1` goes on. -/
def Event.caller : Event A → Option A
  | .fork1 p1 => some p1
  | .malloc p1 _ => some p1
  | _ => none

/-- What is promised of a step: a child of a process without the privilege leaves its user within
the limit and is not in the last slot, no other step gives a user more processes, and a process with
the privilege is not refused because of the limit. -/
structure Limited (maxproc : ℕ) (s : System A) (e : Event A) : Prop where
  child : ∀ p1 p2 pid, e = .malloc p1 p2 → (s.exec maxproc e).1 = .child pid → s.Denied p1 →
    ((s.exec maxproc e).2.count (s.proc p1).crUid : ℤ) ≤ (s.proc p1).rlimCur ∧
      (s.exec maxproc e).2.nprocs < maxproc
  other : (∀ pid, (s.exec maxproc e).1 ≠ .child pid) →
    ∀ uid, (s.exec maxproc e).2.count uid ≤ s.count uid
  refused : ∀ p1, e.caller = some p1 → ¬ s.Denied p1 →
    (s.exec maxproc e).1 ≠ .eagain .limit

/-- The user of a process is within its limit, where the table is not full. -/
def System.Within (s : System A) (maxproc : ℕ) (p : A) : Prop :=
  s.nprocs < maxproc → (s.count (s.proc p).crUid : ℤ) ≤ (s.proc p).rlimCur

/-- The condition on the steps: a process without the privilege that is about to get its child is
below the limit of its user and finds two free slots, and a process with the privilege that makes
the checks is not above the limit. -/
def Admitted (maxproc : ℕ) (s : System A) : Event A → Prop
  | .fork1 p1 =>
    p1 ∈ s.allproc → s.waiting p1 = none → ¬ s.Denied p1 → s.Within maxproc p1
  | .malloc p1 p2 => ∀ w, s.waiting p1 = some w → p2 ∉ s.members →
      (w.mypid ≠ s.nextpid → ¬ s.Denied p1 → s.Within maxproc p1) ∧
        (w.mypid = s.nextpid → s.Denied p1 →
          (s.count (s.proc p1).crUid : ℤ) < (s.proc p1).rlimCur ∧ s.nprocs + 1 < maxproc)
  | _ => True

omit [DecidableEq A] in
theorem count_congr {t : System A} (hmembers : t.members = s.members)
    (huid : ∀ a ∈ s.members, (t.proc a).crUid = (s.proc a).crUid) (uid : ℕ) :
    t.count uid = s.count uid := by
  unfold System.count
  rw [hmembers]
  apply List.countP_congr
  intro a ha
  rw [huid a ha]

theorem count_insert (hp2 : p2 ∉ s.members) (mypid : ℕ) :
    (s.insert p1 p2 mypid).count (s.proc p1).crUid = s.count (s.proc p1).crUid + 1 := by
  have hold : s.members.countP
      (fun a ↦ decide ((update s.proc p2 { s.proc p1 with pPid := mypid } a).crUid =
        (s.proc p1).crUid)) = s.count (s.proc p1).crUid := by
    apply List.countP_congr
    intro a ha
    rw [update_of_ne (fun heq ↦ hp2 (by rw [← heq]; exact ha))]
  have hhead : decide ((update s.proc p2 { s.proc p1 with pPid := mypid } p2).crUid =
      (s.proc p1).crUid) = true := decide_eq_true (by rw [update_self])
  calc (s.insert p1 p2 mypid).count (s.proc p1).crUid
      = s.members.countP (fun a ↦ decide
          ((update s.proc p2 { s.proc p1 with pPid := mypid } a).crUid = (s.proc p1).crUid)) + 1 :=
        List.countP_cons_of_pos hhead
    _ = s.count (s.proc p1).crUid + 1 := by rw [hold]

omit [DecidableEq A] in
/-- When a call is refused because of the limit. -/
theorem refusal_limit_iff (s : System A) (maxproc : ℕ) (p1 : A) :
    s.refusal maxproc p1 = some .limit ↔ ¬ s.Denied p1 ∧ ¬ s.Within maxproc p1 := by
  unfold System.refusal System.Within System.Denied
  split_ifs with htable hlimit
  · refine iff_of_false (fun h ↦ (by cases h)) fun h ↦ ?_
    have hroom : ¬ s.nprocs < maxproc := by
      have hprivileged := not_not.mp h.1
      omega
    exact h.2 fun hlt ↦ absurd hlt hroom
  · refine iff_of_true rfl ⟨not_not.mpr hlimit.1, fun hwithin ↦ ?_⟩
    have hle := hwithin (by omega)
    omega
  · refine iff_of_false (fun h ↦ (by cases h)) fun h ↦ h.2 fun _ ↦ ?_
    have hprivileged := not_not.mp h.1
    omega

/-- A call up to the allocation brings no process, and it is refused because of the limit exactly
when a process with the privilege is above it. -/
theorem redo_spec (s : System A) (maxproc : ℕ) (p1 : A) :
    (∀ pid, (s.redo maxproc p1).1 ≠ .child pid) ∧
      (∀ uid, (s.redo maxproc p1).2.count uid = s.count uid) ∧
      ((s.redo maxproc p1).1 = .eagain .limit ↔ ¬ s.Denied p1 ∧ ¬ s.Within maxproc p1) := by
  rw [← refusal_limit_iff]
  unfold System.redo
  cases hrefusal : s.refusal maxproc p1 with
  | some why =>
    refine ⟨fun pid h ↦ (by cases h), fun uid ↦ rfl, ?_⟩
    dsimp only
    rw [Outcome.eagain.injEq, Option.some.injEq]
  | none =>
    dsimp only
    cases search (s.members.map s.proc) searchFuel (s.nextpid + 1) s.pidchecked with
    | some found =>
      exact ⟨fun pid h ↦ (by cases h), fun uid ↦ rfl,
        iff_of_false (fun h ↦ (by cases h)) fun h ↦ (by cases h)⟩
    | none =>
      exact ⟨fun pid h ↦ (by cases h), fun uid ↦ rfl,
        iff_of_false (fun h ↦ (by cases h)) fun h ↦ (by cases h)⟩

/-- A step whose outcome is no child and no refusal, which brings no user more processes. -/
theorem Limited.of_other {e : Event A} (hchild : ∀ pid, (s.exec maxproc e).1 ≠ .child pid)
    (hrefused : (s.exec maxproc e).1 ≠ .eagain .limit)
    (hcount : ∀ uid, (s.exec maxproc e).2.count uid ≤ s.count uid) : Limited maxproc s e :=
  ⟨fun _ _ pid _ h ↦ absurd h (hchild pid), fun _ ↦ hcount, fun _ _ _ ↦ hrefused⟩

theorem limited_ignored {e : Event A} (hexec : s.exec maxproc e = (.ignored, s)) :
    Limited maxproc s e := by
  apply Limited.of_other
  · intro pid h
    rw [hexec] at h
    cases h
  · intro h
    rw [hexec] at h
    cases h
  · intro uid
    rw [hexec]

/-- A step that makes the checks for the process `p1` keeps the promise exactly when `p1` is not
above the limit with the privilege. -/
theorem limited_redo {e : Event A} (hexec : s.exec maxproc e = s.redo maxproc p1)
    (hcaller : e.caller = some p1) :
    Limited maxproc s e ↔ (¬ s.Denied p1 → s.Within maxproc p1) := by
  have hspec := redo_spec s maxproc p1
  rw [← hexec] at hspec
  constructor
  · intro hlimited hpriv
    by_contra hwithin
    exact hlimited.refused p1 hcaller hpriv (hspec.2.2.mpr ⟨hpriv, hwithin⟩)
  · intro hwithin
    refine ⟨fun _ _ pid _ h ↦ absurd h (hspec.1 pid),
      fun _ uid ↦ Nat.le_of_eq (hspec.2.1 uid), fun p hp hpriv hlimit ↦ ?_⟩
    rw [← Option.some.inj (hcaller.symm.trans hp)] at hpriv
    exact (hspec.2.2.mp hlimit).2 (hwithin hpriv)

/-- A step that brings a child keeps the promise exactly when a process without the privilege was
below the limit and not at the last slot. -/
theorem limited_insert {mypid : ℕ} (hp2 : p2 ∉ s.members)
    (hexec : s.exec maxproc (.malloc p1 p2) = (.child mypid, s.insert p1 p2 mypid)) :
    Limited maxproc s (.malloc p1 p2) ↔ (s.Denied p1 →
      (s.count (s.proc p1).crUid : ℤ) < (s.proc p1).rlimCur ∧ s.nprocs + 1 < maxproc) := by
  have hcount : (s.insert p1 p2 mypid).count (s.proc p1).crUid = _ := count_insert hp2 mypid
  have hnprocs : (s.insert p1 p2 mypid).nprocs = s.nprocs + 1 := rfl
  constructor
  · intro hlimited hdenied
    have hchild := hlimited.child p1 p2 mypid rfl (by rw [hexec]) hdenied
    rw [hexec] at hchild
    dsimp only at hchild
    rw [hcount, hnprocs] at hchild
    omega
  · intro hbelow
    refine ⟨fun q q2 pid he _ hdenied ↦ ?_, fun hnone ↦ ?_, fun p hp hpriv hlimit ↦ ?_⟩
    · cases he
      have hbelow' := hbelow hdenied
      rw [hexec]
      dsimp only
      rw [hcount, hnprocs]
      omega
    · rw [hexec] at hnone
      exact absurd rfl (hnone mypid)
    · rw [hexec] at hlimit
      cases hlimit

/-- A step keeps the promise exactly when it meets the condition. -/
theorem limited_iff (maxproc : ℕ) (s : System A) (e : Event A) :
    Limited maxproc s e ↔ Admitted maxproc s e := by
  cases e with
  | fork1 p1 =>
    unfold Admitted
    by_cases hcall : p1 ∈ s.allproc ∧ (s.waiting p1).isNone
    · have hexec : s.exec maxproc (.fork1 p1) = s.redo maxproc p1 := if_pos hcall
      rw [limited_redo hexec rfl]
      have hnone := Option.isNone_iff_eq_none.mp hcall.2
      exact ⟨fun h _ _ ↦ h, fun h ↦ h hcall.1 hnone⟩
    · refine iff_of_true (limited_ignored (if_neg hcall)) fun hmem hnone ↦ ?_
      exact absurd ⟨hmem, Option.isNone_iff_eq_none.mpr hnone⟩ hcall
  | malloc p1 p2 =>
    unfold Admitted
    cases hw : s.waiting p1 with
    | none =>
      refine iff_of_true (limited_ignored ?_) fun w h ↦ (by rw [hw] at h; cases h)
      rw [System.exec, hw]
    | some w =>
      by_cases hp2 : p2 ∈ s.members
      · refine iff_of_true (limited_ignored ?_) fun _ _ hnew ↦ absurd hp2 hnew
        rw [System.exec, hw]
        exact if_pos hp2
      · have hmalloc : s.exec maxproc (.malloc p1 p2) = s.malloc maxproc p1 p2 w := by
          rw [System.exec, hw]
          exact if_neg hp2
        by_cases hmoved : w.mypid ≠ s.nextpid
        · have hexec : s.exec maxproc (.malloc p1 p2) = s.redo maxproc p1 :=
            hmalloc.trans (if_pos hmoved)
          rw [limited_redo hexec rfl]
          refine ⟨fun h v hv _ ↦ ?_, fun h ↦ (h w hw hp2).1 hmoved⟩
          rw [hw] at hv
          cases hv
          exact ⟨fun _ ↦ h, fun hsame ↦ absurd hsame hmoved⟩
        · have hexec : s.exec maxproc (.malloc p1 p2) =
              (.child w.mypid, s.insert p1 p2 w.mypid) := hmalloc.trans (if_neg hmoved)
          rw [limited_insert hp2 hexec]
          refine ⟨fun h v hv _ ↦ ?_, fun h ↦ (h w hw hp2).2 (not_not.mp hmoved)⟩
          rw [hw] at hv
          cases hv
          exact ⟨fun hother ↦ absurd hother hmoved, fun _ ↦ h⟩
  | exit p =>
    refine iff_of_true ?_ trivial
    by_cases hexit : p ∈ s.allproc ∧ (s.waiting p).isNone
    · have hexec : s.exec maxproc (.exit p) =
          (.done, { s with allproc := s.allproc.erase p, zombproc := p :: s.zombproc }) :=
        if_pos hexit
      refine .of_other (fun pid h ↦ ?_) (fun h ↦ ?_) fun uid ↦ ?_
      · rw [hexec] at h
        cases h
      · rw [hexec] at h
        cases h
      · rw [hexec]
        have hperm : (s.allproc.erase p ++ p :: s.zombproc).Perm s.members :=
          List.perm_middle.trans ((List.perm_cons_erase hexit.1).symm.append_right s.zombproc)
        exact Nat.le_of_eq (hperm.countP_eq _)
    · exact limited_ignored (if_neg hexit)
  | wait4 p =>
    refine iff_of_true ?_ trivial
    by_cases hwait : p ∈ s.zombproc
    · have hexec : s.exec maxproc (.wait4 p) =
          (.done, { s with zombproc := s.zombproc.erase p, nprocs := s.nprocs - 1 }) :=
        if_pos hwait
      refine .of_other (fun pid h ↦ ?_) (fun h ↦ ?_) fun uid ↦ ?_
      · rw [hexec] at h
        cases h
      · rw [hexec] at h
        cases h
      · rw [hexec]
        have hsub : (s.allproc ++ s.zombproc.erase p).Sublist s.members :=
          (List.erase_sublist).append_left s.allproc
        exact hsub.countP_le
    · exact limited_ignored (if_neg hwait)
  | enterpgrp p pgid =>
    refine iff_of_true ?_ trivial
    by_cases henter : p ∈ s.allproc ∧
        (pgid = (s.proc p).pPid ∨ ∃ q ∈ s.members, (s.proc q).pgId = pgid)
    · have hexec : s.exec maxproc (.enterpgrp p pgid) =
          (.done, { s with proc := update s.proc p { s.proc p with pgId := pgid } }) :=
        if_pos henter
      refine .of_other (fun pid h ↦ ?_) (fun h ↦ ?_) fun uid ↦ ?_
      · rw [hexec] at h
        cases h
      · rw [hexec] at h
        cases h
      · rw [hexec]
        apply Nat.le_of_eq
        apply count_congr
        · rfl
        · intro a _
          dsimp only
          by_cases ha : a = p
          · rw [ha, update_self]
          · rw [update_of_ne ha]
    · exact limited_ignored (if_neg henter)

/-- The limits are kept in a run exactly when no process without the privilege gets a child at the
limit of its user or in the last slot, and no process with the privilege makes the checks above the
limit. -/
theorem limits_exact (maxproc : ℕ) (s : System A) (es : List (Event A)) :
    Machine.Each (System.exec maxproc) (Limited maxproc) es s ↔
      Machine.Each (System.exec maxproc) (Admitted maxproc) es s :=
  Machine.each_iff (fun _ ↦ True) (fun s e _ _ ↦ limited_iff maxproc s e) (fun _ _ _ _ _ ↦ trivial)
    es trivial (Machine.each_of_forall (fun _ _ ↦ trivial) es s)

/-- A user with two processes, which is its limit. -/
def atLimit : System ℕ :=
  ⟨fun a ↦ ⟨a + 1, a + 1, 5, 0, 2⟩, [1, 0], [], 2, 2, 0, fun _ ↦ none, 0⟩

/-- The user gets a third process, which takes the last of three slots. -/
theorem limit_exceeded :
    ¬ ∀ (maxproc : ℕ) (s : System ℕ) (es : List (Event ℕ)),
      Machine.Each (System.exec maxproc) (Limited maxproc) es s := by
  intro hall
  have heach := hall 3 atLimit [.fork1 0, .malloc 0 2]
  have hchild := heach.2.1.child 0 2 3 rfl (by decide)
    (by unfold System.Denied; decide)
  exact absurd hchild.1 (by decide)

end Bsd386.Kern.Fork
