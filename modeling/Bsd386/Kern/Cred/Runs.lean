import Mathlib.Data.Fintype.Option
import Bsd386.Kern.Cred.Isolation

/-!
# Runs of processes with credentials
-/

namespace Bsd386.Kern.Cred

open Function

set_option linter.unusedSectionVars false

variable {P F A C : Type} [Fintype P] [Fintype F] [Fintype A] [DecidableEq P] [DecidableEq F]
  [DecidableEq A]
  [DecidableEq C] {s s' t : System P F A C} {p q : P} {a : A} {e : Event P F A C}

/-- The process whose credentials an event is about. -/
def Event.By : Event P F A C → P → Prop
  | .fork _ q, r => r = q
  | .falloc _ _, _ | .ffree _, _ => False
  | .call p _, r | .subproc p _, r | .crget p _, r | .exit p, r | .reclaimproc p, r => r = p

/-- `modpcred` finds its process credentials still shared when it has got memory for a copy, and
`cr_ref` can count one reference more. -/
def Event.Safe (s : System P F A C) : Event P F A C → Prop
  | .falloc p _ => ∀ a pc u, s.cred p = some a → s.pcreds a = some pc → s.ucreds pc.ucred = some u →
    u.ref < ushrtMax
  | .subproc p _ =>
      ∀ a pc u, s.cred p = some a → s.pcreds a = some pc → s.ucreds pc.ucred = some u →
    pc.refcnt ≠ 1 ∧ u.ref < ushrtMax
  | _ => True

/-- The credentials of the first process, as `main` begins with them. -/
def boot (p : P) (a : A) (c : C) : System P F A C where
  cred := update (fun _ ↦ none) p (some a)
  place _ := .user
  pcreds := update (fun _ ↦ none) a (some ⟨c, 0, 0, 0, 0, 1⟩)
  ucreds := update (fun _ ↦ none) c (some ⟨2, 0, 0, 1, fun _ ↦ 0⟩)
  fcred _ := none
  other := update (fun _ ↦ 0) c 1

/-- The states that are reached when each event meets a condition. -/
inductive Reach (allowed : System P F A C → Event P F A C → Prop) : System P F A C → Prop
  | start (p : P) (a : A) (c : C) : Reach allowed (boot p a c)
  | step {s s' : System P F A C} {e : Event P F A C} (hreach : Reach allowed s)
      (hallowed : allowed s e)
    (hexec : s.exec e = .ok s') : Reach allowed s'

/-- Runs of safe events through which a process lives. -/
inductive Lives (p : P) (s : System P F A C) : System P F A C → Prop
  | refl : Lives p s s
  | step {t s' : System P F A C} {e : Event P F A C} (hlives : Lives p s t) (hsafe : e.Safe t)
    (hexec : t.exec e = .ok s') (hcred : s'.cred p ≠ none) : Lives p s s'

/-- The counts are right, and a call that is not finished is permitted and has its own process
credentials where it makes a copy of the user credentials. -/
structure Holds (s : System P F A C) : Prop where
  counts : Counts s
  calls : ∀ p call, s.place p = .subproc call ∨ s.place p = .crget call →
    ∃ v, s.seen p = some v ∧ call.permitted v.1 v.2 = true
  own : ∀ p call a, s.place p = .crget call → s.cred p = some a → s.sharers a = 1
  zombie : ∀ p, s.place p = .zombie → ∃ a, s.cred p = some a

/-- Nothing is referred to where there is nothing. -/
theorem occurrences_none {X B : Type} [Fintype X] [DecidableEq B] {g : X → Option B}
    (hg : ∀ x, g x = none)
    (b : B) : occurrences g (some b) = 0 := by
  refine Nat.eq_zero_of_not_pos fun h ↦ ?_
  obtain ⟨x, hx⟩ := exists_of_occurrences_pos h
  rw [hg x] at hx
  cases hx

/-- What is in one place alone is referred to once. -/
theorem occurrences_single {X B : Type} [Fintype X] [DecidableEq X] [DecidableEq B] (x : X)
    (b d : B) :
    occurrences (update (fun _ ↦ none) x (some b)) (some d) = if b = d then 1 else 0 := by
  have hthis := occurrences_update (fun _ : X ↦ (none : Option B)) x (some b) (some d)
  rw [occurrences_none (fun _ ↦ rfl), if_neg (show ¬(none : Option B) = some d from
    fun h ↦ by cases h),
    Nat.zero_add] at hthis
  simp only [Option.some.injEq] at hthis
  exact hthis

theorem boot_counts (p : P) (a : A) (c : C) : Counts (boot p a c : System P F A C) := by
  obtain ⟨s, hs⟩ : ∃ s, (boot p a c : System P F A C) = s := ⟨_, rfl⟩
  have hcred : s.cred = update (fun _ ↦ none) p (some a) := by rw [← hs]; rfl
  have hpcreds : s.pcreds = update (fun _ ↦ none) a (some ⟨c, 0, 0, 0, 0, 1⟩) := by rw [← hs]; rfl
  have hucreds :
    s.ucreds = update (fun _ ↦ none) c (some ⟨2, 0, 0, 1, fun _ ↦ 0⟩) := by rw [← hs]; rfl
  have hfcred : ∀ f, s.fcred f = none := fun f ↦ by rw [← hs]; rfl
  have hother : s.other = update (fun _ ↦ 0) c 1 := by rw [← hs]; rfl
  have hshare : ∀ b, s.sharers b = if a = b then 1 else 0 := fun b ↦ by
    rw [System.sharers, hcred, occurrences_single]
  have hhold : ∀ d, s.holders d = if c = d then 2 else 0 := by
    intro d
    have hpoints : s.points = update (fun _ ↦ none) a (some c) := by
      rw [System.points, hpcreds, comp_update]
      rfl
    rw [System.holders, hpoints, occurrences_single, occurrences_none hfcred, hother]
    by_cases hcd : c = d
    · rw [← hcd, update_self, if_pos rfl, if_pos rfl]
    · rw [update_of_ne (Ne.symm hcd), if_neg hcd, if_neg hcd]
  rw [hs]
  refine ⟨fun b ↦ ?_, fun d ↦ ?_, fun d ↦ ?_⟩
  · rw [hshare, hpcreds]
    by_cases hab : a = b
    · rw [if_pos hab, ← hab, update_self]
      exact .inr ⟨_, rfl, rfl, one_ne_zero⟩
    · rw [if_neg hab, update_of_ne (Ne.symm hab)]
      exact .inl ⟨rfl, rfl⟩
  · rw [hhold, hucreds]
    by_cases hcd : c = d
    · rw [if_pos hcd, ← hcd, update_self]
      exact .inr ⟨_, rfl, rfl, two_ne_zero⟩
    · rw [if_neg hcd, update_of_ne (Ne.symm hcd)]
      exact .inl ⟨rfl, rfl⟩
  · rw [hhold, ushrtMax]
    split_ifs <;> omega

theorem boot_holds (p : P) (a : A) (c : C) : Holds (boot p a c : System P F A C) := by
  refine ⟨boot_counts p a c, fun q call h ↦ ?_, fun q call b h ↦ ?_, fun q h ↦ ?_⟩
  · rcases h with h | h <;> cases h
  · cases h
  · cases h

/-- The other processes go on as before. -/
theorem Holds.apart {x : P → Prop} (h : Holds s) (hcounts : Counts s') (hapart : Apart x s s')
    (hcalls : ∀ p call, x p → (s'.place p = .subproc call ∨ s'.place p = .crget call) →
      ∃ v, s'.seen p = some v ∧ call.permitted v.1 v.2 = true)
    (hown : ∀ p call a, x p → s'.place p = .crget call → s'.cred p = some a → s'.sharers a = 1)
    (hzombie : ∀ p, x p → s'.place p = .zombie → ∃ a, s'.cred p = some a) : Holds s' := by
  refine ⟨hcounts, fun p call hplace ↦ ?_, fun p call a hplace ha ↦ ?_, fun p hplace ↦ ?_⟩
  · by_cases hp : x p
    · exact hcalls p call hp hplace
    · rw [hapart.place p hp] at hplace
      rw [hapart.seen p hp]
      exact h.calls p call hplace
  · by_cases hp : x p
    · exact hown p call a hp hplace ha
    · rw [hapart.place p hp] at hplace
      rw [hapart.cred p hp] at ha
      exact hapart.own p a hp (by rw [hplace]; exact fun h ↦ by cases h) ha
        (h.own p call a hplace ha)
  · by_cases hp : x p
    · exact hzombie p hp hplace
    · rw [hapart.place p hp] at hplace
      rw [hapart.cred p hp]
      exact h.zombie p hplace

theorem running_iff : s.running p = true ↔ (∃ a, s.cred p = some a) ∧ s.place p = .user := by
  rw [System.running]
  cases s.cred p with
  | none => simp
  | some a => cases s.place p <;> simp

/-- No user id comes from nowhere. -/
def Kept (s s' : System P F A C) : Prop := ∀ p v, s.seen p = some v → 0 ∉ uids v →
  s'.cred p = none ∨ ∃ v', s'.seen p = some v' ∧ uids v' ⊆ uids v

theorem Kept.refl (s : System P F A C) : Kept s s := fun _ v hv _ ↦ .inr ⟨v, hv, List.Subset.refl _⟩

/-- Where one process does what it may. -/
theorem Kept.apart (hapart : Apart (· = p) s s')
    (hp : ∀ v, s.seen p = some v → 0 ∉ uids v → s'.cred p = none ∨ ∃ v',
    s'.seen p = some v' ∧ uids v' ⊆ uids v) :
    Kept s s' := fun q v hv hzero ↦ by
  by_cases hq : q = p
  · rw [hq] at hv ⊢
    exact hp v hv hzero
  · exact .inr ⟨v, (hapart.seen q hq).trans hv, List.Subset.refl _⟩

/-- A call goes on, or ends. -/
theorem Holds.moved {call : Syscall} {pc : Pcred C} {u : Ucred} (h : Holds s) (hcounts : Counts s')
    (hapart : Apart (· = p) s s') (hseen : s.seen p = some (pc.fields, u.fields))
    (hpermitted : call.permitted pc u = true) (ha : s'.cred p = some a)
    (hcases : s'.place p = .crget call ∧ s'.sharers a = 1 ∧ s'.seen p = s.seen p ∨
      s'.place p = .user ∧ (s'.seen p).map uids = some (uids (call.pcred pc, call.ucred u))) :
    Holds s' ∧ Kept s s' := by
  refine ⟨h.apart hcounts hapart (fun q call' hq hplace ↦ ?_) (fun q call' b hq hplace hb ↦ ?_)
    fun q hq hplace ↦ ?_, Kept.apart hapart fun v hv hzero ↦ .inr ?_⟩
  · rw [hq] at hplace ⊢
    rcases hcases with ⟨hthere, -, hsame⟩ | ⟨huser, -⟩
    · rw [hthere] at hplace
      rcases hplace with heq | heq
      · cases heq
      · cases heq
        exact ⟨_, hsame.trans hseen, (call.permitted_fields pc u).trans hpermitted⟩
    · rw [huser] at hplace
      rcases hplace with heq | heq <;> cases heq
  · rw [hq] at hplace hb
    rcases hcases with ⟨-, hone, -⟩ | ⟨huser, -⟩
    · cases ha.symm.trans hb
      exact hone
    · rw [huser] at hplace
      cases hplace
  · exact ⟨a, by rw [hq, ha]⟩
  · rcases hcases with ⟨-, -, hsame⟩ | ⟨-, hmap⟩
    · exact ⟨v, hsame.trans hv, List.Subset.refl _⟩
    · obtain ⟨v', hv', huids⟩ := Option.map_eq_some_iff.mp hmap
      cases hseen.symm.trans hv
      refine ⟨v', hv', ?_⟩
      rw [huids]
      exact Syscall.uids_subset hpermitted hzero

/-- What an event does. -/
theorem Holds.exec (h : Holds s) (hsafe : e.Safe s) :
    ∃ s', s.exec e = .ok s' ∧ Holds s' ∧ Apart e.By s s' ∧ Kept s s' := by
  have hnothing : ∀ {r : Except Fault (System P F A C)}, r = .ok s → ∃ s',
    r = .ok s' ∧ Holds s' ∧ Apart e.By s s' ∧ Kept s s' :=
    fun hr ↦ ⟨s, hr, h, Apart.refl _ s, Kept.refl s⟩
  cases e with
  | fork p q =>
    rw [System.exec]
    by_cases hcan : s.running p = true ∧ s.cred q = none
    · rw [if_pos hcan]
      obtain ⟨⟨a, ha⟩, huser⟩ := running_iff.mp hcan.1
      obtain ⟨s', hrun, hcounts, hapart, hplace, -, hseen⟩ := h.counts.fork1 ha hcan.2 huser
      refine ⟨s', hrun, h.apart hcounts hapart (fun r call hr hcall ↦ ?_)
        (fun r call b hr hcall ↦ ?_)
        fun r hr hcall ↦ ?_, hapart, Kept.apart hapart fun v hv ↦ ?_⟩
      · rw [hr, hplace] at hcall
        rcases hcall with heq | heq <;> cases heq
      · rw [hr, hplace] at hcall
        cases hcall
      · rw [hr, hplace] at hcall
        cases hcall
      · rw [System.seen, hcan.2] at hv
        cases hv
    · rw [if_neg hcan]
      exact hnothing rfl
  | falloc p f =>
    rw [System.exec]
    by_cases hcan : s.running p = true ∧ s.fcred f = none
    · rw [if_pos hcan]
      obtain ⟨⟨a, ha⟩, -⟩ := running_iff.mp hcan.1
      obtain ⟨pc, u, hpc, hu, -, -⟩ := h.counts.get ha
      obtain ⟨s', hrun, hcounts, hapart⟩ :=
        h.counts.falloc ha hpc hu (hsafe a pc u ha hpc hu) hcan.2
      exact ⟨s', hrun, h.apart hcounts hapart (fun _ _ hx ↦ hx.elim) (fun _ _ _ hx ↦ hx.elim)
        fun _ hx ↦ hx.elim, hapart, fun q v hv _ ↦ .inr ⟨v, (hapart.seen q id).trans hv,
          List.Subset.refl _⟩⟩
    · rw [if_neg hcan]
      exact hnothing rfl
  | ffree f =>
    rw [System.exec]
    cases hf : s.fcred f with
    | none => exact hnothing rfl
    | some c =>
      obtain ⟨s', hrun, hcounts, hapart⟩ := h.counts.ffree hf
      exact ⟨s', hrun, h.apart hcounts hapart (fun _ _ hx ↦ hx.elim) (fun _ _ _ hx ↦ hx.elim)
        fun _ hx ↦ hx.elim, hapart, fun q v hv _ ↦ .inr ⟨v, (hapart.seen q id).trans hv,
          List.Subset.refl _⟩⟩
  | call p call =>
    rw [System.exec]
    by_cases hcan : s.running p = true
    · rw [if_pos hcan]
      obtain ⟨⟨a, ha⟩, huser⟩ := running_iff.mp hcan
      obtain ⟨pc, u, hpc, hu, hrefcnt, -⟩ := h.counts.get ha
      rw [System.enter, ha, deref_some, hpc, deref_some, hu, deref_some]
      by_cases hpermitted : call.permitted pc u = true
      · rw [if_pos hpermitted]
        by_cases hshared : pc.refcnt = 1
        · rw [if_neg (not_not_intro hshared)]
          obtain ⟨s', hrun, hcounts, hapart, -, hcred, hcases⟩ :=
            h.counts.unshared ha hpc hu (hrefcnt ▸ hshared) call
          have hcred' : s'.cred p = some a := by rw [hcred, ha]
          obtain ⟨hholds, hkept⟩ :=
            h.moved hcounts hapart (seen_eq ha hpc hu) hpermitted hcred' hcases
          exact ⟨s', hrun, hholds, hapart, hkept⟩
        · rw [if_pos hshared]
          have hapart := apart_goto s p (.subproc call)
          have hplace : (s.goto p (.subproc call)).place p = .subproc call := update_self ..
          refine ⟨_, rfl, h.apart (h.counts.goto p _) hapart (fun q call' hq hcall ↦ ?_)
            (fun q call' b hq hcall ↦ ?_) fun q hq hcall ↦ ?_, hapart,
            fun q v hv _ ↦ .inr ⟨v, hv, List.Subset.refl _⟩⟩
          · rw [hq, hplace] at hcall
            rcases hcall with heq | heq
            · cases heq
              exact ⟨_, hq ▸ seen_eq ha hpc hu, (call.permitted_fields pc u).trans hpermitted⟩
            · cases heq
          · rw [hq, hplace] at hcall
            cases hcall
          · rw [hq, hplace] at hcall
            cases hcall
      · rw [if_neg hpermitted]
        exact hnothing rfl
    · rw [if_neg hcan]
      exact hnothing rfl
  | subproc p a =>
    rw [System.exec]
    cases hplace : s.place p with
    | subproc call =>
      dsimp only
      by_cases hfree : s.pcreds a = none
      · rw [if_pos hfree]
        obtain ⟨v, hseen, hpermitted⟩ := h.calls p call (.inl hplace)
        obtain ⟨b, hb⟩ : ∃ b, s.cred p = some b := by
          cases hcred : s.cred p with
          | none =>
            rw [System.seen, hcred] at hseen
            cases hseen
          | some b => exact ⟨b, rfl⟩
        obtain ⟨pc, u, hpc, hu, -, -⟩ := h.counts.get hb
        obtain ⟨hshared, hbound⟩ := hsafe b pc u hb hpc hu
        rw [seen_eq hb hpc hu] at hseen
        cases hseen
        obtain ⟨s', hrun, hcounts, hapart, hcred, hcases⟩ :=
          h.counts.subproc hb hpc hu hshared hbound hfree call
        obtain ⟨hholds, hkept⟩ := h.moved hcounts hapart (seen_eq hb hpc hu)
          ((call.permitted_fields pc u).symm.trans hpermitted) hcred hcases
        exact ⟨s', hrun, hholds, hapart, hkept⟩
      · rw [if_neg hfree]
        exact hnothing rfl
    | _ => exact hnothing rfl
  | crget p c =>
    rw [System.exec]
    cases hplace : s.place p with
    | crget call =>
      dsimp only
      by_cases hfree : s.ucreds c = none
      · rw [if_pos hfree]
        obtain ⟨v, hseen, hpermitted⟩ := h.calls p call (.inr hplace)
        obtain ⟨a, ha⟩ : ∃ a, s.cred p = some a := by
          cases hcred : s.cred p with
          | none =>
            rw [System.seen, hcred] at hseen
            cases hseen
          | some a => exact ⟨a, rfl⟩
        obtain ⟨pc, u, hpc, hu, -, -⟩ := h.counts.get ha
        rw [seen_eq ha hpc hu] at hseen
        cases hseen
        obtain ⟨s', hrun, hcounts, hapart, huser, hcred, hmap⟩ :=
          h.counts.crdup ha hpc hu (h.own p call a hplace ha) hfree call
        have hcred' : s'.cred p = some a := by rw [hcred, ha]
        obtain ⟨hholds, hkept⟩ := h.moved hcounts hapart (seen_eq ha hpc hu)
          ((call.permitted_fields pc u).symm.trans hpermitted) hcred' (.inr ⟨huser, hmap⟩)
        exact ⟨s', hrun, hholds, hapart, hkept⟩
      · rw [if_neg hfree]
        exact hnothing rfl
    | _ => exact hnothing rfl
  | exit p =>
    rw [System.exec]
    by_cases hcan : s.running p = true
    · rw [if_pos hcan]
      obtain ⟨⟨a, ha⟩, -⟩ := running_iff.mp hcan
      have hapart := apart_goto s p .zombie
      have hplace : (s.goto p .zombie).place p = .zombie := update_self ..
      refine ⟨_, rfl, h.apart (h.counts.goto p _) hapart (fun q call' hq hcall ↦ ?_)
        (fun q call' b hq hcall ↦ ?_) fun q hq _ ↦ ⟨a, hq ▸ ha⟩, hapart,
        fun q v hv _ ↦ .inr ⟨v, hv, List.Subset.refl _⟩⟩
      · rw [hq, hplace] at hcall
        rcases hcall with heq | heq <;> cases heq
      · rw [hq, hplace] at hcall
        cases hcall
    · rw [if_neg hcan]
      exact hnothing rfl
  | reclaimproc p =>
    rw [System.exec]
    cases hplace : s.place p with
    | zombie =>
      obtain ⟨a, ha⟩ := h.zombie p hplace
      obtain ⟨s', hrun, hcounts, hapart, hcred, huser⟩ := h.counts.reclaimproc ha
      refine ⟨s', hrun, h.apart hcounts hapart (fun q call' hq hcall ↦ ?_)
        (fun q call' b hq hcall ↦ ?_)
        fun q hq hcall ↦ ?_, hapart, Kept.apart hapart fun _ _ _ ↦ .inl hcred⟩
      · rw [hq, huser] at hcall
        rcases hcall with heq | heq <;> cases heq
      · rw [hq, huser] at hcall
        cases hcall
      · rw [hq, huser] at hcall
        cases hcall
    | _ => exact hnothing rfl

theorem Reach.holds (hreach : Reach (fun s e ↦ e.Safe s) s) : Holds s := by
  induction hreach with
  | start p a c => exact boot_holds p a c
  | step _ hsafe hexec ih =>
    obtain ⟨t, hrun, ht, -⟩ := ih.exec hsafe
    cases hrun.symm.trans hexec
    exact ht

theorem Lives.holds (hlives : Lives p s t) (h : Holds s) : Holds t := by
  induction hlives with
  | refl => exact h
  | step _ hsafe hexec _ ih =>
    obtain ⟨t, hrun, ht, -⟩ := ih.exec hsafe
    cases hrun.symm.trans hexec
    exact ht

theorem Lives.kept {v : Pcred C × Ucred} (hlives : Lives p s t) (h : Holds s)
    (hv : s.seen p = some v)
    (hzero : 0 ∉ uids v) : ∃ v', t.seen p = some v' ∧ uids v' ⊆ uids v := by
  induction hlives with
  | refl => exact ⟨v, hv, List.Subset.refl _⟩
  | step hbefore hsafe hexec hcred ih =>
    obtain ⟨w, hw, hsubset⟩ := ih
    obtain ⟨t, hrun, -, -, hkept⟩ := (hbefore.holds h).exec hsafe
    cases hrun.symm.trans hexec
    rcases hkept p w hw fun hz ↦ hzero (hsubset hz) with hgone | ⟨v', hv', hsub⟩
    · exact absurd hgone hcred
    · exact ⟨v', hv', List.Subset.trans hsub hsubset⟩

/-- In every run whose events are safe the two counts are the numbers of references, and what has
none is freed. An event never fails, and leaves alone what is seen through a process or a file that
it is not about. A process without a user id of zero never gets one that it did not have. -/
theorem credentials_isolated {s : System P F A C} (hreach : Reach (fun s e ↦ e.Safe s) s) :
    Counted Pcred.refcnt s.sharers s.pcreds ∧ Counted Ucred.ref s.holders s.ucreds ∧
    (∀ e, e.Safe s → ∃ s', s.exec e = .ok s' ∧ (∀ q, ¬e.By q →
      s'.cred q = s.cred q ∧ s'.seen q = s.seen q) ∧
      ∀ f c, s.fcred f = some c → s'.fcred f = none ∨ s'.fcred f = some c ∧
      s'.fseen f = s.fseen f) ∧
    ∀ p v s', s.seen p = some v → 0 ∉ uids v → Lives p s s' → ∃ v',
    s'.seen p = some v' ∧ uids v' ⊆ uids v := by
  have h := hreach.holds
  refine ⟨h.counts.pcreds, h.counts.ucreds, fun e hsafe ↦ ?_, fun p v s' hv hzero hlives ↦ ?_⟩
  · obtain ⟨s', hrun, -, hapart, -⟩ := h.exec hsafe
    exact ⟨s', hrun, fun q hq ↦ ⟨hapart.cred q hq, hapart.seen q hq⟩, hapart.fseen⟩
  · exact hlives.kept h hv hzero

/-- A child gives up the user id zero, while its parent keeps it. -/
theorem setuid_child : ∃ s s' : System Bool Unit (Option Bool) (Option Bool),
    (s.seen false).map uids = some [7, 7, 7] ∧ (s.seen true).map uids = some [0, 0, 0] ∧
      s.exec (.call false (.setuid 0)) = .ok s' ∧ s'.seen true = s.seen true ∧
      ∃ pc, s.pcreds none = some pc ∧ pc.refcnt = s.sharers none := by
  obtain ⟨s₁, s₂, s₃, s, h₁, h₂, h₃, h₄, hchild, hparent, hpcred⟩ :
      ∃ s₁ s₂ s₃ s : System Bool Unit (Option Bool) (Option Bool),
        (boot true none none).exec (.fork true false) = .ok s₁ ∧
        s₁.exec (.call false (.setuid 7)) = .ok s₂ ∧
        s₂.exec (.subproc false (some true)) = .ok s₃ ∧ s₃.exec (.crget false (some true)) = .ok s ∧
        (s.seen false).map uids = some [7, 7, 7] ∧ (s.seen true).map uids = some [0, 0, 0] ∧
        s.sharers none ≠ 0 :=
    ⟨_, _, _, _, rfl, rfl, rfl, rfl, rfl, rfl, by decide⟩
  have hreach₁ : Reach (fun s e ↦ e.Safe s) s₁ :=
    (Reach.start true none none).step (e := .fork true false) trivial h₁
  have hreach₂ := hreach₁.step (e := .call false (.setuid 7)) trivial h₂
  have hsafe : (Event.subproc false (some true)).Safe s₂ := by
    cases h₁
    cases h₂
    intro a pc u ha hpc hu
    cases ha
    cases hpc
    cases hu
    exact ⟨by decide, by decide⟩
  obtain ⟨hpcreds, -, hevents, -⟩ :=
    credentials_isolated ((hreach₂.step hsafe h₃).step (e := .crget false (some true)) trivial h₄)
  obtain ⟨s', hrun, hrest, -⟩ := hevents (.call false (.setuid 0)) trivial
  have hnot : ¬(true = false) := Bool.noConfusion
  obtain ⟨pc, hpc, hrefcnt⟩ := hpcreds.get hpcred
  exact ⟨s, s', hchild, hparent, hrun, (hrest true hnot).2, pc, hpc, hrefcnt⟩

/-- Two processes that share their credentials call `setuid`, and both wait for memory: the
credentials that they have shared are never freed. -/
theorem setuid_leaks : ∃ s : System Bool Unit (Option Bool) (Option Bool),
    Reach (fun _ _ ↦ True) s ∧ (∃ pc, s.pcreds none = some pc) ∧ s.sharers none = 0 ∧
      ¬Counted Pcred.refcnt s.sharers s.pcreds := by
  obtain ⟨s₁, s₂, s₃, s₄, s, h₁, h₂, h₃, h₄, h₅, ⟨pc, hpc⟩, hshare⟩ :
      ∃ s₁ s₂ s₃ s₄ s : System Bool Unit (Option Bool) (Option Bool),
        (boot true none none).exec (.fork true false) = .ok s₁ ∧
        s₁.exec (.call true (.setuid 1)) = .ok s₂ ∧
        s₂.exec (.call false (.setuid 2)) = .ok s₃ ∧ s₃.exec (.subproc true (some true)) = .ok s₄ ∧
        s₄.exec (.subproc false (some false)) = .ok s ∧ (∃ pc, s.pcreds none = some pc) ∧
        s.sharers none = 0 :=
    ⟨_, _, _, _, _, rfl, rfl, rfl, rfl, rfl, ⟨_, rfl⟩, by decide⟩
  have hreach : Reach (fun _ _ ↦ True) s := (((((Reach.start true none none).step trivial h₁).step
    trivial h₂).step trivial h₃).step trivial h₄).step trivial h₅
  exact ⟨s, hreach, ⟨pc, hpc⟩, hshare, fun hcounted ↦ (hcounted.ref_eq hpc).2 hshare⟩

end Bsd386.Kern.Cred
