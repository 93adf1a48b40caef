import Bsd386.Kern.Cred.Basic

/-!
# The steps of the system calls
-/

namespace Bsd386.Kern.Cred

open Function

set_option linter.unusedSectionVars false

variable {P F A C : Type} [Fintype P] [Fintype F] [Fintype A] [DecidableEq P] [DecidableEq F]
  [DecidableEq A]
  [DecidableEq C] {s s' t : System P F A C} {p q : P} {f : F} {a b : A} {c : C} {pc : Pcred C}
    {u : Ucred}
  {call : Syscall}

theorem deref_some {α β : Type} (x : α) (k : α → Except Fault β) : (deref (some x) >>= k) = k x :=
  rfl

/-! ### Counts -/

theorem crhold_eq (hu : s.ucreds c = some u) (hbound : u.ref < ushrtMax) :
    s.crhold c = .ok { s with ucreds := update s.ucreds c (some { u with ref := u.ref + 1 }) } := by
  rw [System.crhold, hu, deref_some, Nat.mod_eq_of_lt (Nat.succ_lt_succ hbound)]
  rfl

theorem crfree_eq (hu : s.ucreds c = some u) (hpos : u.ref ≠ 0) (hbound : u.ref ≤ ushrtMax) :
    s.crfree c = .ok { s with
      ucreds := update s.ucreds c (if u.ref = 1 then none
        else some { u with ref := u.ref - 1 }) } := by
  have href : (u.ref + ushrtMax) % (ushrtMax + 1) = u.ref - 1 := by
    rw [ushrtMax] at hbound ⊢
    omega
  rw [System.crfree, hu, deref_some, href]
  dsimp only
  by_cases hone : u.ref = 1
  · rw [if_pos hone, if_neg (by rw [hone]; exact not_not_intro rfl)]
    rfl
  · rw [if_neg hone, if_pos (by omega)]
    rfl

/-- The references to user credentials when one of the process credentials is replaced. -/
theorem occurrences_points (s : System P F A C) (a : A) (v : Option (Pcred C)) (c : C) :
    occurrences (Option.map Pcred.ucred ∘ update s.pcreds a v) (some c) +
        (if s.points a = some c then 1 else 0) =
      occurrences s.points (some c) + (if v.map Pcred.ucred = some c then 1 else 0) := by
  rw [comp_update]
  exact occurrences_update s.points a (v.map Pcred.ucred) (some c)

/-- A place is nobody else's business. -/
theorem apart_goto (s : System P F A C) (p : P) (place : Place) :
    Apart (· = p) s (s.goto p place) :=
  ⟨fun _ _ ↦ rfl, fun _ hq ↦ update_of_ne hq _ _, fun _ _ ↦ rfl, fun _ _ _ _ _ ↦ id,
    fun _ _ h ↦ .inr ⟨h, rfl⟩⟩

theorem Counts.goto (h : Counts s) (p : P) (place : Place) : Counts (s.goto p place) :=
  ⟨h.pcreds, h.ucreds, h.bound⟩

/-! ### `modpcred` -/

/-- The process writes to credentials that are its own. -/
theorem Counts.finish (h : Counts s) (ha : s.cred p = some a) (hpc : s.pcreds a = some pc)
    (hu : s.ucreds pc.ucred = some u) (hown : s.sharers a = 1) (hone : u.ref = 1) (call : Syscall) :
    ∃ s', s.finish p call = .ok s' ∧ Counts s' ∧ Apart (· = p) s s' ∧ s'.fcred = s.fcred ∧
    s'.place p = .user ∧
      s'.cred = s.cred ∧ (s'.seen p).map uids = some (uids (call.pcred pc, call.ucred u)) := by
  obtain ⟨t, ht⟩ : ∃ t : System P F A C, { s with
      pcreds := update s.pcreds a (some (call.pcred pc))
      ucreds := update s.ucreds pc.ucred (some (call.ucred u)) }.goto p .user = t := ⟨_, rfl⟩
  obtain ⟨hptr, hrefcnt⟩ := call.pcred_rest pc
  have hholders := (h.ucreds.ref_eq hu).1
  rw [hone] at hholders
  have hsharers := (h.pcreds.ref_eq hpc).1
  have hcred : t.cred = s.cred := by rw [← ht]; rfl
  have hplace : t.place = update s.place p .user := by rw [← ht]; rfl
  have hpcreds : t.pcreds = update s.pcreds a (some (call.pcred pc)) := by rw [← ht]; rfl
  have hucreds : t.ucreds = update s.ucreds pc.ucred (some (call.ucred u)) := by rw [← ht]; rfl
  have hfcred : t.fcred = s.fcred := by rw [← ht]; rfl
  have hother : t.other = s.other := by rw [← ht]; rfl
  have hpoints : t.points = s.points := by
    rw [System.points, hpcreds, comp_update, Option.map_some, hptr, ← points_eq hpc]
    exact update_eq_self a s.points
  have hshare : ∀ b, t.sharers b = s.sharers b :=
    fun b ↦ by rw [System.sharers, System.sharers, hcred]
  have hhold : ∀ c, t.holders c = s.holders c := fun c ↦ by
    rw [System.holders, System.holders, hpoints, hfcred, hother]
  obtain ⟨honly, hfile⟩ := eq_of_holders hholders.symm (points_eq hpc)
  refine ⟨t, ?_, ⟨?_, ?_, fun c ↦ (hhold c).trans_le (h.bound c)⟩,
    ⟨fun _ _ ↦ congrFun hcred _, fun q hq ↦ ?_, fun q hq ↦ ?_,
    fun q b _ _ _ hb ↦ (hshare b).trans hb,
      fun f c hf ↦ ?_⟩, hfcred, by rw [hplace, update_self], hcred, ?_⟩
  · rw [System.finish, ha, deref_some, hpc, deref_some, hu, deref_some, ht]
    rfl
  · rw [hpcreds]
    refine (h.pcreds.congr hshare).set ?_ ?_ fun _ _ ↦ rfl
    · rw [hrefcnt, hsharers, hshare]
    · rw [hshare, hown]
      exact one_ne_zero
  · rw [hucreds]
    refine (h.ucreds.congr hhold).set ?_ ?_ fun _ _ ↦ rfl
    · rw [call.ucred_ref, hone, hhold, hholders]
    · rw [hhold, ← hholders]
      exact one_ne_zero
  · rw [hplace]
    exact update_of_ne hq _ _
  · refine seen_congr (congrFun hcred q) (fun b hb ↦ ?_) fun b pc' hb hpc' ↦ ?_
    · have hba : b ≠ a := fun heq ↦ hq (eq_of_sharers hown (heq ▸ hb) ha)
      rw [hpcreds, update_of_ne hba]
    · have hba : b ≠ a := fun heq ↦ hq (eq_of_sharers hown (heq ▸ hb) ha)
      have hne : pc'.ucred ≠ pc.ucred := fun heq ↦ hba (honly b (heq ▸ points_eq hpc'))
      rw [hucreds, update_of_ne hne]
  · have hne : c ≠ pc.ucred := fun heq ↦ hfile f (heq ▸ hf)
    rw [System.fseen, System.fseen, hfcred, hf, Option.bind_some, Option.bind_some, hucreds,
      update_of_ne hne]
    exact .inr ⟨rfl, rfl⟩
  · rw [seen_eq (hcred ▸ ha) (by rw [hpcreds, update_self]) (by rw [hptr, hucreds, update_self])]
    rfl

/-- The process goes on with a copy of its user credentials. -/
theorem Counts.crdup (h : Counts s) (ha : s.cred p = some a) (hpc : s.pcreds a = some pc)
    (hu : s.ucreds pc.ucred = some u) (hown : s.sharers a = 1) (hc : s.ucreds c = none)
    (call : Syscall) :
    ∃ s', s.crdup p c call = .ok s' ∧ Counts s' ∧ Apart (· = p) s s' ∧ s'.place p = .user ∧
      s'.cred = s.cred ∧ (s'.seen p).map uids = some (uids (call.pcred pc, call.ucred u)) := by
  obtain ⟨href, hpos⟩ := h.ucreds.ref_eq hu
  have hbound := h.bound pc.ucred
  have hne : pc.ucred ≠ c := fun heq ↦ by
    rw [heq, hc] at hu
    cases hu
  obtain ⟨rest, hrest⟩ : ∃ rest, (if u.ref = 1 then none else some { u with ref := u.ref - 1 }) =
    rest :=
    ⟨_, rfl⟩
  obtain ⟨t, ht⟩ : ∃ t : System P F A C, { s with
      pcreds := update s.pcreds a (some { pc with ucred := c })
      ucreds := update (update s.ucreds c (some { u with ref := 1 })) pc.ucred rest } = t :=
        ⟨_, rfl⟩
  have hcred : t.cred = s.cred := by rw [← ht]
  have hplace : t.place = s.place := by rw [← ht]
  have hpcreds : t.pcreds = update s.pcreds a (some { pc with ucred := c }) := by rw [← ht]
  have hucreds : t.ucreds = update (update s.ucreds c (some { u with ref := 1 })) pc.ucred
    rest := by
    rw [← ht]
  have hfcred : t.fcred = s.fcred := by rw [← ht]
  have hother : t.other = s.other := by rw [← ht]
  have hshare : ∀ b, t.sharers b = s.sharers b :=
    fun b ↦ by rw [System.sharers, System.sharers, hcred]
  -- One reference moves to the copy.
  have hmove : ∀ d, t.holders d + (if pc.ucred = d then 1 else 0) = s.holders d + (if c = d then 1
    else 0) := by
    intro d
    have hpoints := occurrences_points s a (some { pc with ucred := c }) d
    rw [← hpcreds, points_eq hpc, Option.map_some] at hpoints
    change occurrences t.points (some d) + _ = _ at hpoints
    rw [System.holders, System.holders, hfcred, hother]
    simp only [Option.some.injEq] at hpoints
    omega
  have hnew : t.holders c = 1 := by
    have hthis := hmove c
    rw [if_neg hne, if_pos rfl, h.ucreds.eq_zero hc] at hthis
    exact hthis
  have hold : t.holders pc.ucred + 1 = s.holders pc.ucred := by
    have hthis := hmove pc.ucred
    rwa [if_pos rfl, if_neg (Ne.symm hne)] at hthis
  have hrestof : ∀ d, d ≠ c → d ≠ pc.ucred → t.holders d = s.holders d := by
    intro d hdc hdp
    have hthis := hmove d
    rwa [if_neg (Ne.symm hdp), if_neg (Ne.symm hdc)] at hthis
  have hcount : Counts t := by
    refine ⟨?_, ?_, fun d ↦ ?_⟩
    · rw [hpcreds]
      refine (h.pcreds.congr hshare).set ?_ ?_ fun _ _ ↦ rfl
      · rw [hshare]
        exact (h.pcreds.ref_eq hpc).1
      · rw [hshare, hown]
        exact one_ne_zero
    · have hfirst :
        Counted Ucred.ref (update s.holders c 1) (update s.ucreds c (some { u with ref := 1 })) :=
        h.ucreds.set (update_self c (1 : ℕ) s.holders).symm (by rw [update_self]; exact one_ne_zero)
          fun d hd ↦ update_of_ne hd _ _
      have hothers : ∀ d, d ≠ pc.ucred → t.holders d = update s.holders c 1 d := by
        intro d hd
        by_cases hdc : d = c
        · rw [hdc, hnew, update_self]
        · rw [hrestof d hdc hd, update_of_ne hdc]
      rw [hucreds, ← hrest]
      by_cases hone : u.ref = 1
      · rw [if_pos hone]
        exact hfirst.free (by omega) hothers
      · rw [if_neg hone]
        refine hfirst.set ?_ (by omega) hothers
        change u.ref - 1 = _
        omega
    · have hthis := hmove d
      have hd := h.bound d
      by_cases hdc : c = d
      · rw [← hdc, hnew, ushrtMax]
        omega
      · rw [if_neg hdc] at hthis
        omega
  have hapart : Apart (· = p) s t := by
    refine ⟨fun _ _ ↦ congrFun hcred _, fun _ _ ↦ congrFun hplace _, fun q hq ↦ ?_,
      fun q b _ _ _ hb ↦ (hshare b).trans hb, fun f d hf ↦ ?_⟩
    · refine seen_congr (congrFun hcred q) (fun b hb ↦ ?_) fun b pc' hb hpc' ↦ ?_
      · have hba : b ≠ a := fun heq ↦ hq (eq_of_sharers hown (heq ▸ hb) ha)
        rw [hpcreds, update_of_ne hba]
      · have hba : b ≠ a := fun heq ↦ hq (eq_of_sharers hown (heq ▸ hb) ha)
        have hnc : pc'.ucred ≠ c := fun heq ↦ by
          have hthis := occurrences_pos (points_eq hpc')
          have hzero := h.ucreds.eq_zero hc
          rw [heq] at hthis
          rw [System.holders] at hzero
          omega
        by_cases hsame : pc'.ucred = pc.ucred
        · -- Another one refers to the old credentials, so that they stay.
          have htwo : u.ref ≠ 1 := fun hone ↦ by
            rw [hone] at href
            exact hba ((eq_of_holders href.symm (points_eq hpc)).1 b (hsame ▸ points_eq hpc'))
          rw [hsame, hucreds, update_self, hu, ← hrest, if_neg htwo]
          rfl
        · rw [hucreds, update_of_ne hsame, update_of_ne hnc]
    · have hnc : d ≠ c := fun heq ↦ by
        have hthis := occurrences_pos hf
        have hzero := h.ucreds.eq_zero hc
        rw [heq] at hthis
        rw [System.holders] at hzero
        omega
      rw [System.fseen, System.fseen, hfcred, hf, Option.bind_some, Option.bind_some]
      refine .inr ⟨rfl, ?_⟩
      by_cases hsame : d = pc.ucred
      · have htwo : u.ref ≠ 1 := fun hone ↦ by
          rw [hone] at href
          exact (eq_of_holders href.symm (points_eq hpc)).2 f (hsame ▸ hf)
        rw [hsame, hucreds, update_self, hu, ← hrest, if_neg htwo]
        rfl
      · rw [hucreds, update_of_ne hsame, update_of_ne hnc]
  have hpc' : t.pcreds a = some { pc with ucred := c } := by rw [hpcreds, update_self]
  have hu' : t.ucreds c = some { u with ref := 1 } := by
    rw [hucreds, update_of_ne (Ne.symm hne), update_self]
  obtain ⟨s', hrun, hcount', hapart', hfiles, huser, hcred', hseen⟩ :=
    hcount.finish (hcred ▸ ha) hpc' hu' ((hshare a).trans hown) rfl call
  refine ⟨s', ?_, hcount', hapart.trans hapart' fun f hf ↦ by rw [hfiles, hf], huser,
    hcred'.trans hcred, ?_⟩
  · have hfree :
      System.crfree pc.ucred { s with ucreds := update s.ucreds c (some { u with ref := 1 }) } =
        .ok { s with
          ucreds := update (update s.ucreds c (some { u with ref := 1 })) pc.ucred rest } := by
      rw [← hrest]
      refine crfree_eq ?_ (by omega) (by omega)
      change update s.ucreds c _ pc.ucred = some u
      rw [update_of_ne hne, hu]
    rw [System.crdup, ha, deref_some, hpc, deref_some, hu, deref_some, hfree, ← hrun, ← ht]
    rfl
  · rw [hseen]
    cases call <;> rfl

/-- `modpcred` from the second test on, for a process that shares its credentials with no other. -/
theorem Counts.unshared (h : Counts s) (ha : s.cred p = some a) (hpc : s.pcreds a = some pc)
    (hu : s.ucreds pc.ucred = some u) (hown : s.sharers a = 1) (call : Syscall) :
    ∃ s', s.unshared p call = .ok s' ∧ Counts s' ∧ Apart (· = p) s s' ∧ s'.fcred = s.fcred ∧
      s'.cred = s.cred ∧ (s'.place p = .crget call ∧ s'.sharers a = 1 ∧ s'.seen p = s.seen p ∨
        s'.place p = .user ∧ (s'.seen p).map uids = some (uids (call.pcred pc, call.ucred u))) := by
  rw [System.unshared, ha, deref_some, hpc, deref_some, hu, deref_some]
  by_cases hone : u.ref = 1
  · obtain ⟨s', hrun, hcount, hapart, hfiles, hplace, hcred, hseen⟩ :=
      h.finish ha hpc hu hown hone call
    rw [if_neg (not_not_intro hone)]
    exact ⟨s', hrun, hcount, hapart, hfiles, hcred, .inr ⟨hplace, hseen⟩⟩
  · rw [if_pos hone]
    exact ⟨_, rfl, h.goto p _, apart_goto s p _, rfl, rfl, .inl ⟨update_self .., hown, rfl⟩⟩

/-- `modpcred` makes a copy of process credentials that are still shared. -/
theorem Counts.subproc (h : Counts s) (ha : s.cred p = some b) (hpc : s.pcreds b = some pc)
    (hu : s.ucreds pc.ucred = some u) (hshared : pc.refcnt ≠ 1) (hbound : u.ref < ushrtMax)
    (hfree : s.pcreds a = none) (call : Syscall) :
    ∃ s', s.subproc p a call = .ok s' ∧ Counts s' ∧ Apart (· = p) s s' ∧ s'.cred p = some a ∧
      (s'.place p = .crget call ∧ s'.sharers a = 1 ∧ s'.seen p = s.seen p ∨
        s'.place p = .user ∧ (s'.seen p).map uids = some (uids (call.pcred pc, call.ucred u))) := by
  obtain ⟨hrefcnt, hpos⟩ := h.pcreds.ref_eq hpc
  obtain ⟨href, hhold⟩ := h.ucreds.ref_eq hu
  have hab : a ≠ b := fun heq ↦ by
    rw [heq, hpc] at hfree
    cases hfree
  have hnobody := h.pcreds.eq_zero hfree
  obtain ⟨t, ht⟩ : ∃ t : System P F A C, { s with
      cred := update s.cred p (some a)
      pcreds := update (update s.pcreds b (some { pc with refcnt := pc.refcnt - 1 })) a
        (some { pc with refcnt := 1 })
      ucreds := update s.ucreds pc.ucred (some { u with ref := u.ref + 1 }) } = t := ⟨_, rfl⟩
  have hcred : t.cred = update s.cred p (some a) := by rw [← ht]
  have hplace : t.place = s.place := by rw [← ht]
  have hpcreds : t.pcreds = update (update s.pcreds b (some { pc with refcnt := pc.refcnt - 1 })) a
      (some { pc with refcnt := 1 }) := by rw [← ht]
  have hucreds :
    t.ucreds = update s.ucreds pc.ucred (some { u with ref := u.ref + 1 }) := by rw [← ht]
  have hfcred : t.fcred = s.fcred := by rw [← ht]
  have hother : t.other = s.other := by rw [← ht]
  have hshare : ∀ d, t.sharers d + (if b = d then 1 else 0) = s.sharers d + (if a = d then 1
    else 0) := by
    intro d
    have hthis := occurrences_update s.cred p (some a) (some d)
    rw [← hcred, ha] at hthis
    simp only [Option.some.injEq] at hthis
    exact hthis
  have hone : t.sharers a = 1 := by
    have hthis := hshare a
    rwa [if_neg (Ne.symm hab), if_pos rfl, hnobody] at hthis
  have hless : t.sharers b + 1 = s.sharers b := by
    have hthis := hshare b
    rwa [if_pos rfl, if_neg hab] at hthis
  have hsame : ∀ d, d ≠ a → d ≠ b → t.sharers d = s.sharers d := by
    intro d hda hdb
    have hthis := hshare d
    rwa [if_neg (Ne.symm hdb), if_neg (Ne.symm hda)] at hthis
  -- The copy is one reference more to the user credentials.
  have hmore : ∀ d, t.holders d = s.holders d + (if pc.ucred = d then 1 else 0) := by
    intro d
    have hpoints : t.points = update s.points a (some pc.ucred) := by
      rw [System.points, hpcreds, comp_update, comp_update, Option.map_some, Option.map_some]
      have hold : update s.points b (some pc.ucred) = s.points := by
        rw [← points_eq hpc]
        exact update_eq_self b s.points
      exact congrArg (fun g ↦ update g a (some pc.ucred)) hold
    have hnone : s.points a = none := by rw [System.points, comp_apply, hfree, Option.map_none]
    have hthis := occurrences_update s.points a (some pc.ucred) (some d)
    rw [hnone, if_neg (by exact fun h ↦ by cases h)] at hthis
    simp only [Option.some.injEq] at hthis
    rw [System.holders, System.holders, hpoints, hfcred, hother]
    omega
  have hcount : Counts t := by
    refine ⟨?_, ?_, fun d ↦ ?_⟩
    · have hfirst : Counted Pcred.refcnt (update s.sharers b (s.sharers b - 1))
          (update s.pcreds b (some { pc with refcnt := pc.refcnt - 1 })) := by
        refine h.pcreds.set ?_ ?_ fun d hd ↦ update_of_ne hd _ _
        · change pc.refcnt - 1 = _
          rw [update_self, hrefcnt]
        · rw [update_self]
          omega
      rw [hpcreds]
      refine hfirst.set hone.symm (by rw [hone]; exact one_ne_zero) fun d hda ↦ ?_
      by_cases hdb : d = b
      · rw [hdb, update_self]
        omega
      · rw [update_of_ne hdb, hsame d hda hdb]
    · rw [hucreds]
      refine h.ucreds.set ?_ ?_ fun d hd ↦ ?_
      · rw [hmore, if_pos rfl, ← href]
      · rw [hmore, if_pos rfl]
        exact Nat.succ_ne_zero _
      · rw [hmore, if_neg (Ne.symm hd)]
        rfl
    · rw [hmore]
      have hd := h.bound d
      by_cases heq : pc.ucred = d
      · rw [if_pos heq, ← heq]
        omega
      · rw [if_neg heq]
        exact hd
  have hseen : ∀ q, q ≠ p → t.seen q = s.seen q := by
    intro q hq
    refine seen_congr (by rw [hcred, update_of_ne hq]) (fun d hd ↦ ?_) fun d pc' hd hpc' ↦ ?_
    · have hda : d ≠ a := fun heq ↦ by
        have hthis := occurrences_pos hd
        rw [heq] at hthis
        exact hthis.ne' hnobody
      rw [hpcreds, update_of_ne hda]
      by_cases hdb : d = b
      · rw [hdb, update_self, hpc]
        rfl
      · rw [update_of_ne hdb]
    · rw [hucreds]
      by_cases heq : pc'.ucred = pc.ucred
      · rw [heq, update_self, hu]
        rfl
      · rw [update_of_ne heq]
  have hapart : Apart (· = p) s t := by
    refine ⟨fun q hq ↦ by rw [hcred]; exact update_of_ne hq _ _, fun _ _ ↦ congrFun hplace _, hseen,
      fun q d hq _ hd hown ↦ ?_, fun f d hf ↦ ?_⟩
    · have hdb : d ≠ b := fun heq ↦ hq (eq_of_sharers hown hd (heq ▸ ha))
      have hda : d ≠ a := fun heq ↦ by
        rw [heq, hnobody] at hown
        cases hown
      rw [hsame d hda hdb, hown]
    · rw [System.fseen, System.fseen, hfcred, hf, Option.bind_some, Option.bind_some, hucreds]
      refine .inr ⟨rfl, ?_⟩
      by_cases heq : d = pc.ucred
      · rw [heq, update_self, hu]
        rfl
      · rw [update_of_ne heq]
  have ha' : t.cred p = some a := by rw [hcred, update_self]
  have hpc' : t.pcreds a = some { pc with refcnt := 1 } := by rw [hpcreds, update_self]
  have hu' : t.ucreds pc.ucred = some { u with ref := u.ref + 1 } := by rw [hucreds, update_self]
  have hme : t.seen p = s.seen p := by
    rw [seen_eq ha' hpc' hu', seen_eq ha hpc hu]
    rfl
  obtain ⟨s', hrun, hcount', hapart', hfiles, hcred', hcases⟩ :=
    hcount.unshared ha' hpc' hu' hone call
  refine ⟨s', ?_, hcount',
    hapart.trans hapart' fun f hf ↦ by rw [hfiles, hf], by rw [hcred', ha'], ?_⟩
  · rw [System.subproc, ha, deref_some, hpc, deref_some, crhold_eq (by exact hu) hbound,
      ← hrun, ← ht]
    rfl
  · rw [hme] at hcases
    refine hcases.imp id fun hdone ↦ ⟨hdone.1, hdone.2.trans ?_⟩
    cases call <;> rfl

end Bsd386.Kern.Cred
