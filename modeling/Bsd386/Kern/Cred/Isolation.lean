import Bsd386.Kern.Cred.Steps

/-!
# Isolation of credentials

`modpcred` takes for granted, when it has got memory, that its process still shares its credentials.
Where this is so, and no count overflows, the counts are right in every run, no call of one process
changes what is seen through another one or through a file, and no user id comes from nowhere.
-/

namespace Bsd386.Kern.Cred

open Function

set_option linter.unusedSectionVars false

variable {P F A C : Type} [Fintype P] [Fintype F] [Fintype A] [DecidableEq P] [DecidableEq F]
  [DecidableEq A]
  [DecidableEq C] {s s' t : System P F A C} {p q : P} {f : F} {a b : A} {c : C} {pc : Pcred C}
    {u : Ucred}
  {call : Syscall}

/-! ### Other events -/

theorem Counts.fork1 (h : Counts s) (ha : s.cred p = some a) (hq : s.cred q = none)
    (hplace : s.place p = .user) :
    ∃ s', s.fork1 p q = .ok s' ∧ Counts s' ∧ Apart (· = q) s s' ∧ s'.place q = .user ∧ 
      s'.fcred = s.fcred ∧ s'.seen q = s.seen p := by
  obtain ⟨pc, u, hpc, hu, hrefcnt, -⟩ := h.get ha
  obtain ⟨t, ht⟩ : ∃ t : System P F A C, { s with
      pcreds := update s.pcreds a (some { pc with refcnt := pc.refcnt + 1 })
      cred := update s.cred q (some a) }.goto q .user = t := ⟨_, rfl⟩
  have hcred : t.cred = update s.cred q (some a) := by rw [← ht]; rfl
  have hplaces : t.place = update s.place q .user := by rw [← ht]; rfl
  have hpcreds :
    t.pcreds = update s.pcreds a (some { pc with refcnt := pc.refcnt + 1 }) := by rw [← ht]; rfl
  have hucreds : t.ucreds = s.ucreds := by rw [← ht]; rfl
  have hfcred : t.fcred = s.fcred := by rw [← ht]; rfl
  have hother : t.other = s.other := by rw [← ht]; rfl
  have hshare : ∀ d, t.sharers d = s.sharers d + (if a = d then 1 else 0) := by
    intro d
    have hthis := occurrences_update s.cred q (some a) (some d)
    rw [← hcred, hq, if_neg (by exact fun h ↦ by cases h)] at hthis
    simp only [Option.some.injEq] at hthis
    exact hthis
  have hpoints : t.points = s.points := by
    rw [System.points, hpcreds, comp_update, Option.map_some]
    change update s.points a (some pc.ucred) = s.points
    rw [← points_eq hpc]
    exact update_eq_self a s.points
  have hhold : ∀ c, t.holders c = s.holders c := fun c ↦ by
    rw [System.holders, System.holders, hpoints, hfcred, hother]
  have hseen : ∀ r, r ≠ q → t.seen r = s.seen r := by
    intro r hr
    refine seen_congr (by rw [hcred, update_of_ne hr]) (fun d hd ↦ ?_)
      fun d pc' hd hpc' ↦ by rw [hucreds]
    rw [hpcreds]
    by_cases hda : d = a
    · rw [hda, update_self, hpc]
      rfl
    · rw [update_of_ne hda]
  have hpq : p ≠ q := fun heq ↦ by
    rw [heq, hq] at ha
    cases ha
  refine ⟨t, ?_, ⟨?_, ?_, fun c ↦ (hhold c).trans_le (h.bound c)⟩,
    ⟨fun r hr ↦ by rw [hcred, update_of_ne hr], fun r hr ↦ by rw [hplaces, update_of_ne hr], hseen,
      fun r d hr hcall hd hone ↦ ?_, fun f c hf ↦ ?_⟩, by rw [hplaces, update_self], hfcred, ?_⟩
  · rw [System.fork1, ha, deref_some, hpc, deref_some, ht]
    rfl
  · rw [hpcreds]
    refine h.pcreds.set ?_ ?_ fun d hd ↦ ?_
    · rw [hshare, if_pos rfl, hrefcnt]
    · rw [hshare, if_pos rfl]
      exact Nat.succ_ne_zero _
    · rw [hshare, if_neg (Ne.symm hd)]
      rfl
  · rw [hucreds]
    exact h.ucreds.congr hhold
  · have hda : d ≠ a := fun heq ↦ by
      rw [eq_of_sharers hone hd (heq ▸ ha)] at hcall
      exact hcall hplace
    rw [hshare, if_neg (Ne.symm hda), hone]
  · rw [System.fseen, System.fseen, hfcred, hf, hucreds]
    exact .inr ⟨rfl, rfl⟩
  · rw [seen_eq (a := a) (by rw [hcred, update_self]) (by rw [hpcreds, update_self])
      (by rw [hucreds]; exact hu),
      seen_eq ha hpc hu]
    rfl

theorem Counts.falloc (h : Counts s) (ha : s.cred p = some a) (hpc : s.pcreds a = some pc)
    (hu : s.ucreds pc.ucred = some u) (hbound : u.ref < ushrtMax) (hf : s.fcred f = none) :
    ∃ s', s.falloc p f = .ok s' ∧ Counts s' ∧ Apart (fun _ ↦ False) s s' := by
  obtain ⟨href, hpos⟩ := h.ucreds.ref_eq hu
  obtain ⟨t, ht⟩ : ∃ t : System P F A C, { s with
      fcred := update s.fcred f (some pc.ucred)
      ucreds := update s.ucreds pc.ucred (some { u with ref := u.ref + 1 }) } = t := ⟨_, rfl⟩
  have hcred : t.cred = s.cred := by rw [← ht]
  have hplace : t.place = s.place := by rw [← ht]
  have hpcreds : t.pcreds = s.pcreds := by rw [← ht]
  have hucreds :
    t.ucreds = update s.ucreds pc.ucred (some { u with ref := u.ref + 1 }) := by rw [← ht]
  have hfcred : t.fcred = update s.fcred f (some pc.ucred) := by rw [← ht]
  have hother : t.other = s.other := by rw [← ht]
  have hshare : ∀ d, t.sharers d = s.sharers d :=
    fun d ↦ by rw [System.sharers, System.sharers, hcred]
  have hmore : ∀ d, t.holders d = s.holders d + (if pc.ucred = d then 1 else 0) := by
    intro d
    have hpoints : t.points = s.points := by rw [System.points, System.points, hpcreds]
    have hthis := occurrences_update s.fcred f (some pc.ucred) (some d)
    rw [hf, if_neg (by exact fun h ↦ by cases h)] at hthis
    simp only [Option.some.injEq] at hthis
    rw [System.holders, System.holders, hpoints, hfcred, hother]
    omega
  have hfields : ∀ d, (t.ucreds d).map Ucred.fields = (s.ucreds d).map Ucred.fields := by
    intro d
    rw [hucreds]
    by_cases heq : d = pc.ucred
    · rw [heq, update_self, hu]
      rfl
    · rw [update_of_ne heq]
  refine ⟨t, ?_, ⟨?_, ?_, fun d ↦ ?_⟩, ⟨fun _ _ ↦ congrFun hcred _, fun _ _ ↦ congrFun hplace _,
    fun q _ ↦ seen_congr (congrFun hcred q) (fun d _ ↦ by rw [hpcreds]) fun d pc' _ _ ↦
    hfields pc'.ucred,
    fun q d _ _ _ hone ↦ (hshare d).trans hone, fun g d hg ↦ ?_⟩⟩
  · rw [System.falloc, ha, deref_some, hpc, deref_some, crhold_eq (by exact hu) hbound, ← ht]
  · rw [hpcreds]
    exact h.pcreds.congr hshare
  · rw [hucreds]
    refine h.ucreds.set ?_ ?_ fun d hd ↦ ?_
    · rw [hmore, if_pos rfl, ← href]
    · rw [hmore, if_pos rfl]
      exact Nat.succ_ne_zero _
    · rw [hmore, if_neg (Ne.symm hd)]
      rfl
  · rw [hmore]
    have hd := h.bound d
    by_cases heq : pc.ucred = d
    · rw [if_pos heq, ← heq]
      omega
    · rw [if_neg heq]
      exact hd
  · have hgf : g ≠ f := fun heq ↦ by
      rw [heq, hf] at hg
      cases hg
    have hsame : t.fcred g = some d := by rw [hfcred, update_of_ne hgf, hg]
    rw [System.fseen, System.fseen, hsame, hg]
    exact .inr ⟨rfl, hfields d⟩

/-- A reference to user credentials goes, from a file or from process credentials. -/
theorem Counts.crfree (h : Counts s) (hu : s.ucreds c = some u)
    (hrest : s'.ucreds = update s.ucreds c (if u.ref = 1 then none
    else some { u with ref := u.ref - 1 }))
    (hless : ∀ d, s'.holders d + (if c = d then 1 else 0) = s.holders d) :
    Counted Ucred.ref s'.holders s'.ucreds ∧ (∀ d, s'.holders d ≤ ushrtMax) ∧
      ∀ d, 0 < s'.holders d → (s'.ucreds d).map Ucred.fields = (s.ucreds d).map Ucred.fields := by
  obtain ⟨href, hpos⟩ := h.ucreds.ref_eq hu
  have hc := hless c
  rw [if_pos rfl] at hc
  have hsame : ∀ d, d ≠ c → s'.holders d = s.holders d := fun d hd ↦ by
    have hthis := hless d
    rwa [if_neg (Ne.symm hd)] at hthis
  refine ⟨?_, fun d ↦ ?_, fun d hd ↦ ?_⟩
  · rw [hrest]
    by_cases hone : u.ref = 1
    · rw [if_pos hone]
      exact h.ucreds.free (by omega) hsame
    · rw [if_neg hone]
      refine h.ucreds.set ?_ (by omega) hsame
      change u.ref - 1 = _
      omega
  · have hbound := h.bound d
    have hthis := hless d
    omega
  · rw [hrest]
    by_cases hdc : d = c
    · rw [hdc] at hd
      rw [hdc, update_self, if_neg (by omega), hu]
      rfl
    · rw [update_of_ne hdc]

theorem Counts.ffree (h : Counts s) (hf : s.fcred f = some c) :
    ∃ s', System.crfree c { s with fcred := update s.fcred f none } = .ok s' ∧ Counts s' ∧
      Apart (fun _ ↦ False) s s' := by
  have hpos := occurrences_pos hf
  obtain ⟨u, hu, href⟩ := h.ucreds.get (b := c) (by rw [System.holders]; omega)
  have hbound := h.bound c
  obtain ⟨t, ht⟩ : ∃ t : System P F A C, { s with
      fcred := update s.fcred f none
      ucreds := update s.ucreds c (if u.ref = 1 then none
        else some { u with ref := u.ref - 1 }) } = t :=
    ⟨_, rfl⟩
  have hcred : t.cred = s.cred := by rw [← ht]
  have hplace : t.place = s.place := by rw [← ht]
  have hpcreds : t.pcreds = s.pcreds := by rw [← ht]
  have hucreds : t.ucreds =
      update s.ucreds c (if u.ref = 1 then none
        else some { u with ref := u.ref - 1 }) := by rw [← ht]
  have hfcred : t.fcred = update s.fcred f none := by rw [← ht]
  have hother : t.other = s.other := by rw [← ht]
  have hpoints : t.points = s.points := by rw [System.points, System.points, hpcreds]
  have hshare : ∀ d, t.sharers d = s.sharers d :=
    fun d ↦ by rw [System.sharers, System.sharers, hcred]
  have hless : ∀ d, t.holders d + (if c = d then 1 else 0) = s.holders d := by
    intro d
    have hthis := occurrences_update s.fcred f none (some d)
    rw [hf, if_neg (show ¬(none : Option C) = some d from fun h ↦ by cases h)] at hthis
    simp only [Option.some.injEq] at hthis
    rw [System.holders, System.holders, hpoints, hfcred, hother]
    omega
  obtain ⟨hcounted, hmax, hfields⟩ := h.crfree hu hucreds hless
  refine ⟨t, ?_, ⟨?_, hcounted, hmax⟩, ⟨fun _ _ ↦ congrFun hcred _, fun _ _ ↦ congrFun hplace _,
    fun q _ ↦ ?_,
    fun q d _ _ _ hone ↦ (hshare d).trans hone, fun g d hg ↦ ?_⟩⟩
  · rw [crfree_eq (by exact hu) (h.ucreds.ref_eq hu |>.1.trans_ne (h.ucreds.ref_eq hu).2)
      (by omega), ← ht]
  · rw [hpcreds]
    exact h.pcreds.congr hshare
  · refine seen_congr (congrFun hcred q) (fun d _ ↦ by rw [hpcreds]) fun d pc' _ hpc' ↦ hfields _ ?_
    have hthis := occurrences_pos (points_eq hpc')
    rw [System.holders, hpoints]
    omega
  · by_cases hgf : g = f
    · rw [hgf, hfcred, update_self]
      exact .inl rfl
    · have hsame : t.fcred g = some d := by rw [hfcred, update_of_ne hgf, hg]
      have hthis := occurrences_pos hsame
      rw [System.fseen, System.fseen, hsame, hg]
      exact .inr ⟨rfl, hfields d (by rw [System.holders]; omega)⟩

theorem Counts.reclaimproc (h : Counts s) (ha : s.cred p = some a) :
    ∃ s', s.reclaimproc p = .ok s' ∧ Counts s' ∧ Apart (· = p) s s' ∧ s'.cred p = none ∧
    s'.place p = .user := by
  obtain ⟨pc, u, hpc, hu, hrefcnt, href⟩ := h.get ha
  have hpos : 0 < s.sharers a := occurrences_pos ha
  have hbound := h.bound pc.ucred
  have hhold := (h.ucreds.ref_eq hu).2
  obtain ⟨t, ht⟩ : ∃ t : System P F A C, { s with
      cred := update s.cred p none
      place := update s.place p .user
      pcreds := update s.pcreds a (if pc.refcnt = 1 then none
        else some { pc with refcnt := pc.refcnt - 1 })
      ucreds := if pc.refcnt = 1 then
          update s.ucreds pc.ucred (if u.ref = 1 then none else some { u with ref := u.ref - 1 })
        else s.ucreds } = t := ⟨_, rfl⟩
  have hcred : t.cred = update s.cred p none := by rw [← ht]
  have hplace : t.place = update s.place p .user := by rw [← ht]
  have hpcreds : t.pcreds =
      update s.pcreds a (if pc.refcnt = 1 then none
        else some { pc with refcnt := pc.refcnt - 1 }) := by
    rw [← ht]
  have hucreds : t.ucreds = if pc.refcnt = 1 then
      update s.ucreds pc.ucred (if u.ref = 1 then none else some { u with ref := u.ref - 1 })
    else s.ucreds := by rw [← ht]
  have hfcred : t.fcred = s.fcred := by rw [← ht]
  have hother : t.other = s.other := by rw [← ht]
  have hshare : ∀ d, t.sharers d + (if a = d then 1 else 0) = s.sharers d := by
    intro d
    have hthis := occurrences_update s.cred p none (some d)
    rw [← hcred, ha, if_neg (show ¬(none : Option A) = some d from fun h ↦ by cases h)] at hthis
    simp only [Option.some.injEq] at hthis
    exact hthis
  have hleave : t.sharers a + 1 = s.sharers a := by
    have hthis := hshare a
    rwa [if_pos rfl] at hthis
  have hstay : ∀ d, d ≠ a → t.sharers d = s.sharers d := fun d hd ↦ by
    have hthis := hshare d
    rwa [if_neg (Ne.symm hd)] at hthis
  have hcount : Counted Pcred.refcnt t.sharers t.pcreds := by
    rw [hpcreds]
    by_cases hone : pc.refcnt = 1
    · rw [if_pos hone]
      exact h.pcreds.free (by omega) hstay
    · rw [if_neg hone]
      refine h.pcreds.set ?_ (by omega) hstay
      change pc.refcnt - 1 = _
      omega
  -- What remains is seen as before.
  obtain ⟨hucounted, hmax, hfields⟩ : Counted Ucred.ref t.holders t.ucreds ∧
    (∀ d, t.holders d ≤ ushrtMax) ∧
      ∀ d, 0 < t.holders d → (t.ucreds d).map Ucred.fields = (s.ucreds d).map Ucred.fields := by
    have hpoints := fun d ↦ occurrences_points s a
      (if pc.refcnt = 1 then none else some { pc with refcnt := pc.refcnt - 1 }) d
    rw [← hpcreds, points_eq hpc] at hpoints
    by_cases hone : pc.refcnt = 1
    · refine h.crfree hu (by rw [hucreds, if_pos hone]) fun d ↦ ?_
      have hthis := hpoints d
      rw [if_pos hone, Option.map_none, if_neg (show ¬(none : Option C) = some d from
        fun h ↦ by cases h)] at hthis
      simp only [Option.some.injEq] at hthis
      change occurrences t.points (some d) + _ = _ at hthis
      rw [System.holders, System.holders, hfcred, hother]
      omega
    · have hsame : ∀ d, t.holders d = s.holders d := by
        intro d
        have hthis := hpoints d
        rw [if_neg hone, Option.map_some] at hthis
        change occurrences t.points (some d) + _ = _ + (if some pc.ucred = some d then 1
          else 0) at hthis
        rw [System.holders, System.holders, hfcred, hother]
        omega
      rw [hucreds, if_neg hone]
      exact ⟨h.ucreds.congr hsame, fun d ↦ (hsame d).trans_le (h.bound d), fun d _ ↦ rfl⟩
  have hkept : ∀ q d, q ≠ p → s.cred q = some d → d = a → pc.refcnt ≠ 1 := by
    intro q d hq hd hda hone
    rw [hrefcnt] at hone
    exact hq (eq_of_sharers hone (hda ▸ hd) ha)
  refine ⟨t, ?_, ⟨hcount, hucounted, hmax⟩, ⟨fun q hq ↦ by rw [hcred, update_of_ne hq],
    fun q hq ↦ by rw [hplace, update_of_ne hq], fun q hq ↦ ?_, fun q d hq _ hd hone ↦ ?_,
      fun g d hg ↦ ?_⟩,
    by rw [hcred, update_self], by rw [hplace, update_self]⟩
  · rw [System.reclaimproc, ha, deref_some, hpc, deref_some, ← ht]
    dsimp only
    by_cases hone : pc.refcnt = 1
    · rw [if_pos (by omega), crfree_eq (by exact hu) (by omega) (by omega)]
      simp only [if_pos hone]
      rfl
    · rw [if_neg (by omega)]
      simp only [if_neg hone]
      rfl
  · refine seen_congr (by rw [hcred, update_of_ne hq]) (fun d hd ↦ ?_) fun d pc' hd hpc' ↦
      hfields _ ?_
    · rw [hpcreds]
      by_cases hda : d = a
      · rw [hda, update_self, if_neg (hkept q d hq hd hda), hpc]
        rfl
      · rw [update_of_ne hda]
    · obtain ⟨pc'', hpc''⟩ : ∃ pc'', t.pcreds d = some pc'' ∧ pc''.ucred = pc'.ucred := by
        rw [hpcreds]
        by_cases hda : d = a
        · rw [hda, hpc] at hpc'
          cases hpc'
          rw [hda, update_self, if_neg (hkept q d hq hd hda)]
          exact ⟨_, rfl, rfl⟩
        · rw [update_of_ne hda]
          exact ⟨pc', hpc', rfl⟩
      have hthis := occurrences_pos (points_eq hpc''.1)
      rw [System.holders, ← hpc''.2]
      omega
  · have hda : d ≠ a := fun heq ↦ by
      rw [heq] at hd hone
      exact hq (eq_of_sharers hone hd ha)
    rw [hstay d hda, hone]
  · have hsame : t.fcred g = some d := by rw [hfcred, hg]
    have hthis := occurrences_pos hsame
    rw [System.fseen, System.fseen, hsame, hg]
    exact .inr ⟨rfl, hfields d (by rw [System.holders]; omega)⟩

end Bsd386.Kern.Cred
