import Bsd386.Dosfs.Writers.Steps

/-!
# Writers that have slept

The steps behind a sleep: an entry of the table is set, or a bit that was put off.
-/

set_option linter.unusedSectionVars false

namespace Bsd386.Dosfs.Writers

open Function

variable {F P : Type*} [DecidableEq F] [DecidableEq P] {V : Volume}
variable {s : Writers F P} {own : F ⊕ P → List ℕ} {p q : P} {f g : F} {c cn next : ℕ} {dep : Denode}
  {new : Bool}

/-! ### Bits -/

/-- The bit of a cluster that no process marks is set while its entry is. -/
theorem Marked.get_eq_true (h : Marked V s) (hcn : V.Has cn)
    (hnomark : ∀ q, (s.pc q).marks ≠ some cn)
    (hset : s.fat.entry cn ≠ pcfsfree ∨ ∃ q, (s.pc q).frees = some cn) :
    Bitmap.get s.fat.inusemap cn = true := by
  by_contra hclear
  rcases (h.bit cn hcn).mp (Bool.eq_false_of_not_eq_true hclear) with hfree | ⟨q, hq⟩
  · rcases hset with huse | ⟨q, hq⟩
    · exact huse hfree.1
    · exact hfree.2 q hq
  · exact hnomark q hq

/-- A step that concerns one cluster. -/
theorem Marked.change {s' : Writers F P} (h : Marked V s) (hcn : V.Has cn)
    (hothers : ∀ q, q ≠ p → s'.pc q = s.pc q)
    (hentry : ∀ c, c ≠ cn → s'.fat.entry c = s.fat.entry c)
    (hget : ∀ c, c ≠ cn → Bitmap.get s'.fat.inusemap c = Bitmap.get s.fat.inusemap c)
    (hcount : s'.fat.freeclustercount = (clearBits V s'.fat).card)
    (hfrees : ∀ c, c ≠ cn → ((s'.pc p).frees = some c ↔ (s.pc p).frees = some c))
    (hmarks : ∀ c, c ≠ cn → ((s'.pc p).marks = some c ↔ (s.pc p).marks = some c))
    (hpicks : ∀ c, (s'.pc p).picks = some c → (s.pc p).picks = some c)
    (hbit : Bitmap.get s'.fat.inusemap cn = false ↔ s'.Clear cn)
    (hfree : ∀ q, (s'.pc q).frees = some cn →
      s'.fat.entry cn = pcfsfree ∧ ∀ r, (s'.pc r).frees = some cn → r = q)
    (halloc : ∀ f new c, s'.pc p ≠ .allocating f new c)
    (hnobody : ∀ q, q ≠ p → ∀ f new, s.pc q ≠ .allocating f new cn) : Marked V s' := by
  have hfrees' : ∀ q c, c ≠ cn → ((s'.pc q).frees = some c ↔ (s.pc q).frees = some c) := by
    intro q c hc
    by_cases hqp : q = p
    · rw [hqp]
      exact hfrees c hc
    · rw [hothers q hqp]
  have hpicks' : ∀ q c, (s'.pc q).picks = some c → (s.pc q).picks = some c := by
    intro q c hq
    by_cases hqp : q = p
    · rw [hqp] at hq ⊢
      exact hpicks c hq
    · rw [hothers q hqp] at hq
      exact hq
  refine ⟨fun c hc hle ↦ ?_, fun c hc ↦ ?_, hcount, fun q c hq ↦ ?_, fun q c hq ↦ ?_,
    fun q g new' c hq ↦ ?_⟩
  · have hcc : c ≠ cn := fun heq ↦ hc (heq ▸ hcn)
    rw [hget c hcc]
    exact h.outside c hc hle
  · by_cases hcc : c = cn
    · rw [hcc]
      exact hbit
    · rw [hget c hcc, h.bit c hc]
      exact (clear_congr hothers (by rw [hentry c hcc]) (hfrees c hcc) (hmarks c hcc)).symm
  · by_cases hcc : c = cn
    · rw [hcc] at hq ⊢
      exact ⟨hcn, hfree q hq⟩
    · obtain ⟨hc, hzero, hall⟩ := h.frees q c ((hfrees' q c hcc).mp hq)
      exact ⟨hc, by rw [hentry c hcc, hzero], fun r hr ↦ hall r ((hfrees' r c hcc).mp hr)⟩
  · obtain ⟨hc, hall⟩ := h.picks q c (hpicks' q c hq)
    exact ⟨hc, fun r hr ↦ hall r (hpicks' r c hr)⟩
  · have hqp : q ≠ p := fun heq ↦ halloc g new' c (heq ▸ hq)
    rw [hothers q hqp] at hq
    have hcc : c ≠ cn := fun heq ↦ hnobody q hqp g new' (heq ▸ hq)
    rw [hentry c hcc, hget c hcc]
    exact h.alloc q g new' c hq

/-- The entry of a cluster is set that is found. -/
theorem Marked.mark (h : Marked V s) (hpc : s.pc p = .allocating f new cn) :
    Marked V (⟨{ s.fat with entry := update s.fat.entry cn clustEofe }, update s.dep f dep,
      update s.pc p (.marking f new cn)⟩ : Writers F P) := by
  obtain ⟨hfree, hclear⟩ := h.alloc p f new cn hpc
  have hpick : (s.pc p).picks = some cn := by rw [hpc]; rfl
  obtain ⟨hcn, hunique⟩ := h.picks p cn hpick
  have hnofree : ∀ q, (s.pc q).frees ≠ some cn := by
    rcases (h.bit cn hcn).mp hclear with hnone | ⟨q, hq⟩
    · exact hnone.2
    · have hqp := hunique q (Pc.picks_of_marks hq)
      rw [hqp, hpc] at hq
      cases hq
  have hp : update s.pc p (.marking f new cn) p = .marking f new cn := update_self ..
  have hothers : ∀ q, q ≠ p → update s.pc p (.marking f new cn) q = s.pc q :=
    fun q hq ↦ update_of_ne hq ..
  refine h.change hcn hothers (fun c hc ↦ update_of_ne hc ..) (fun _ _ ↦ rfl) h.count ?_ ?_ ?_ ?_
    ?_ ?_ ?_
  · intro c _
    change (update s.pc p _ p).frees = _ ↔ _
    rw [hp, hpc]
    rfl
  · intro c hc
    change (update s.pc p _ p).marks = _ ↔ _
    rw [hp, hpc]
    exact ⟨fun heq ↦ absurd (Option.some.inj heq).symm hc, fun heq ↦ by cases heq⟩
  · intro c
    change (update s.pc p _ p).picks = _ → _
    rw [hp, hpc]
    exact id
  · refine ⟨fun _ ↦ .inr ⟨p, ?_⟩, fun _ ↦ hclear⟩
    change (update s.pc p _ p).marks = _
    rw [hp]
    rfl
  · intro q hq
    change (update s.pc p _ q).frees = _ at hq
    by_cases hqp : q = p
    · rw [hqp, hp] at hq
      cases hq
    · rw [hothers q hqp] at hq
      exact absurd hq (hnofree q)
  · intro g new' c hq
    change update s.pc p _ p = _ at hq
    rw [hp] at hq
    cases hq
  · exact fun q hqp g new' hq ↦ hqp (hunique q (by rw [hq]; rfl))

/-- The bit of a cluster is set whose entry is. -/
theorem Marked.alloc_bit (h : Marked V s) {pc : Pc F} (hpc : s.pc p = .marking f new cn)
    (hset : s.fat.entry cn ≠ pcfsfree) (hfrees : pc.frees = none) (hmarks : pc.marks = none)
    (hpicks : pc.picks = none) :
    Marked V (⟨usemapAlloc cn s.fat, update s.dep f dep, update s.pc p pc⟩ : Writers F P) := by
  have hpick : (s.pc p).picks = some cn := by rw [hpc]; rfl
  obtain ⟨hcn, hunique⟩ := h.picks p cn hpick
  have hclear : Bitmap.get s.fat.inusemap cn = false :=
    (h.bit cn hcn).mpr (.inr ⟨p, by rw [hpc]; rfl⟩)
  have hget : ∀ d, Bitmap.get (Bitmap.set s.fat.inusemap cn) d =
      (decide (d = cn) || Bitmap.get s.fat.inusemap d) := fun d ↦ Bitmap.get_set (by decide)
  have hp : update s.pc p pc p = pc := update_self ..
  have hothers : ∀ q, q ≠ p → update s.pc p pc q = s.pc q := fun q hq ↦ update_of_ne hq ..
  refine h.change hcn hothers (fun _ _ ↦ rfl) (fun c hc ↦ ?_) (clearBits_alloc hcn hclear h.count)
    ?_ ?_ ?_ ?_ ?_
    ?_ ?_
  · exact (hget c).trans (by rw [decide_eq_false hc, Bool.false_or])
  · intro c _
    change (update s.pc p pc p).frees = _ ↔ _
    rw [hp, hfrees, hpc]
    rfl
  · intro c hc
    change (update s.pc p pc p).marks = _ ↔ _
    rw [hp, hmarks, hpc]
    exact ⟨fun heq ↦ (by cases heq), fun heq ↦ absurd (Option.some.inj heq).symm hc⟩
  · intro c hq
    change (update s.pc p pc p).picks = _ at hq
    rw [hp, hpicks] at hq
    cases hq
  · refine ⟨fun heq ↦ ?_, ?_⟩
    · have hset' := hget cn
      rw [decide_eq_true rfl, Bool.true_or] at hset'
      exact absurd (hset'.symm.trans heq) (by decide)
    · rintro (hfree | ⟨q, hq⟩)
      · exact absurd hfree.1 hset
      · change (update s.pc p pc q).marks = _ at hq
        have hqp : q ≠ p := fun heq ↦ by
          rw [heq, hp, hmarks] at hq
          cases hq
        rw [hothers q hqp] at hq
        exact absurd (hunique q (Pc.picks_of_marks hq)) hqp
  · intro q hq
    change (update s.pc p pc q).frees = _ at hq
    have hqp : q ≠ p := fun heq ↦ by
      rw [heq, hp, hfrees] at hq
      cases hq
    rw [hothers q hqp] at hq
    exact absurd (h.frees q cn hq).2.1 hset
  · intro g new' c hq
    change update s.pc p pc p = _ at hq
    rw [hp] at hq
    exact not_allocating hpicks hq
  · exact fun q hqp g new' hq ↦ hqp (hunique q (by rw [hq]; rfl))

/-- The entry of a cluster is cleared that a process has. -/
theorem Marked.clear_entry (h : Marked V s) (hpc : s.pc p = .freeing f cn) (hcn : V.Has cn)
    (hset : s.fat.entry cn ≠ pcfsfree) (hnomark : ∀ q, (s.pc q).marks ≠ some cn) :
    Marked V (⟨{ s.fat with entry := update s.fat.entry cn pcfsfree }, update s.dep f dep,
      update s.pc p (.freed f cn next)⟩ : Writers F P) := by
  have hp : update s.pc p (.freed f cn next) p = .freed f cn next := update_self ..
  have hothers : ∀ q, q ≠ p → update s.pc p (.freed f cn next) q = s.pc q :=
    fun q hq ↦ update_of_ne hq ..
  have hbit := h.get_eq_true hcn hnomark (.inl hset)
  refine h.change hcn hothers (fun c hc ↦ update_of_ne hc ..) (fun _ _ ↦ rfl) h.count ?_ ?_ ?_ ?_
    ?_ ?_ ?_
  · intro c hc
    change (update s.pc p _ p).frees = _ ↔ _
    rw [hp, hpc]
    exact ⟨fun heq ↦ absurd (Option.some.inj heq).symm hc, fun heq ↦ by cases heq⟩
  · intro c _
    change (update s.pc p _ p).marks = _ ↔ _
    rw [hp, hpc]
    rfl
  · intro c hq
    change (update s.pc p _ p).picks = _ at hq
    rw [hp] at hq
    cases hq
  · refine ⟨fun heq ↦ absurd (hbit.symm.trans heq) (by decide), ?_⟩
    rintro (hfree | ⟨q, hq⟩)
    · refine absurd ?_ (hfree.2 p)
      change (update s.pc p _ p).frees = _
      rw [hp]
      rfl
    · change (update s.pc p _ q).marks = _ at hq
      have hqp : q ≠ p := fun heq ↦ by
        rw [heq, hp] at hq
        cases hq
      rw [hothers q hqp] at hq
      exact absurd hq (hnomark q)
  · have hunique : ∀ r, (update s.pc p (.freed f cn next) r).frees = some cn → r = p := by
      intro r hr
      by_contra hrp
      rw [hothers r hrp] at hr
      exact hset (h.frees r cn hr).2.1
    intro q hq
    exact ⟨update_self .., fun r hr ↦ (hunique r hr).trans (hunique q hq).symm⟩
  · intro g new' c hq
    change update s.pc p _ p = _ at hq
    rw [hp] at hq
    cases hq
  · exact fun q _ g new' hq ↦ hset (h.alloc q g new' cn hq).1

/-- The bit of a cluster is cleared whose entry is. -/
theorem Marked.free_bit (h : Marked V s) {pc : Pc F} (hpc : s.pc p = .freed f cn next)
    (hnomark : ∀ q, (s.pc q).marks ≠ some cn) (hfrees : pc.frees = none) (hmarks : pc.marks = none)
    (hpicks : pc.picks = none) :
    Marked V (⟨usemapFree cn s.fat, update s.dep f dep, update s.pc p pc⟩ : Writers F P) := by
  have hfree : (s.pc p).frees = some cn := by rw [hpc]; rfl
  obtain ⟨hcn, hzero, hunique⟩ := h.frees p cn hfree
  have hbit := h.get_eq_true hcn hnomark (.inr ⟨p, hfree⟩)
  have hget : ∀ d, Bitmap.get (Bitmap.clear s.fat.inusemap cn) d =
      (!decide (d = cn) && Bitmap.get s.fat.inusemap d) := fun d ↦ Bitmap.get_clear (by decide)
  have hp : update s.pc p pc p = pc := update_self ..
  have hothers : ∀ q, q ≠ p → update s.pc p pc q = s.pc q := fun q hq ↦ update_of_ne hq ..
  have hnofree : ∀ q, (update s.pc p pc q).frees ≠ some cn := by
    intro q hq
    have hqp : q ≠ p := fun heq ↦ by
      rw [heq, hp, hfrees] at hq
      cases hq
    rw [hothers q hqp] at hq
    exact hqp (hunique q hq)
  refine h.change hcn hothers (fun _ _ ↦ rfl) (fun c hc ↦ ?_) (clearBits_free hcn hbit h.count) ?_
    ?_ ?_ ?_ ?_
    ?_ ?_
  · exact (hget c).trans (by rw [decide_eq_false hc, Bool.not_false, Bool.true_and])
  · intro c hc
    change (update s.pc p pc p).frees = _ ↔ _
    rw [hp, hfrees, hpc]
    exact ⟨fun heq ↦ (by cases heq), fun heq ↦ absurd (Option.some.inj heq).symm hc⟩
  · intro c _
    change (update s.pc p pc p).marks = _ ↔ _
    rw [hp, hmarks, hpc]
    rfl
  · intro c hq
    change (update s.pc p pc p).picks = _ at hq
    rw [hp, hpicks] at hq
    cases hq
  · refine ⟨fun _ ↦ .inl ⟨hzero, hnofree⟩, fun _ ↦ (hget cn).trans ?_⟩
    rw [decide_eq_true rfl, Bool.not_true, Bool.false_and]
  · exact fun q hq ↦ absurd hq (hnofree q)
  · intro g new' c hq
    change update s.pc p pc p = _ at hq
    rw [hp] at hq
    exact not_allocating hpicks hq
  · intro q _ g new' hq
    have hclear := (h.alloc q g new' cn hq).2
    rw [hbit] at hclear
    cases hclear

/-! ### Clusters -/

theorem Inv.run_allocating (h : Inv V s own) (hpc : s.pc p = .allocating f new cn) :
    ∃ own', Inv V ((s.setEntry cn clustEofe).put p f (s.dep f) (.marking f new cn)) own' := by
  have hfile : (s.pc p).file = some f := by rw [hpc]; rfl
  have hknows := h.knows p f hfile
  rw [hpc] at hknows
  have hzero := (h.marked.alloc p f new cn hpc).1
  have hcn : V.Has cn := (h.marked.picks p cn (by rw [hpc]; rfl)).1
  have hne : ∀ {c}, s.fat.entry c ≠ pcfsfree → c ≠ cn := fun huse heq ↦ huse (heq ▸ hzero)
  refine ⟨_, h.move (l := own (.inl f)) (m := [cn]) (h.alone hfile)
    (fun c _ _ huse ↦ update_of_ne (hne huse) ..) ?_ ⟨rfl, ?_⟩ ?_ (List.nodup_singleton cn)
    (fun c hc ↦ hc.imp_right fun hc ↦ .inr ?_) (fun c hc hc' ↦ ?_)
    (h.marked.mark hpc) (fun g hg ↦ (Option.some.inj hg).symm) hknows⟩
  · exact (h.owned.file f).congr fun c hc ↦ update_of_ne (hne (h.owned.ne_free hc)) ..
  · change Pcfseof (update s.fat.entry cn clustEofe cn)
    rw [update_self]
    exact pcfseof_clustEofe
  · intro c hc
    rw [List.mem_singleton.mp hc]
    exact hcn
  · rw [List.mem_singleton.mp hc]
    exact hzero
  · exact hne (h.owned.ne_free hc) (List.mem_singleton.mp hc')

theorem Inv.run_marking (h : Inv V s own) (hpc : s.pc p = .marking f new cn) :
    ∃ own', Inv V (s.run V p) own' := by
  have hfile : (s.pc p).file = some f := by rw [hpc]; rfl
  have hknows := h.knows p f hfile
  have hheld := h.owned.held p
  have hhas := h.owned.has p
  rw [hpc] at hknows hheld
  obtain ⟨hroot, hknown⟩ := hknows
  obtain ⟨hone, heof⟩ := hheld
  rw [hone] at hhas
  have hcn : V.Has cn := hhas cn (List.mem_singleton_self cn)
  have hset : s.fat.entry cn ≠ pcfsfree := ne_free_of_pcfseof heof
  have hholds := h.owned.file f
  rw [Writers.run, hpc]
  dsimp only
  -- A file without clusters gets the cluster that the process has.
  have hfirst : ∀ fc : Fatcache, (s.dep f).startCluster = 0 → (fc.frcn ≠ fceEmpty → fc = ⟨0, cn⟩) →
      ∃ own', Inv V (⟨usemapAlloc cn s.fat, update s.dep f
        { s.dep f with startCluster := cn, lastfc := fc }, update s.pc p .idle⟩ :
        Writers F P) own' := by
    intro fc hstart hfc
    have hchain := hholds.chain
    rw [hstart] at hchain
    have hholds := hholds
    rw [hchain.eq_nil] at hholds
    refine ⟨_, h.move (l := [cn]) (m := []) (h.alone hfile) (fun _ _ _ _ ↦ rfl)
      (hholds.first hroot hcn heof hfc) rfl (fun c hc ↦ absurd hc List.not_mem_nil) List.nodup_nil
      (fun c hc ↦ ?_) (fun c _ ↦ List.not_mem_nil) (h.marked.alloc_bit hpc hset rfl rfl rfl)
      (fun g hg ↦ absurd hg.symm (Option.some_ne_none g)) trivial⟩
    rw [hone]
    exact hc.elim (fun hc ↦ .inr (.inl hc)) fun hc ↦ absurd hc List.not_mem_nil
  by_cases hnew : new = true
  · rw [if_pos hnew] at hknown ⊢
    have hchain := hholds.chain
    rw [hknown] at hchain
    have hnil := hholds
    rw [hchain.eq_nil] at hnil
    exact hfirst (s.dep f).lastfc hknown fun hempty ↦ absurd hnil.lastfc_empty hempty
  rw [if_neg hnew] at hknown ⊢
  by_cases hstart : (s.dep f).startCluster = 0
  · rw [if_pos hstart, fcSetcache_eq (by decide) hcn.lt_short]
    exact hfirst ⟨0, cn⟩ hstart fun _ ↦ rfl
  · have hon := hholds.lastfc (hknown hstart)
    rw [if_neg hstart, if_pos (hholds.has _ (List.mem_of_getElem? hon))]
    refine ⟨_, h.move (l := own (.inl f)) (m := [cn]) (h.alone hfile) (fun _ _ _ _ ↦ rfl) hholds
      ⟨rfl, heof⟩
      hhas (List.nodup_singleton cn) (fun c hc ↦ ?_) (fun c hc hc' ↦ ?_)
      (h.marked.alloc_bit hpc hset rfl rfl rfl) (fun g hg ↦ (Option.some.inj hg).symm)
      ⟨hstart, hknown hstart⟩⟩
    · rw [hone]
      exact hc.imp_right .inl
    · rw [← hone] at hc'
      exact h.owned.apart _ _ Sum.inl_ne_inr c hc hc'

theorem Inv.run_linking (h : Inv V s own) (hpc : s.pc p = .linking f cn) :
    ∃ own', Inv V (s.run V p) own' := by
  have hfile : (s.pc p).file = some f := by rw [hpc]; rfl
  have hknows := h.knows p f hfile
  have hheld := h.owned.held p
  have hhas := h.owned.has p
  rw [hpc] at hknows hheld
  obtain ⟨hstart, hknown⟩ := hknows
  obtain ⟨hone, heof⟩ := hheld
  rw [hone] at hhas
  have hcn : V.Has cn := hhas cn (List.mem_singleton_self cn)
  have hholds := h.owned.file f
  have hon := hholds.lastfc hknown
  have hlen := hholds.last hknown
  have hmem : (s.dep f).lastfc.fsrcn ∈ own (.inl f) := List.mem_of_getElem? hon
  have hlast : (own (.inl f)).getLast? = some (s.dep f).lastfc.fsrcn := by
    rw [List.getLast?_eq_getElem?, ← hlen, Nat.add_sub_cancel]
    exact hon
  have hnot : cn ∉ own (.inl f) := fun hmem ↦
    h.owned.apart _ (.inr p) Sum.inl_ne_inr cn hmem (hone ▸ List.mem_singleton_self cn)
  have hshort : (own (.inl f)).length < 0x10000 :=
    Nat.lt_succ_of_lt (length_lt_short hholds.has hholds.nodup)
  rw [Writers.run, hpc]
  dsimp only
  rw [hlen, fcSetcache_eq hshort hcn.lt_short]
  refine ⟨_, h.move (l := own (.inl f) ++ [cn]) (m := []) (h.alone hfile)
    (fun c hc _ _ ↦ update_of_ne (fun heq : c = _ ↦ hc (heq ▸ hmem)) ..)
    (hholds.concat hstart hcn hnot heof hlast) rfl (fun c hc ↦ absurd hc List.not_mem_nil)
      List.nodup_nil
    (fun c hc ↦ ?_) (fun c _ ↦ List.not_mem_nil) ?_ (fun g hg ↦ absurd hg.symm
      (Option.some_ne_none g))
    trivial⟩
  · rw [hone]
    rcases hc with hc | hc
    · exact (List.mem_append.mp hc).imp_right .inl
    · exact absurd hc List.not_mem_nil
  · refine h.marked.move rfl rfl (fun c ↦ ?_) ?_ ?_ (fun c hc ↦ absurd hc.symm
      (Option.some_ne_none c))
      fun _ _ _ hc ↦ absurd hc (not_allocating rfl)
    · by_cases hc : c = (s.dep f).lastfc.fsrcn
      · rw [hc]
        change update s.fat.entry _ cn _ = pcfsfree ↔ _
        rw [update_self]
        exact ⟨fun hzero ↦ absurd hzero hcn.ne_free, fun hzero ↦
          absurd hzero (h.owned.ne_free hmem)⟩
      · change update s.fat.entry _ cn c = pcfsfree ↔ _
        rw [update_of_ne hc]
    · rw [hpc]
      exact ⟨rfl, rfl⟩
    · rw [hpc]
      exact ⟨rfl, rfl⟩

theorem Inv.run_cutting {place eofentry : ℕ} (h : Inv V s own)
    (hpc : s.pc p = .cutting f place eofentry) :
    ∃ own', Inv V (s.run V p) own' := by
  have hfile : (s.pc p).file = some f := by rw [hpc]; rfl
  have hknows := h.knows p f hfile
  have hheld := h.owned.held p
  rw [hpc] at hknows hheld
  obtain ⟨hat, hbefore⟩ := hknows
  have hnil : own (.inr p) = [] := hheld
  have hholds := h.owned.file f
  have hmem : eofentry ∈ own (.inl f) := List.mem_of_getElem? hat
  have huse : s.fat.entry eofentry ≠ pcfsfree := h.owned.ne_free hmem
  obtain ⟨hlt, hget⟩ := List.getElem?_eq_some_iff.mp hat
  have hsplit : own (.inl f) = (own (.inl f)).take place ++ eofentry :: (own (.inl f)).drop
    (place + 1) := by
    rw [← hget, ← List.drop_eq_getElem_cons hlt, List.take_append_drop]
  have hrest : (eofentry :: (own (.inl f)).drop (place + 1)).Nodup := by
    have hnodup := hholds.nodup
    rw [hsplit] at hnodup
    exact (List.nodup_append.mp hnodup).2.1
  have hchain := hholds.chain.chain fun hzero ↦ by
    have hchain := hholds.chain
    rw [hzero] at hchain
    rw [hchain.eq_nil] at hmem
    exact absurd hmem List.not_mem_nil
  have hchain := hchain.2
  rw [hsplit] at hchain
  obtain ⟨hfrees, hmarks, hpicks, hsame, hknows⟩ := freeRest_none (V := V) f (s.fat.entry eofentry)
  have hshort : place < 0x10000 :=
    Nat.lt_succ_of_lt (hlt.trans (length_lt_short hholds.has hholds.nodup))
  rw [Writers.run, hpc]
  dsimp only
  rw [fcSetcache_eq hshort (hholds.has _ hmem).lt_short]
  refine ⟨_, h.move (l := (own (.inl f)).take (place + 1)) (m := (own (.inl f)).drop (place + 1))
    (h.alone hfile) (fun c hc _ _ ↦ update_of_ne (fun heq : c = _ ↦ hc (heq ▸ hmem)) ..)
    (hholds.cut hat hbefore) ?_ (fun c hc ↦ hholds.has c (List.mem_of_mem_drop hc))
    (List.nodup_cons.mp hrest).2
      (fun c hc ↦ .inl (hc.elim List.mem_of_mem_take List.mem_of_mem_drop))
    (fun c hc hc' ↦ ?_) ?_ hsame (hknows _ _)⟩
  · exact held_freeRest (.inr (hchain.next_of_append.update (List.nodup_cons.mp hrest).1))
      fun c hc ↦ hholds.has c (List.mem_of_mem_drop hc)
  · have hall := hholds.nodup
    rw [← List.take_append_drop (place + 1) (own (.inl f))] at hall
    exact (List.nodup_append.mp hall).2.2 c hc c hc' rfl
  · refine h.marked.move rfl rfl (fun c ↦ ?_) ?_ ?_ (fun c hc ↦ ?_) fun _ _ _ hc ↦
      absurd hc (not_allocating hpicks)
    · by_cases hc : c = eofentry
      · rw [hc]
        change update s.fat.entry _ clustEofe _ = pcfsfree ↔ _
        rw [update_self]
        exact ⟨fun hzero ↦ absurd hzero (by decide), fun hzero ↦ absurd hzero huse⟩
      · change update s.fat.entry _ clustEofe c = pcfsfree ↔ _
        rw [update_of_ne hc]
    · rw [hpc]
      exact ⟨hfrees, rfl⟩
    · rw [hpc]
      exact ⟨hmarks, rfl⟩
    · rw [hpicks] at hc
      cases hc

theorem Inv.run_freeing (h : Inv V s own) (hpc : s.pc p = .freeing f cn) :
    ∃ own', Inv V (s.run V p) own' := by
  have hfile : (s.pc p).file = some f := by rw [hpc]; rfl
  have hheld := h.owned.held p
  have hhas := h.owned.has p
  have hnodup := h.owned.nodup p
  rw [hpc] at hheld
  obtain ⟨hcn, hchain⟩ := hheld
  cases hl : own (.inr p) with
  | nil =>
    rw [hl] at hchain
    exact absurd hchain hcn.not_pcfseof
  | cons d l =>
    have hmem : d ∈ own (.inr p) := by
      rw [hl]
      exact List.mem_cons_self ..
    have hset := h.owned.ne_free hmem
    rw [hl] at hchain hhas hnodup
    obtain ⟨rfl, hrest⟩ := hchain
    have hnomark : ∀ q, (s.pc q).marks ≠ some cn := by
      intro q hq
      by_cases hqp : q = p
      · rw [hqp, hpc] at hq
        cases hq
      · exact h.owned.apart (.inr q) (.inr p) (fun heq ↦ hqp (Sum.inr.inj heq)) cn
          (h.owned.mem_of_marks hq) hmem
    rw [Writers.run, hpc]
    refine ⟨_, h.move (l := own (.inl f)) (m := l) (h.alone hfile)
      (fun c _ hc _ ↦ update_of_ne (fun heq : c = _ ↦ hc (heq ▸ hmem)) ..) ?_
      (hrest.update (List.nodup_cons.mp hnodup).1) (fun c hc ↦ hhas c (List.mem_cons_of_mem cn hc))
      (List.nodup_cons.mp hnodup).2 (fun c hc ↦ ?_) (fun c hc hc' ↦ ?_)
      (h.marked.clear_entry hpc hcn hset hnomark) (fun g hg ↦ (Option.some.inj hg).symm) trivial⟩
    · refine (h.owned.file f).congr fun c hc ↦ update_of_ne (fun heq : c = cn ↦ ?_) ..
      exact h.owned.apart _ (.inr p) Sum.inl_ne_inr cn (heq ▸ hc) hmem
    · rw [hl]
      exact hc.imp_right fun hc ↦ .inl (List.mem_cons_of_mem cn hc)
    · refine h.owned.apart _ (.inr p) Sum.inl_ne_inr c hc ?_
      rw [hl]
      exact List.mem_cons_of_mem cn hc'

theorem Inv.run_freed (h : Inv V s own) (hpc : s.pc p = .freed f cn next) :
    ∃ own', Inv V (s.run V p) own' := by
  have hfile : (s.pc p).file = some f := by rw [hpc]; rfl
  have hheld := h.owned.held p
  rw [hpc] at hheld
  have hzero := (h.marked.frees p cn (by rw [hpc]; rfl)).2.1
  have hnomark : ∀ q, (s.pc q).marks ≠ some cn := fun q hq ↦
    h.owned.ne_free (h.owned.mem_of_marks hq) hzero
  obtain ⟨hfrees, hmarks, hpicks, hsame, hknows⟩ := turn_none (V := V) f next
  rw [Writers.run, hpc]
  exact ⟨_, h.move (l := own (.inl f)) (m := own (.inr p)) (h.alone hfile) (fun _ _ _ _ ↦ rfl)
    (h.owned.file f) (held_turn hheld (h.owned.has p)) (h.owned.has p) (h.owned.nodup p)
    (fun c hc ↦ hc.imp_right .inl) (h.owned.apart _ _ Sum.inl_ne_inr)
    (h.marked.free_bit hpc hnomark hfrees hmarks hpicks) hsame (hknows _ _)⟩

/-- Every step that meets the condition keeps what writers keep. -/
theorem Inv.step {e : Event F P} (h : Inv V s own) (hpossible : Possible V s e)
    (hcareful : Careful V s e) :
    ∃ own', Inv V (s.step V e) own' := by
  cases e with
  | begin p op =>
    cases op with
    | extendfile f => exact h.begin_extendfile hpossible hcareful
    | mkdir f =>
      obtain ⟨hidle, halone, hstart, hroot⟩ := hpossible
      exact h.pick hidle halone (h.owned.file f) hroot hstart hcareful
    | detrunc f length b => exact h.begin_detrunc hpossible hcareful
  | run p =>
    change ∃ own', Inv V (s.run V p) own'
    cases hpc : s.pc p with
    | idle =>
      rw [Writers.run, hpc]
      exact ⟨own, h⟩
    | allocating f new cn =>
      rw [Writers.run, hpc]
      exact h.run_allocating hpc
    | marking f new cn => exact h.run_marking hpc
    | linking f cn => exact h.run_linking hpc
    | cutting f place eofentry => exact h.run_cutting hpc
    | freeing f cn => exact h.run_freeing hpc
    | freed f cn next => exact h.run_freed hpc

end Bsd386.Dosfs.Writers
