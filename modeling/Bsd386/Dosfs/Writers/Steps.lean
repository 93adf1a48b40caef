import Bsd386.Dosfs.Writers.Basic

/-!
# Steps of writers

What each step of a process does to the clusters and the bits. A process that begins is to find a
cluster that no other process has found and not yet marked.
-/

set_option linter.unusedSectionVars false

namespace Bsd386.Dosfs.Writers

open Function

variable {F P : Type*} [DecidableEq F] [DecidableEq P] {V : Volume}
variable {s : Writers F P} {own : F ⊕ P → List ℕ} {p q : P} {f g : F} {c cn : ℕ} {dep : Denode}
  {new : Bool}

/-- The processes other than the one that has the file locked. -/
theorem Inv.alone (h : Inv V s own) (hfile : (s.pc p).file = some f) (q : P) (hq : q ≠ p) :
    (s.pc q).file ≠ some f := fun hother ↦ hq (h.lock q p f hother hfile)

/-! ### Beginning -/

theorem held_turn {entry : ℕ → ℕ} {l : List ℕ} (hchain : Chain entry Pcfseof cn l)
    (hhas : ∀ c ∈ l, V.Has c) :
    Held V entry (turn V f cn) l := by
  rw [turn]
  split_ifs with hcn
  · exact ⟨hcn, hchain⟩
  · cases l with
    | nil => rfl
    | cons d l =>
      rw [hchain.1] at hcn
      exact absurd (hhas d (List.mem_cons_self ..)) hcn

theorem turn_none (f : F) (cn : ℕ) : (turn V f cn).frees = none ∧ (turn V f cn).marks = none ∧
    (turn V f cn).picks = none ∧ (∀ g, (turn V f cn).file = some g → g = f) ∧
      ∀ dep l, Knows dep l (turn V f cn) := by
  rw [turn]
  split_ifs
  · exact ⟨rfl, rfl, rfl, fun g hg ↦ (Option.some.inj hg).symm, fun _ _ ↦ trivial⟩
  · exact ⟨rfl, rfl, rfl, fun g hg ↦ absurd hg.symm (Option.some_ne_none g), fun _ _ ↦ trivial⟩

theorem held_freeRest {entry : ℕ → ℕ} {l : List ℕ}
    (hchain : cn = 0 ∧ l = [] ∨ Chain entry Pcfseof cn l)
    (hhas : ∀ c ∈ l, V.Has c) : Held V entry (freeRest V f cn) l := by
  rw [freeRest]
  split_ifs with hrest
  · exact held_turn (hchain.resolve_left fun hzero ↦ hrest.1 hzero.1) hhas
  · rcases hchain with hzero | hchain
    · exact hzero.2
    · cases l with
      | nil => rfl
      | cons d l =>
        have hd := hhas d (List.mem_cons_self ..)
        rw [hchain.1] at hrest
        exact absurd ⟨hd.ne_free, hd.not_pcfseof⟩ hrest

theorem freeRest_none (f : F) (cn : ℕ) : (freeRest V f cn).frees = none ∧
    (freeRest V f cn).marks = none ∧
    (freeRest V f cn).picks = none ∧ (∀ g, (freeRest V f cn).file = some g → g = f) ∧
      ∀ dep l, Knows dep l (freeRest V f cn) := by
  rw [freeRest]
  split_ifs
  · exact turn_none f cn
  · exact ⟨rfl, rfl, rfl, fun g hg ↦ absurd hg.symm (Option.some_ne_none g), fun _ _ ↦ trivial⟩

omit [DecidableEq F] in
theorem not_allocating {pc : Pc F} (hpicks : pc.picks = none) : pc ≠ .allocating f new c :=
  fun hpc ↦ by
  rw [hpc] at hpicks
  cases hpicks

/-- What the search finds is free unless another process has found it. -/
theorem Inv.findCluster_eq_some (h : Inv V s own) (hfind : findCluster V s.fat = some cn)
    (hnew : ∀ q, (s.pc q).picks ≠ some cn) :
    V.Has cn ∧ s.fat.entry cn = pcfsfree ∧ Bitmap.get s.fat.inusemap cn = false := by
  obtain ⟨hclear, -, hlast, -⟩ := Bitmap.findClear_eq_some (by decide) hfind
  have hcn : V.Has cn := by
    by_contra hnot
    rw [h.marked.outside cn hnot hlast] at hclear
    cases hclear
  refine ⟨hcn, ?_, hclear⟩
  rcases (h.marked.bit cn hcn).mp hclear with hfree | ⟨q, hq⟩
  · exact hfree.1
  · exact absurd (Pc.picks_of_marks hq) (hnew q)

/-- A process moves on with its file, and the two share out their clusters anew. -/
theorem Inv.move (h : Inv V s own) {fat : Fat} {pc : Pc F} {l m : List ℕ}
    (halone : ∀ q, q ≠ p → (s.pc q).file ≠ some f)
    (hentry : ∀ c, c ∉ own (.inl f) → c ∉ own (.inr p) → s.fat.entry c ≠ pcfsfree →
      fat.entry c = s.fat.entry c)
    (hholds : Holds V fat.entry dep l) (hheld : Held V fat.entry pc m) (hhas : ∀ c ∈ m, V.Has c)
    (hnodup : m.Nodup)
    (hsub : ∀ c, c ∈ l ∨ c ∈ m → c ∈ own (.inl f) ∨ c ∈ own (.inr p) ∨ s.fat.entry c = pcfsfree)
    (hdisj : ∀ c ∈ l, c ∉ m)
    (hmarked : Marked V (⟨fat, update s.dep f dep, update s.pc p pc⟩ : Writers F P))
    (hfile : ∀ g, pc.file = some g → g = f) (hknows : Knows dep l pc) :
    Inv V (⟨fat, update s.dep f dep, update s.pc p pc⟩ : Writers F P)
      (update (update own (.inr p) m) (.inl f) l) := by
  obtain ⟨s', hs'⟩ : ∃ s', (⟨fat, update s.dep f dep, update s.pc p pc⟩ : Writers F P) = s' :=
    ⟨_, rfl⟩
  have hfat : s'.fat = fat := by rw [← hs']
  have hpc : s'.pc p = pc := by rw [← hs']; exact update_self ..
  have hdep : s'.dep f = dep := by rw [← hs']; exact update_self ..
  have hothers : ∀ q, q ≠ p → s'.pc q = s.pc q := fun q hq ↦ by rw [← hs']; exact update_of_ne hq ..
  have hdeps : ∀ g, g ≠ f → s'.dep g = s.dep g := fun g hg ↦ by rw [← hs']; exact update_of_ne hg ..
  obtain ⟨own', hown'⟩ : ∃ own', update (update own (.inr p) m) (.inl f) l = own' := ⟨_, rfl⟩
  have hownf : own' (.inl f) = l := by rw [← hown', update_self]
  have hownp : own' (.inr p) = m := by rw [← hown', update_of_ne Sum.inr_ne_inl, update_self]
  have hown : ∀ a, a ≠ .inl f → a ≠ .inr p → own' a = own a := fun a haf hap ↦ by
    rw [← hown', update_of_ne haf, update_of_ne hap]
  rw [hs'] at hmarked ⊢
  rw [hown']
  refine h.change p f hothers hdeps hown halone ?_ hmarked (by rw [hpc]; exact hfile) (by
    rw [hpc, hdep, hownf]
    exact hknows)
  refine h.owned.change p f hdeps hothers hown ?_ ?_ ?_ ?_ ?_ ?_ ?_
  · rw [hfat]
    exact hentry
  · rw [hfat, hdep, hownf]
    exact hholds
  · rw [hfat, hpc, hownp]
    exact hheld
  · rw [hownp]
    exact hhas
  · rw [hownp]
    exact hnodup
  · rw [hownf, hownp]
    exact hsub
  · rw [hownf, hownp]
    exact hdisj

/-- The bits when a process moves on that neither sets one nor uses or frees a cluster. -/
theorem Marked.move (h : Marked V s) {fat : Fat} {pc : Pc F} (hbits : fat.inusemap = s.fat.inusemap)
    (hcount : fat.freeclustercount = s.fat.freeclustercount)
    (hentry : ∀ c, fat.entry c = pcfsfree ↔ s.fat.entry c = pcfsfree)
    (hfrees : pc.frees = none ∧ (s.pc p).frees = none)
    (hmarks : pc.marks = none ∧ (s.pc p).marks = none)
    (hpicks : ∀ c, pc.picks = some c → V.Has c ∧ ∀ q, q ≠ p → (s.pc q).picks ≠ some c)
    (halloc : ∀ f new c, pc = .allocating f new c →
      s.fat.entry c = pcfsfree ∧ Bitmap.get s.fat.inusemap c = false) :
    Marked V (⟨fat, update s.dep f dep, update s.pc p pc⟩ : Writers F P) := by
  obtain ⟨s', hs'⟩ : ∃ s', (⟨fat, update s.dep f dep, update s.pc p pc⟩ : Writers F P) = s' :=
    ⟨_, rfl⟩
  have hfat : s'.fat = fat := by rw [← hs']
  have hpc : s'.pc p = pc := by rw [← hs']; exact update_self ..
  have hothers : ∀ q, q ≠ p → s'.pc q = s.pc q := fun q hq ↦ by rw [← hs']; exact update_of_ne hq ..
  rw [hs']
  refine h.same hothers (by rw [hfat, hbits]) (by rw [hfat, hcount]) (by rw [hfat]; exact hentry) ?_
    ?_ ?_ ?_
  · rw [hpc]
    exact hfrees
  · rw [hpc]
    exact hmarks
  · rw [hpc]
    exact hpicks
  · rw [hpc]
    exact halloc

/-- A process that was idle has its file as it was, or as `pcbmap` leaves it, and sleeps or is idle
again. -/
theorem Inv.put_idle (h : Inv V s own) {pc : Pc F} (hidle : s.pc p = .idle)
    (halone : ∀ q, (s.pc q).file ≠ some f) (hholds : Holds V s.fat.entry dep (own (.inl f)))
    (hheld : Held V s.fat.entry pc []) (hfrees : pc.frees = none) (hmarks : pc.marks = none)
    (hpicks : ∀ c, pc.picks = some c → V.Has c ∧ ∀ q, q ≠ p → (s.pc q).picks ≠ some c)
    (halloc : ∀ f new c, pc = .allocating f new c →
      s.fat.entry c = pcfsfree ∧ Bitmap.get s.fat.inusemap c = false)
    (hfile : ∀ g, pc.file = some g → g = f) (hknows : Knows dep (own (.inl f)) pc) :
    ∃ own', Inv V (s.put p f dep pc) own' := by
  have hmarked : Marked V (⟨s.fat, update s.dep f dep, update s.pc p pc⟩ : Writers F P) :=
    h.marked.move rfl rfl (fun _ ↦ Iff.rfl) (by rw [hidle]; exact ⟨hfrees, rfl⟩)
      (by rw [hidle]; exact ⟨hmarks, rfl⟩) hpicks halloc
  exact ⟨_, h.move (fun q _ ↦ halone q) (fun _ _ _ _ ↦ rfl) hholds hheld
    (fun c hc ↦ absurd hc List.not_mem_nil) List.nodup_nil (fun c hc ↦ hc.elim .inl fun hc ↦
      absurd hc List.not_mem_nil) (fun c _ ↦ List.not_mem_nil) hmarked hfile hknows⟩

theorem Inv.put_end (h : Inv V s own) (hidle : s.pc p = .idle)
    (halone : ∀ q, (s.pc q).file ≠ some f)
    (hholds : Holds V s.fat.entry dep (own (.inl f))) : ∃ own', Inv V (s.put p f dep .idle) own' :=
  h.put_idle hidle halone hholds rfl rfl rfl (fun c hc ↦ absurd hc.symm (Option.some_ne_none c))
    (fun _ _ _ hc ↦ absurd hc (not_allocating rfl)) (fun g hg ↦ absurd hg.symm
      (Option.some_ne_none g))
    trivial

/-- `clusteralloc` finds a cluster that nobody else has found. -/
theorem Inv.pick (h : Inv V s own) (hidle : s.pc p = .idle) (halone : ∀ q, (s.pc q).file ≠ some f)
    (hholds : Holds V s.fat.entry dep (own (.inl f))) (hroot : dep.root = false)
    (hknown : if new then dep.startCluster = 0 else dep.startCluster ≠ 0 →
    dep.lastfc.frcn ≠ fceEmpty)
    (hnew : ∀ cn, findCluster V s.fat = some cn → ∀ q, (s.pc q).picks ≠ some cn) :
    ∃ own', Inv V (s.pick V p f new dep) own' := by
  rw [Writers.pick]
  cases hfind : findCluster V s.fat with
  | none => exact h.put_end hidle halone hholds
  | some cn =>
    obtain ⟨hcn, hfree, hclear⟩ := h.findCluster_eq_some hfind (hnew cn hfind)
    dsimp only
    rw [if_pos hcn]
    refine h.put_idle hidle halone hholds rfl rfl rfl (fun c hc ↦ ?_) (fun g new' c hc ↦ ?_)
      (fun g hg ↦ (Option.some.inj hg).symm) ⟨hroot, hknown⟩
    · cases hc
      exact ⟨hcn, fun q _ ↦ hnew cn hfind q⟩
    · cases hc
      exact ⟨hfree, hclear⟩

/-- The condition: no other process has found the cluster that is found and not yet marked it, and
the last delayed write that truncation finds is before the new end. -/
def Careful (V : Volume) (s : Writers F P) : Event F P → Prop
  | .run _ => True
  | .begin _ (.extendfile f) => (s.dep f).root = false →
      ∀ cn, findCluster V s.fat = some cn → ∀ q, (s.pc q).picks ≠ some cn
  | .begin _ (.mkdir _) => ∀ cn, findCluster V s.fat = some cn → ∀ q, (s.pc q).picks ≠ some cn
  | .begin _ (.detrunc f length b) => length ≠ 0 → length < (s.dep f).fileSize →
      ∀ bn ∈ b.dirty.getLast?, bn < (length - 1) / V.bpcluster + 1

theorem Inv.begin_extendfile (h : Inv V s own) (hpossible : Possible V s (.begin p (.extendfile f)))
    (hcareful : Careful V s (.begin p (.extendfile f))) :
    ∃ own', Inv V (s.begin V p (.extendfile f)) own' := by
  obtain ⟨hidle, halone, -⟩ := hpossible
  have hfile := h.owned.file f
  rw [Writers.begin]
  by_cases hroot : (s.dep f).root = true
  · rw [if_pos hroot]
    exact ⟨own, h⟩
  have hroot' := Bool.eq_false_of_not_eq_true hroot
  rw [if_neg hroot]
  by_cases hlookup : (s.dep f).lastfc.frcn = fceEmpty ∧ (s.dep f).startCluster ≠ 0
  · have hbeyond : (own (.inl f)).length ≤ 0xffff := (length_lt_short hfile.has hfile.nodup).le
    obtain ⟨c, hlast, hmap⟩ := hfile.pcbmap_beyond hlookup.2 hbeyond
    rw [if_pos hlookup, hmap]
    refine h.pick hidle halone (hfile.setLastfc hlast) hroot' ?_ (hcareful hroot')
    rw [if_neg Bool.false_ne_true]
    exact fun _ ↦ Nat.ne_of_lt ((Nat.sub_le _ 1).trans_lt (length_lt_short hfile.has hfile.nodup))
  · rw [if_neg hlookup]
    refine h.pick hidle halone hfile hroot' ?_ (hcareful hroot')
    rw [if_neg Bool.false_ne_true]
    exact fun hstart hempty ↦ hlookup ⟨hempty, hstart⟩

/-- A file that is truncated to nothing gives its clusters to the process. -/
theorem Inv.begin_detrunc_all (h : Inv V s own) (hidle : s.pc p = .idle)
    (halone : ∀ q, (s.pc q).file ≠ some f) (hroot : (s.dep f).root ≠ true) :
    ∃ own', Inv V (s.put p f (fcPurge { s.dep f with startCluster := 0, fileSize := 0 } 0)
        (freeRest V f (s.dep f).startCluster)) own' := by
  have hfile := h.owned.file f
  obtain ⟨hfrees, hmarks, hpicks, hsame, hknows⟩ := freeRest_none (V := V) f (s.dep f).startCluster
  refine ⟨_, h.move (l := []) (m := own (.inl f)) (fun q _ ↦ halone q) (fun _ _ _ _ ↦ rfl) ?_ ?_
    hfile.has
    hfile.nodup (fun c hc ↦ hc.elim (fun hc ↦ absurd hc List.not_mem_nil) .inl)
    (fun c hc ↦ absurd hc List.not_mem_nil) ?_ hsame (hknows _ _)⟩
  · exact Holds.purge_all rfl hroot
  · exact held_freeRest (hfile.chain.imp_right fun hchain ↦ hchain.2.2) hfile.has
  · refine h.marked.move rfl rfl (fun _ ↦ Iff.rfl) ?_ ?_ (fun c hc ↦ ?_) (fun _ _ _ hc ↦
      absurd hc (not_allocating hpicks))
    · rw [hidle]
      exact ⟨hfrees, rfl⟩
    · rw [hidle]
      exact ⟨hmarks, rfl⟩
    · rw [hpicks] at hc
      cases hc

theorem Inv.begin_detrunc {length : ℕ} {b : Buffers} (h : Inv V s own)
    (hpossible : Possible V s (.begin p (.detrunc f length b)))
    (hcareful : Careful V s (.begin p (.detrunc f length b))) :
    ∃ own', Inv V (s.begin V p (.detrunc f length b)) own' := by
  obtain ⟨hidle, halone, hdirty⟩ := hpossible
  have hfile := h.owned.file f
  have hblocks : ∀ bn ∈ b.dirty, bn < (own (.inl f)).length := by
    intro bn hbn
    obtain ⟨l, hl, hlt⟩ := hdirty bn hbn
    rw [hl.chain.unique hfile.chain hl.has hfile.has] at hlt
    exact hlt
  rw [Writers.begin]
  by_cases hroot : (s.dep f).root = true
  · rw [if_pos hroot]
    exact ⟨own, h⟩
  rw [if_neg hroot]
  by_cases hsize : (s.dep f).fileSize ≤ length
  · rw [if_pos hsize]
    exact ⟨own, h⟩
  rw [if_neg hsize]
  by_cases hlength : length = 0
  · rw [if_pos hlength]
    exact h.begin_detrunc_all hidle halone hroot
  rw [if_neg hlength]
  have hlast := hcareful hlength (Nat.lt_of_not_le hsize)
  by_cases hstart : (s.dep f).startCluster = pcfsroot
  · -- A file without clusters, or a removed directory, which `pcbmap` takes for the root directory.
    rw [pcbmap, if_pos hstart]
    split_ifs
    · exact h.put_end hidle halone hfile
    · have hnot : ¬V.Has pcfsroot := fun hhas ↦ absurd hhas.1 (by decide)
      dsimp only
      rw [if_neg hnot]
      exact h.put_end hidle halone (hfile.trimmed length b).1
    · exact h.put_end hidle halone hfile
  rcases Nat.lt_or_ge ((length - 1) / V.bpcluster) (own (.inl f)).length with hlt | hge
  · obtain ⟨c, hc⟩ : ∃ c, (own (.inl f))[(length - 1) / V.bpcluster]? = some c :=
      ⟨_, List.getElem?_eq_getElem hlt⟩
    have hmapped := hfile.setLastmap hc
    rw [hfile.pcbmap_mapped hc]
    dsimp only
    rw [if_pos (hfile.has c (List.mem_of_getElem? hc))]
    exact h.put_idle hidle halone (hmapped.trimmed length b).1 rfl rfl rfl
      (fun d hd ↦ absurd hd.symm (Option.some_ne_none d))
        (fun _ _ _ hd ↦ absurd hd (not_allocating rfl))
      (fun g hg ↦ (Option.some.inj hg).symm) ⟨hc, hmapped.trimmed_before hlength hlt hblocks hlast⟩
  · obtain ⟨c, hlast', hmap⟩ := hfile.pcbmap_beyond hstart hge
    rw [hmap]
    exact h.put_end hidle halone (hfile.setLastfc hlast')

end Bsd386.Dosfs.Writers
