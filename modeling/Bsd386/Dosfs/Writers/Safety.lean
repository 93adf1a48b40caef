import Bsd386.Dosfs.Writers.Run

/-!
# No cluster is given out twice

The files keep clusters of their own in every run in which each process that looks for a cluster
finds one that no other process is about to mark.
-/

namespace Bsd386.Dosfs

/-- A cluster that is met from another one on. -/
inductive Follows (V : Volume) (entry : ℕ → ℕ) : ℕ → ℕ → Prop
  | here {a : ℕ} (h : V.Has a) : Follows V entry a a
  | next {a c : ℕ} (h : V.Has a) (hnext : Follows V entry (entry a) c) : Follows V entry a c

theorem Follows.has {V : Volume} {entry : ℕ → ℕ} {a c : ℕ} (h : Follows V entry a c) : V.Has a := by
  cases h <;> assumption

/-- The clusters that are met are those of the chain. -/
theorem Follows.mem {V : Volume} {entry : ℕ → ℕ} {a c : ℕ} {l : List ℕ} (h : Follows V entry a c)
    (hchain : Chain entry Pcfseof a l) : c ∈ l := by
  induction h generalizing l with
  | here ha =>
    cases l with
    | nil => exact absurd hchain ha.not_pcfseof
    | cons b l =>
      rw [hchain.1]
      exact List.mem_cons_self ..
  | next ha _ ih =>
    cases l with
    | nil => exact absurd hchain ha.not_pcfseof
    | cons b l =>
      obtain ⟨rfl, hrest⟩ := hchain
      exact List.mem_cons_of_mem _ (ih hrest)

theorem FileChain.mem_of_follows {V : Volume} {entry : ℕ → ℕ} {a c : ℕ} {l : List ℕ}
    (h : FileChain entry a l) (hc : Follows V entry a c) : c ∈ l := by
  rcases h with h | h
  · rw [h.1] at hc
    exact absurd hc.has fun hzero ↦ absurd hzero.1 (by decide)
  · exact hc.mem h.2.2

namespace Writers

variable {F P : Type*} {V : Volume} {s : Writers F P} {own : F ⊕ P → List ℕ}

/-- What is to hold in every state. A process that marks its cluster returns it from `clusteralloc`
next. -/
structure Safe (V : Volume) (s : Writers F P) : Prop where
  chosen : ∀ p f new cn, s.pc p = .allocating f new cn →
    s.fat.entry cn = pcfsfree ∧ Bitmap.get s.fat.inusemap cn = false
  returned : ∀ p f new cn, s.pc p = .marking f new cn →
    (∀ g, ¬Follows V s.fat.entry (s.dep g).startCluster cn) ∧ Bitmap.get s.fat.inusemap cn = false ∧
      ∀ q, (s.pc q).picks = some cn → q = p
  chains : ∀ f g c, Follows V s.fat.entry (s.dep f).startCluster c →
    Follows V s.fat.entry (s.dep g).startCluster c → f = g
  count : s.fat.freeclustercount = (clearBits V s.fat).card

theorem Inv.safe (h : Inv V s own) : Safe V s := by
  refine ⟨fun p f new cn hpc ↦ h.marked.alloc p f new cn hpc, fun p f new cn hpc ↦ ?_,
    fun f g c hf hg ↦ ?_, h.marked.count⟩
  · have hmarks : (s.pc p).marks = some cn := by rw [hpc]; rfl
    obtain ⟨hcn, hunique⟩ := h.marked.picks p cn (Pc.picks_of_marks hmarks)
    refine ⟨fun g hg ↦ ?_, (h.marked.bit cn hcn).mpr (.inr ⟨p, hmarks⟩), hunique⟩
    exact h.owned.apart _ _ Sum.inl_ne_inr cn ((h.owned.file g).chain.mem_of_follows hg)
      (h.owned.mem_of_marks hmarks)
  · by_contra hfg
    exact h.owned.apart (.inl f) (.inl g) (fun heq ↦ hfg (Sum.inl.inj heq)) c
      ((h.owned.file f).chain.mem_of_follows hf) ((h.owned.file g).chain.mem_of_follows hg)

/-- A sound volume on which nobody is at work. -/
theorem Inv.start {fat : Fat} {dep : F → Denode} {chain : F → List ℕ}
    (h : Sound V ⟨fat, dep⟩ chain) :
    Inv V (⟨fat, dep, fun _ ↦ .idle⟩ : Writers F P) (Sum.elim chain fun _ ↦ []) := by
  have hnone : ∀ c, (none : Option ℕ) ≠ some c := fun c ↦ (Option.some_ne_none c).symm
  have hfree : clearBits V fat = free V fat := by
    ext c
    rw [mem_clearBits, mem_free]
    exact and_congr_right fun hc ↦ h.accounts.bit c hc
  refine ⟨⟨h.holds, fun _ ↦ rfl, fun _ c hc ↦ absurd hc List.not_mem_nil,
    fun _ ↦ List.nodup_nil, ?_⟩,
    ⟨h.accounts.outside, fun c hc ↦ ?_, ?_, fun _ c hc ↦ absurd hc (hnone c),
      fun _ c hc ↦ absurd hc (hnone c), fun _ _ _ _ hpc ↦ absurd hpc (not_allocating rfl)⟩,
    fun _ _ hf ↦ absurd hf.symm (Option.some_ne_none _), fun _ _ _ hf ↦
    absurd hf.symm (Option.some_ne_none _)⟩
  · rintro (f | p) (g | q) hne c hc
    · exact h.disjoint f g (fun heq ↦ hne (congrArg Sum.inl heq)) c hc
    · exact List.not_mem_nil
    · exact absurd hc List.not_mem_nil
    · exact List.not_mem_nil
  · refine (h.accounts.bit c hc).trans ⟨fun hzero ↦ .inl ⟨hzero, fun _ ↦ hnone c⟩, ?_⟩
    rintro (hzero | ⟨_, hmarks⟩)
    · exact hzero.1
    · exact absurd hmarks (hnone c)
  · rw [hfree]
    exact h.accounts.count

variable [DecidableEq F] [DecidableEq P]

theorem Reach.inv (h : Reach V (Careful V) s) : ∃ own, Inv V s own := by
  induction h with
  | start hsound => exact ⟨_, Inv.start hsound⟩
  | step _ e hpossible hcareful ih =>
    obtain ⟨own, hinv⟩ := ih
    exact hinv.step hpossible hcareful

/-- Two empty files of the small volume. -/
def twoDep : Bool → Denode := fun _ ↦ ⟨0, false, false, 0, ⟨fceEmpty, 0⟩, ⟨fceEmpty, 0⟩⟩

/-- A volume with two empty files on which two processes can work. -/
def two : Writers Bool Bool :=
  ⟨fillinusemap smallVolume ⟨fun _ ↦ 0, fun _ ↦ 0, 0, 0⟩, twoDep, fun _ ↦ .idle⟩

theorem two_reach (allowed : Writers Bool Bool → Event Bool Bool → Prop) :
    Reach smallVolume allowed two := by
  obtain ⟨hentry, haccounts⟩ := fillinusemap_spec smallVolume ⟨fun _ ↦ 0, fun _ ↦ 0, 0, 0⟩
  have hsound : Sound smallVolume
      ⟨fillinusemap smallVolume ⟨fun _ ↦ 0, fun _ ↦ 0, 0, 0⟩, twoDep⟩ fun _ ↦ [] := by
    refine ⟨haccounts, fun f ↦ ?_, fun _ _ _ _ hc ↦ absurd hc List.not_mem_nil⟩
    exact ⟨.inl ⟨rfl, rfl⟩, fun _ hc ↦ absurd hc List.not_mem_nil, List.nodup_nil,
      fun hempty ↦ absurd rfl hempty, fun hempty ↦ absurd rfl hempty, fun hempty ↦
      absurd rfl hempty,
      fun hroot ↦ absurd hroot Bool.false_ne_true⟩
  exact .start hsound

/-- The processes extend their files one after the other. -/
def orderly : Writers Bool Bool :=
  ((((two.begin smallVolume false (.extendfile false)).run smallVolume false).run smallVolume
    false).begin
    smallVolume true (.extendfile true))

/-- Both processes find the cluster 2 before either has marked it. -/
def crossed : Writers Bool Bool :=
  ((((((two.begin smallVolume false (.extendfile false)).begin smallVolume true
    (.extendfile true)).run
    smallVolume false).run smallVolume false).run smallVolume true).run smallVolume true)

end Writers

end Bsd386.Dosfs
