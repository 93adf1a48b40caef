import Bsd386.Dosfs.Files

/-!
# Accounting of clusters

Runs of the functions that change the clusters of a volume, one process at a time. The bitmap, the
count, the hint, the chains and the caches agree in every run in which no truncation finds a delayed
write of a block behind the new end last, and `pcbmap` is right where it is not asked for the block
behind the root directory or for a block of a removed directory.
-/

namespace Bsd386.Dosfs

open Function

variable {F : Type*} [DecidableEq F] {V : Volume}

/-- A mounted volume with its files, in core or not. -/
structure Dos (F : Type*) where
  fat : Fat
  dep : F → Denode

/-- Calls. `clusteralloc` and `clusterfree` are those of `pcfs_mkdir` for a directory that is new.
-/
inductive Event (F : Type*)
  | fillinusemap
  | pcbmap (f : F) (findcn : ℕ)
  | extendfile (f : F)
  | detrunc (f : F) (length : ℕ) (b : Buffers)
  | clusteralloc (f : F)
  | clusterfree (f : F)
  | freeclusterchain (f : F)

/-- A file as somebody else's function leaves it. -/
def Dos.put (s : Dos F) (f : F) (dep : Denode) (fat : Fat) : Dos F := ⟨fat, update s.dep f dep⟩

/-- A denode whose clusters are given up. -/
def Denode.emptied (dep : Denode) : Denode := fcPurge { dep with startCluster := 0 } 0

/-- The state behind a call. -/
def Dos.step (V : Volume) (s : Dos F) : Event F → Dos F
  | .fillinusemap => { s with fat := fillinusemap V s.fat }
  | .pcbmap f findcn => s.put f (pcbmap V s.fat.entry (s.dep f) findcn).2 s.fat
  | .extendfile f => s.put f (extendfile V (s.dep f) s.fat).2.1 (extendfile V (s.dep f) s.fat).2.2
  | .detrunc f length b =>
    s.put f (detrunc V length b (s.dep f) s.fat).2.1 (detrunc V length b (s.dep f) s.fat).2.2
  | .clusteralloc f =>
    match clusteralloc V clustEofe s.fat with
    | .error _ => s
    | .ok (cn, fat) => s.put f { s.dep f with startCluster := cn } fat
  | .clusterfree f =>
    match clusterfree V (s.dep f).startCluster s.fat with
    | .error _ => s
    | .ok (_, fat) => s.put f (s.dep f).emptied fat
  | .freeclusterchain f =>
    s.put f (s.dep f).emptied
      (freeclusterchain V (V.maxcluster + 1) (s.dep f).startCluster s.fat).2

/-- The clusters of a file. -/
structure ChainOf (V : Volume) (entry : ℕ → ℕ) (dep : Denode) (l : List ℕ) : Prop where
  chain : FileChain entry dep.startCluster l
  has : ∀ c ∈ l, V.Has c

/-- What callers make sure of. Only blocks of a file have buffers, and a directory that is new has
no clusters, or one that is given back. -/
def Possible (V : Volume) (s : Dos F) : Event F → Prop
  | .fillinusemap | .pcbmap _ _ | .extendfile _ => True
  | .detrunc f _ b => ∀ bn ∈ b.dirty, ∃ l, ChainOf V s.fat.entry (s.dep f) l ∧ bn < l.length
  | .clusteralloc f => (s.dep f).startCluster = 0 ∧ (s.dep f).root = false
  | .clusterfree f => (s.dep f).startCluster ≠ 0 ∧ Pcfseof (s.fat.entry (s.dep f).startCluster)
  | .freeclusterchain f => (s.dep f).startCluster ≠ 0

/-- The condition: `pcbmap` is neither asked for the block right behind the root directory nor for a
block of another directory without clusters, and the last delayed write that truncation finds is
before the new end. -/
def Careful (V : Volume) (s : Dos F) : Event F → Prop
  | .pcbmap f findcn => (s.dep f).startCluster = 0 → (s.dep f).directory = true →
      (s.dep f).root = true ∧ findcn * V.sectPerClust ≠ V.rootdirsize
  | .detrunc f length b => length ≠ 0 → length < (s.dep f).fileSize →
      ∀ bn ∈ b.dirty.getLast?, bn < (length - 1) / V.bpcluster + 1
  | _ => True

/-- What a call is to return. -/
def Correct (V : Volume) (s : Dos F) : Event F → Prop
  | .pcbmap f findcn =>
    let r := (pcbmap V s.fat.entry (s.dep f) findcn).1
    if (s.dep f).root then
      if findcn * V.sectPerClust < V.rootdirsize then
        r = ⟨none, some (V.rootdirblk + findcn * V.sectPerClust), some pcfsroot⟩
      else r = ⟨some .E2BIG, none, some (V.rootdirsize / V.sectPerClust)⟩
    else ∀ l, ChainOf V s.fat.entry (s.dep f) l →
      (∀ c, l[findcn]? = some c → r = ⟨none, some (V.cntobn c), some c⟩) ∧
        (l.length ≤ findcn → r = ⟨some .E2BIG, none, some l.length⟩)
  | .clusteralloc _ =>
    match clusteralloc V clustEofe s.fat with
    | .error e => e = .ENOSPC ∧ free V s.fat = ∅
    | .ok (cn, _) => cn ∈ free V s.fat
  | .extendfile f =>
    match (extendfile V (s.dep f) s.fat).1 with
    | .error e => e = .ENOSPC ∧ ((s.dep f).root = true ∨ free V s.fat = ∅)
    | .ok none => False
    | .ok (some (_, cn)) => cn ∈ free V s.fat
  | _ => True

/-- The accounts agree with the table, the files have chains of their own, and the caches are right.
-/
structure Sound (V : Volume) (s : Dos F) (chain : F → List ℕ) : Prop where
  accounts : Accounts V s.fat
  holds : ∀ f, Holds V s.fat.entry (s.dep f) (chain f)
  disjoint : ∀ f g, f ≠ g → ∀ c ∈ chain f, c ∉ chain g

/-- The states of a volume from the mount on, with the calls that are allowed. -/
inductive Reach (V : Volume) (allowed : Dos F → Event F → Prop) : Dos F → Prop
  | mount {s : Dos F} {chain : F → List ℕ} (holds : ∀ f, Holds V s.fat.entry (s.dep f) (chain f))
      (disjoint : ∀ f g, f ≠ g → ∀ c ∈ chain f, c ∉ chain g) :
      Reach V allowed { s with fat := fillinusemap V s.fat }
  | step {s : Dos F} (h : Reach V allowed s) (e : Event F) (possible : Possible V s e)
      (ok : allowed s e) : Reach V allowed (s.step V e)

variable {s : Dos F} {chain : F → List ℕ} {f : F} {e : Event F}

/-! ### Steps -/

/-- A function that changes one file keeps the volume sound. -/
theorem Sound.put (h : Sound V s chain) {dep : Denode} {fat : Fat} {l : List ℕ}
    (hch : Changes V s.fat fat (s.dep f) dep (chain f) l) :
    Sound V (s.put f dep fat) (update chain f l) := by
  have hothers : ∀ g, g ≠ f → ∀ c ∈ chain g, c ∉ chain f ∧ c ∉ l := by
    intro g hg c hc
    have hnot := h.disjoint g f hg c hc
    refine ⟨hnot, fun hl ↦ ?_⟩
    rcases hch.mem c hl with hmem | hfree
    · exact hnot hmem
    · exact (h.holds g).ne_free hc (mem_free.mp hfree).2
  refine ⟨hch.accounts, fun g ↦ ?_, fun g k hgk c hc ↦ ?_⟩
  · change Holds V fat.entry (update s.dep f dep g) (update chain f l g)
    by_cases hg : g = f
    · rw [hg, update_self, update_self]
      exact hch.holds
    · rw [update_of_ne hg, update_of_ne hg]
      exact (h.holds g).congr fun c hc ↦ hch.frame c (hothers g hg c hc).1 (hothers g hg c hc).2
  · by_cases hg : g = f
    · have hk : k ≠ f := fun hk ↦ hgk (hg.trans hk.symm)
      rw [hg, update_self] at hc
      rw [update_of_ne hk]
      exact fun hck ↦ (hothers k hk c hck).2 hc
    · rw [update_of_ne hg] at hc
      by_cases hk : k = f
      · rw [hk, update_self]
        exact (hothers g hg c hc).2
      · rw [update_of_ne hk]
        exact h.disjoint g k hgk c hc

omit [DecidableEq F] in
/-- The chain of a file is unique. -/
theorem Sound.chain_eq (h : Sound V s chain) {l : List ℕ} (hl : ChainOf V s.fat.entry (s.dep f) l) :
    l = chain f :=
  hl.chain.unique (h.holds f).chain hl.has (h.holds f).has

/-- The clusters of a file are given up. -/
theorem Holds.empty {entry : ℕ → ℕ} {dep : Denode} {l : List ℕ} (h : Holds V entry dep l)
    (hstart : dep.startCluster ≠ 0) : Holds V entry dep.emptied [] :=
  Holds.purge_all rfl fun hroot ↦ hstart (h.root hroot).1

theorem Sound.step_clusteralloc (h : Sound V s chain) (hpossible : Possible V s (.clusteralloc f)) :
    ∃ chain', Sound V (s.step V (.clusteralloc f)) chain' := by
  rw [Dos.step]
  rcases clusteralloc_spec h.accounts (by decide : clustEofe ≠ pcfsfree) with ⟨halloc, -⟩ | hsome
  · rw [halloc]
    exact ⟨chain, h⟩
  obtain ⟨cn, fat, halloc, hcn, -, hentry, haccounts⟩ := hsome
  rw [halloc]
  have hnil : chain f = [] := by
    have hchain := (h.holds f).chain
    rw [hpossible.1] at hchain
    exact hchain.eq_nil
  have hholds := h.holds f
  rw [hnil] at hholds
  refine ⟨update chain f [cn], h.put ⟨haccounts, ?_, fun c _ hc ↦ ?_, fun c hc ↦ ?_, rfl, rfl⟩⟩
  · refine hholds.first hpossible.2 (mem_free.mp hcn).1 ?_ fun hempty ↦
      absurd hholds.lastfc_empty hempty
    rw [hentry, update_self]
    exact pcfseof_clustEofe
  · rw [hentry, update_of_ne fun hcc ↦ hc (List.mem_singleton.mpr hcc)]
  · rw [List.mem_singleton.mp hc]
    exact .inr hcn

theorem Sound.step_clusterfree (h : Sound V s chain) (hpossible : Possible V s (.clusterfree f)) :
    ∃ chain', Sound V (s.step V (.clusterfree f)) chain' := by
  obtain ⟨hne, hchain⟩ := (h.holds f).chain.chain hpossible.1
  have hone : chain f = [(s.dep f).startCluster] := by
    cases hl : chain f with
    | nil => exact absurd hl hne
    | cons c l =>
      rw [hl] at hchain
      obtain ⟨hc, hrest⟩ := hchain
      cases l with
      | nil => rw [hc]
      | cons d l =>
        have hend := hpossible.2
        rw [hc, hrest.1] at hend
        refine absurd hend ((h.holds f).has d ?_).not_pcfseof
        rw [hl]
        exact List.mem_cons_of_mem c (List.mem_cons_self ..)
  have hmem : (s.dep f).startCluster ∈ chain f := by
    rw [hone]
    exact List.mem_singleton_self _
  obtain ⟨fat, hfree, hentry, haccounts⟩ :=
    clusterfree_spec h.accounts ((h.holds f).has _ hmem) ((h.holds f).ne_free hmem)
  rw [Dos.step, hfree]
  refine ⟨update chain f [], h.put ⟨haccounts, ?_, fun c hc _ ↦ ?_,
    fun c hc ↦ absurd hc List.not_mem_nil,
    rfl, rfl⟩⟩
  · exact ((h.holds f).empty hpossible.1).congr fun c hc ↦ absurd hc List.not_mem_nil
  · rw [hentry, update_of_ne fun hcc : c = _ ↦ hc (hcc ▸ hmem)]

theorem Sound.step_freeclusterchain (h : Sound V s chain)
    (hpossible : Possible V s (.freeclusterchain f)) :
    ∃ chain', Sound V (s.step V (.freeclusterchain f)) chain' := by
  have hholds := h.holds f
  obtain ⟨-, hchain⟩ := hholds.chain.chain hpossible
  have hlen : (chain f).length < V.maxcluster + 1 := by
    have hsub : (chain f).toFinset ⊆ Finset.Icc clustFirst V.maxcluster := fun c hc ↦
      Finset.mem_Icc.mpr (hholds.has c (List.mem_toFinset.mp hc))
    have hcard := Finset.card_le_card hsub
    rw [List.toFinset_card_of_nodup hholds.nodup, Nat.card_Icc] at hcard
    have hfirst : clustFirst = 2 := rfl
    omega
  obtain ⟨fat, hrun, hentry, haccounts⟩ :=
    freeclusterchain_spec h.accounts hchain hholds.has hholds.nodup hlen
  rw [Dos.step, hrun]
  refine ⟨update chain f [], h.put ⟨haccounts, ?_, fun c hc _ ↦ ?_,
    fun c hc ↦ absurd hc List.not_mem_nil,
    rfl, rfl⟩⟩
  · exact (hholds.empty hpossible).congr fun c hc ↦ absurd hc List.not_mem_nil
  · rw [hentry, if_neg hc]

/-- Every call that meets the condition keeps the volume sound. -/
theorem Sound.step (h : Sound V s chain) (hpossible : Possible V s e) (hcareful : Careful V s e) :
    ∃ chain', Sound V (s.step V e) chain' := by
  cases e with
  | fillinusemap =>
    obtain ⟨hentry, haccounts⟩ := fillinusemap_spec V s.fat
    refine ⟨chain, haccounts, fun f ↦ ?_, h.disjoint⟩
    exact (h.holds f).congr fun c _ ↦ congrFun hentry c
  | pcbmap f findcn =>
    obtain ⟨hholds, hsame⟩ := (h.holds f).pcbmap findcn
    exact ⟨_, h.put (.of_sameFile h.accounts hholds hsame)⟩
  | extendfile f =>
    rw [Dos.step]
    by_cases hroot : (s.dep f).root = true
    · rw [extendfile, if_pos hroot]
      exact ⟨_, h.put (.of_sameFile h.accounts (h.holds f) (SameFile.refl _))⟩
    rcases extendfile_spec h.accounts (h.holds f) (Bool.eq_false_of_not_eq_true hroot)
      with hnone | hsome
    · obtain ⟨dep, hrun, -, hch⟩ := hnone
      rw [hrun]
      exact ⟨_, h.put hch⟩
    · obtain ⟨cn, dep, fat, hrun, -, -, hch⟩ := hsome
      rw [hrun]
      exact ⟨_, h.put hch⟩
  | detrunc f length b =>
    have hblocks : ∀ bn ∈ b.dirty, bn < (chain f).length := by
      intro bn hbn
      obtain ⟨l, hl, hlt⟩ := hpossible bn hbn
      rw [h.chain_eq hl] at hlt
      exact hlt
    obtain ⟨k, hch, -⟩ := detrunc_spec h.accounts (h.holds f) hblocks hcareful
    exact ⟨_, h.put hch⟩
  | clusteralloc f => exact h.step_clusteralloc hpossible
  | clusterfree f => exact h.step_clusterfree hpossible
  | freeclusterchain f => exact h.step_freeclusterchain hpossible

omit [DecidableEq F] in
/-- A sound volume answers every call that meets the condition as it is to. -/
theorem Sound.correct (h : Sound V s chain) (hcareful : Careful V s e) : Correct V s e := by
  cases e with
  | pcbmap f findcn =>
    rw [Correct]
    split_ifs with hroot hlt
    · obtain ⟨hstart, hdir⟩ := (h.holds f).root hroot
      have hstart' : (s.dep f).startCluster = pcfsroot := hstart
      rw [pcbmap, if_pos hstart', if_pos hdir, if_neg (Nat.not_lt.mpr hlt.le)]
    · obtain ⟨hstart, hdir⟩ := (h.holds f).root hroot
      have hstart' : (s.dep f).startCluster = pcfsroot := hstart
      have hne := (hcareful hstart hdir).2
      rw [pcbmap, if_pos hstart', if_pos hdir, if_pos (by omega)]
    · intro l hl
      rw [h.chain_eq hl]
      refine ⟨fun c hc ↦ by rw [(h.holds f).pcbmap_mapped hc], fun hle ↦ ?_⟩
      by_cases hstart : (s.dep f).startCluster = pcfsroot
      · have hchain := (h.holds f).chain
        rw [hstart] at hchain
        have hdir : ¬(s.dep f).directory = true := fun hdir ↦ hroot (hcareful hstart hdir).1
        rw [pcbmap, if_pos hstart, if_neg hdir, FileChain.eq_nil hchain]
        rfl
      · obtain ⟨c, -, hmap⟩ := (h.holds f).pcbmap_beyond hstart hle
        rw [hmap]
  | clusteralloc f =>
    rw [Correct]
    rcases clusteralloc_spec h.accounts (by decide : clustEofe ≠ pcfsfree)
      with ⟨halloc, hnone⟩ | hsome
    · rw [halloc]
      exact ⟨rfl, hnone⟩
    · obtain ⟨cn, fat, halloc, hcn, -⟩ := hsome
      rw [halloc]
      exact hcn
  | extendfile f =>
    rw [Correct]
    by_cases hroot : (s.dep f).root = true
    · rw [extendfile, if_pos hroot]
      exact ⟨rfl, .inl hroot⟩
    rcases extendfile_spec h.accounts (h.holds f) (Bool.eq_false_of_not_eq_true hroot)
      with hnone | hsome
    · obtain ⟨dep, hrun, hnone, -⟩ := hnone
      rw [hrun]
      exact ⟨rfl, .inr hnone⟩
    · obtain ⟨cn, dep, fat, hrun, hcn, -⟩ := hsome
      rw [hrun]
      exact hcn
  | fillinusemap => exact trivial
  | detrunc f length b => exact trivial
  | clusterfree f => exact trivial
  | freeclusterchain f => exact trivial

/-! ### Runs -/

theorem Reach.sound (h : Reach V (Careful V) s) : ∃ chain, Sound V s chain := by
  induction h with
  | @mount s chain hholds hdisjoint =>
    obtain ⟨hentry, haccounts⟩ := fillinusemap_spec V s.fat
    exact ⟨chain, haccounts, fun f ↦ (hholds f).congr fun c _ ↦ congrFun hentry c, hdisjoint⟩
  | step _ e hpossible hcareful ih =>
    obtain ⟨chain, hsound⟩ := ih
    exact hsound.step hpossible hcareful

/-- A volume with four clusters and a root directory of two blocks. -/
def smallVolume : Volume where
  maxcluster := 5
  sectPerClust := 1
  bpcluster := 512
  rootdirblk := 3
  rootdirsize := 2
  firstcluster := 5
  maxcluster_lt := by decide
  sectPerClust_pos := by decide
  bpcluster_pos := by decide

/-- Its table, in which a file has the clusters 2, 3 and 4. -/
def smallEntry (cn : ℕ) : ℕ :=
  if cn = 2 then 3 else if cn = 3 then 4 else if cn = 4 then clustEofe else 0

/-- The root directory and the file, of which nothing is known. -/
def smallDep : Bool → Denode
  | true => ⟨0, true, true, 1024, ⟨fceEmpty, 0⟩, ⟨fceEmpty, 0⟩⟩
  | false => ⟨2, false, false, 1500, ⟨fceEmpty, 0⟩, ⟨fceEmpty, 0⟩⟩

/-- The volume before it is mounted. -/
def small : Dos Bool := ⟨⟨smallEntry, fun _ ↦ 0, 0, 0⟩, smallDep⟩

/-- The clusters of the two. -/
def smallChain : Bool → List ℕ
  | true => []
  | false => [2, 3, 4]

theorem small_holds (f : Bool) : Holds smallVolume smallEntry (smallDep f) (smallChain f) := by
  have hempty : Fatcache.On ⟨fceEmpty, 0⟩ (smallChain f) := fun h ↦ absurd rfl h
  cases f with
  | true =>
    exact ⟨.inl ⟨rfl, rfl⟩, fun c hc ↦ absurd hc List.not_mem_nil, List.nodup_nil, hempty, hempty,
      fun h ↦ absurd rfl h, fun _ ↦ ⟨rfl, rfl⟩⟩
  | false =>
    exact ⟨.inr ⟨by decide, by decide, rfl, rfl, rfl, pcfseof_clustEofe⟩, by decide, by decide,
      hempty,
      hempty, fun h ↦ absurd rfl h, fun h ↦ absurd h (by decide)⟩

theorem small_disjoint (f g : Bool) (hfg : f ≠ g) : ∀ c ∈ smallChain f, c ∉ smallChain g := by
  revert f g
  decide

/-- The volume when it has been mounted. -/
def mounted : Dos Bool := { small with fat := fillinusemap smallVolume small.fat }

theorem mounted_reach (allowed : Dos Bool → Event Bool → Prop) :
    Reach smallVolume allowed mounted :=
  .mount small_holds small_disjoint

/-- The file is truncated to a byte while its third block has a delayed write without a place on the
disk. -/
def truncated : Dos Bool := mounted.step smallVolume (.detrunc false 1 ⟨true, [2]⟩)

end Bsd386.Dosfs
