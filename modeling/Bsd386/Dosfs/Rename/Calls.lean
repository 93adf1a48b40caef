import Bsd386.Dosfs.Rename.Exact

/-!
# Renaming moves one name

The calls of `pcfs_rename` that move exactly one name are those for files, unless the file is
renamed to itself.
-/

namespace Bsd386.Dosfs.Rename

open Slots Names

variable {V : Volume} {s s' : State} {D : Type*} {dir : D → Denode} {chain : D → List ℕ} {fd td : D}
  {p : Pos} {fdep fdep' : Node} {fndp tndp : Nameidata}

theorem three_lt_clustRsrvs : 3 < clustRsrvs := by decide

/-- A volume of two clusters with two entries each, and a root directory of two blocks. -/
def twoClusters : Volume where
  maxcluster := 3
  sectPerClust := 1
  bpcluster := 64
  rootdirblk := 1
  rootdirsize := 2
  firstcluster := 3
  maxcluster_lt := three_lt_clustRsrvs
  sectPerClust_pos := Nat.one_pos
  bpcluster_pos := Nat.succ_pos 63

/-- An entry by its name, attributes and first cluster. -/
def entryOf (name : List Byte) (attributes : Byte) (start : ℕ) : Direntry :=
  { Direntry.blank with deName := name, deAttributes := attributes, deStartCluster := start }

/-- Its table before it is mounted: the cluster 2 is the last one of its chain. -/
def twoTable : Fat := ⟨fun cn ↦ if cn = 2 then clustEofe else pcfsfree, fun _ ↦ 0, 0, 0⟩

/-- The root directory has a file `F` and a directory `D`, which is empty and has the cluster 2. -/
def twoNames : State where
  fat := fillinusemap twoClusters twoTable
  disk := fun bn i ↦
    if bn = 1 then
      if i = 0 then entryOf (padded 11 [0x46]) 0x20 0 else entryOf (padded 11 [0x44]) 0x10 2
    else if bn = 3 then if i = 0 then entryOf dotName 0x10 2 else entryOf dotdotName 0x10 0
    else Direntry.blank

/-- The root directory and `D`. -/
def twoDirs (d : Bool) : Denode := directoryAt (if d then 2 else pcfsroot)

/-- Their clusters. -/
def twoChains (d : Bool) : List ℕ := if d then [2] else []

/-- A name of one letter. -/
def letter (c : Byte) : Nameidata := ⟨[c, 0], 1, false⟩

/-- A denode that was just made. -/
def nodeAt (pos : Pos) : Node :=
  ⟨readep twoClusters twoNames.disk pos,
    place (readep twoClusters twoNames.disk pos) pos⟩

theorem layout_twoClusters : Layout twoClusters := ⟨by decide, by decide, by decide⟩

theorem holds_twoDirs (d : Bool) :
    Holds twoClusters twoNames.fat.entry (twoDirs d) (twoChains d) := by
  have hentry : twoNames.fat.entry = twoTable.entry := (fillinusemap_spec twoClusters twoTable).1
  have hempty : Fatcache.On ⟨fceEmpty, 0⟩ (twoChains d) := fun h ↦ absurd rfl h
  rw [hentry]
  cases d with
  | false =>
    exact ⟨Or.inl ⟨rfl, rfl⟩, fun c hc ↦ absurd hc List.not_mem_nil, List.nodup_nil, hempty, hempty,
      fun h ↦ absurd rfl h, fun _ ↦ ⟨rfl, rfl⟩⟩
  | true =>
    exact ⟨Or.inr ⟨by decide, by decide, rfl, pcfseof_clustEofe⟩, by decide, by decide, hempty,
      hempty, fun h ↦ absurd rfl h, fun h ↦ absurd h (by decide)⟩

/-- The entries of the volume. -/
def twoSlots : List (Bool × Pos) :=
  [(false, (0, 0)), (false, (0, 1)), (true, (2, 0)), (true, (2, 1))]

theorem mem_twoSlots {d : Bool} {pos : Pos} (hvisible : Visible marks
    (readep twoClusters twoNames.disk) (slotsOf twoClusters (twoDirs d) (twoChains d)) pos) :
    (d, pos) ∈ twoSlots := by
  have hall : ∀ d, ∀ pos ∈ slotsOf twoClusters (twoDirs d) (twoChains d),
      marks.ends (readep twoClusters twoNames.disk pos) = false → (d, pos) ∈ twoSlots := by
    decide
  exact hall d pos hvisible.reached.mem hvisible.reached.ends_eq

/-- The file in the root directory. -/
theorem visible_file : Visible marks (readep twoClusters twoNames.disk)
    (slotsOf twoClusters (twoDirs false) (twoChains false)) (0, 0) := by
  have hslots : slotsOf twoClusters (twoDirs false) (twoChains false) =
      [(0, 0), (0, 1), (0, 2), (0, 3)] := by decide
  rw [hslots]
  exact ⟨⟨by decide, Or.inl rfl⟩, by decide⟩

theorem tree_twoNames : Tree twoClusters twoNames twoDirs twoChains where
  layout := layout_twoClusters
  accounts := (fillinusemap_spec twoClusters twoTable).2
  holds := holds_twoDirs
  directory := fun _ ↦ rfl
  root_iff := by decide
  unique := by decide
  disjoint := by decide
  once := by
    intro d name p q hp hq hnamep hnameq
    have hnames : ∀ x ∈ twoSlots, ∀ y ∈ twoSlots, x.1 = y.1 →
        (readep twoClusters twoNames.disk x.2).deName =
          (readep twoClusters twoNames.disk y.2).deName → x.2 = y.2 := by
      decide
    refine hnames _ (mem_twoSlots hp) _ (mem_twoSlots hq) rfl ?_
    exact (named_iff.mp hnamep).2.symm.trans (named_iff.mp hnameq).2
  child := by
    intro d pos hvisible
    have hchild : ∀ x ∈ twoSlots, (readep twoClusters twoNames.disk x.2).isDirectory = true →
        notDots (readep twoClusters twoNames.disk x.2) = true →
          ∃ e, e ≠ x.1 ∧ (twoDirs e).startCluster =
            (readep twoClusters twoNames.disk x.2).deStartCluster ∧
              (twoDirs e).startCluster ≠ pcfsroot := by
      decide
    exact hchild _ (mem_twoSlots hvisible)
  parent := by
    intro d pos hvisible hdirectory hdots
    have hparent : ∀ x ∈ twoSlots, notDots (readep twoClusters twoNames.disk x.2) = false →
        ∃ e, (twoDirs e).startCluster =
          (readep twoClusters twoNames.disk x.2).deStartCluster ∧ (e = x.1 ∨ e = false) := by
      decide
    obtain ⟨e, hstart, hwhich⟩ := hparent _ (mem_twoSlots hvisible) hdots
    refine ⟨e, hstart, hwhich.imp_right fun hroot ↦ ⟨(0, 0), ?_, by decide⟩⟩
    rw [hroot]
    exact visible_file

/-- What a lookup of a name in the root directory makes up a call of. -/
theorem call_twoNames {td : Bool} {p : Pos} {c c' : Byte}
    (hsource : search twoClusters twoNames (twoDirs false) (letter c).dosfn = .hit p)
    (hproper : notDots (readep twoClusters twoNames.disk p) = true)
    (hstays : (twoDirs td).startCluster = pcfsroot →
      search twoClusters twoNames (twoDirs td) (letter c').dosfn =
        find twoClusters twoNames (twoDirs td) (twoChains td) (named (letter c').dosfn)) :
    Call twoClusters twoNames twoDirs twoChains false td p (nodeAt p) (letter c) (letter c') where
  tree := tree_twoNames
  source := hsource
  pos_eq := rfl
  isDirectory_eq := rfl
  isVolume_eq := rfl
  start_eq := fun _ ↦ rfl
  proper := hproper
  marker := fun _ ↦ ⟨(0, 2), by decide, by decide⟩
  stays := hstays

end Bsd386.Dosfs.Rename
