import Bsd386.Dosfs.Denode
import Bsd386.Dosfs.Names
import Bsd386.Lib.Slots

/-!
# Renaming

`pcfs_rename` of `dosfs/dosfs_vnops.c` with the search of `pcfs_lookup` and the functions of
`dosfs/dosfs_lookup.c` that read, create and remove entries. A buffer holds the entries of a
cluster, and there are no errors of the disk. Locks and counts of references are left out.
-/

namespace Bsd386.Dosfs.Rename

open Slots Names

/-- `struct direntry`, with the extension in the name. -/
structure Direntry where
  deName : List Byte
  deAttributes : Byte
  deReserved : List Byte
  deTime : BitVec 16
  deDate : BitVec 16
  deStartCluster : ℕ
  deFileSize : ℕ
  deriving DecidableEq

namespace Direntry

/-- `ATTR_DIRECTORY`. -/
def isDirectory (dep : Direntry) : Bool := dep.deAttributes &&& 0x10 ≠ 0

/-- `ATTR_VOLUME`. -/
def isVolume (dep : Direntry) : Bool := dep.deAttributes &&& 0x08 ≠ 0

/-- An entry of a buffer that was cleared. -/
def blank : Direntry := ⟨List.replicate 11 0, 0, List.replicate 10 0, 0, 0, 0, 0⟩

/-- An entry in a slot that is free again. -/
def delete (dep : Direntry) : Direntry := { dep with deName := dep.deName.set 0 slotDeleted }

/-- An entry under another name. -/
def rename (dep : Direntry) (name : List Byte) : Direntry := { dep with deName := name }

end Direntry

/-- `SLOT_EMPTY` and `SLOT_DELETED`. -/
def marks : Marks Direntry where
  ends := fun dep ↦ deref dep.deName = slotEmpty
  gone := fun dep ↦ deref dep.deName = slotDeleted

/-- The name of a directory itself. -/
def dotName : List Byte := padded 11 [dot]

/-- The name of the parent directory. -/
def dotdotName : List Byte := padded 11 [dot, dot]

/-- The entries by the block that begins their cluster. -/
abbrev Disk : Type := ℕ → ℕ → Direntry

/-- The table of clusters and the entries. -/
structure State where
  fat : Fat
  disk : Disk

/-- A cluster of a directory and an offset, which counts from the begin of the root directory when
the cluster is `PCFSROOT`. -/
abbrev Pos : Type := ℕ × ℕ

/-- `PCFSROOT_OFS`. -/
def pcfsrootOfs : ℕ := 0x1fffffff

/-- A denode: its entry, `de_dirclust` and `de_diroffset`. -/
structure Node where
  de : Direntry
  pos : Pos

/-- What `nameidata` tells about a name: the bytes from `ni_ptr` on, `ni_namelen` and
`ni_isdotdot`. -/
structure Nameidata where
  ptr : List Byte
  namelen : ℕ
  isdotdot : Bool

/-- The DOS form of a name. As a name has a byte, it does not matter what the variable of
`unix2dosfn` holds before. -/
def Nameidata.dosfn (ndp : Nameidata) : List Byte := unix2dosfn ndp.ptr ndp.namelen 0

/-- The name `.`. -/
def Nameidata.isDot (ndp : Nameidata) : Bool := ndp.namelen = 1 ∧ deref ndp.ptr = dot

/-- The names `.` and `..`. -/
def Nameidata.isDots (ndp : Nameidata) : Bool :=
  ndp.isDot ∨ ndp.namelen = 2 ∧ deref ndp.ptr = dot ∧ deref ndp.ptr.tail = dot

/-- What a call fails with. -/
inductive Failure
  | einval
  | eisdir
  | enotdir
  | enotempty
  | eexist
  | enospc
  deriving DecidableEq

variable (V : Volume)

/-! ## Entries -/

/-- `pm_depclust`. -/
def depclust : ℕ := V.bpcluster / 32

/-- `detobn`. -/
def detobn (pos : Pos) : ℕ :=
  if pos.1 = pcfsroot then pos.2 / depclust V * V.sectPerClust + V.rootdirblk else V.cntobn pos.1

/-- `readep`. -/
def readep (disk : Disk) (pos : Pos) : Direntry := disk (detobn V pos) (pos.2 % depclust V)

/-- An entry is written into the buffer that `readep` has read, and the buffer is written. -/
def writeep (disk : Disk) (pos : Pos) (dep : Direntry) : Disk := fun bn i ↦
  if bn = detobn V pos ∧ i = pos.2 % depclust V then dep else disk bn i

/-- `markdeleted`. -/
def markdeleted (disk : Disk) (pos : Pos) : Disk := writeep V disk pos (readep V disk pos).delete

/-! ## Searches -/

/-- The inner loop of `pcfs_lookup`, which goes over the entries of a cluster. -/
def searchEntries (hit : Direntry → Bool) (buf : ℕ → Direntry) (cluster : ℕ) :
    ℕ → ℕ → ℕ → Option Pos → Outcome Pos
  | 0, _, _, slot => .next slot
  | n + 1, diroff, rootreloff, slot =>
    let pos := (cluster, if cluster = pcfsroot then rootreloff else diroff)
    if marks.ends (buf diroff) then .stop (slot.or (some pos))
    else if marks.gone (buf diroff) then
      searchEntries hit buf cluster n (diroff + 1) (rootreloff + 1) (slot.or (some pos))
    else if hit (buf diroff) then .hit pos
    else searchEntries hit buf cluster n (diroff + 1) (rootreloff + 1) slot

/-- The outer loop of `pcfs_lookup`, which goes over the clusters of a directory. -/
def searchClusters (hit : Direntry → Bool) (s : State) :
    ℕ → Denode → ℕ → ℕ → Option Pos → Outcome Pos
  | 0, _, _, _, slot => .next slot
  | fuel + 1, dp, frcn, rootreloff, slot =>
    match pcbmap V s.fat.entry dp frcn with
    | (⟨none, some bn, some cluster⟩, dp) =>
      (searchEntries hit (s.disk bn) cluster (depclust V) 0 rootreloff slot).andThen fun slot ↦
        searchClusters hit s fuel dp (frcn + 1) (rootreloff + depclust V) slot
    | _ => .next slot

/-- More turns than a directory has clusters. -/
def turns : ℕ := clustRsrvs + V.rootdirsize + 2

/-- The entries that a name can mean: volume labels have none. -/
def named (name : List Byte) (dep : Direntry) : Bool := !dep.isVolume && name = dep.deName

/-- The search of `pcfs_lookup` for a name. -/
def search (s : State) (dp : Denode) (name : List Byte) : Outcome Pos :=
  searchClusters V (named name) s (turns V) dp 0 0 none

/-- The denode of a directory that is not in core. -/
def directoryAt (start : ℕ) : Denode :=
  ⟨start, true, start = pcfsroot, 0, ⟨fceEmpty, 0⟩, ⟨fceEmpty, 0⟩⟩

/-- An entry that is not for a directory itself or its parent. -/
def notDots (dep : Direntry) : Bool := dep.deName ≠ dotName ∧ dep.deName ≠ dotdotName

/-- `dosdirempty`, which goes over the entries as `pcfs_lookup` does. -/
def dosdirempty (s : State) (start : ℕ) : Bool :=
  match searchClusters V notDots s (turns V) (directoryAt start) 0 0 none with
  | .hit _ => false
  | _ => true

/-- Where `deget` looks for a denode: a directory is known by its first cluster. -/
def place (direntptr : Direntry) (pos : Pos) : Pos :=
  if direntptr.isDirectory then
    (direntptr.deStartCluster, if direntptr.deStartCluster = pcfsroot then pcfsrootOfs else 0)
  else pos

/-- `deget` with a denode in core. -/
def deget (core : Node) (pos : Pos) (direntptr : Direntry) : Node :=
  if core.pos = place direntptr pos then core else ⟨direntptr, place direntptr pos⟩

/-! ## `pcfs_rename` -/

/-- The loop of `doscheckpath`, which ends when the entries `..` have led to the root directory. -/
def checkpathLoop (disk : Disk) (source : ℕ) : ℕ → ℕ → Except Failure Unit
  | 0, _ => .error .einval
  | fuel + 1, scn =>
    let ep := disk (V.cntobn scn) 1
    if ep.isDirectory = false ∨ ep.deName ≠ dotdotName then .error .enotdir
    else if ep.deStartCluster = source then .error .einval
    else if ep.deStartCluster = pcfsroot then .ok ()
    else checkpathLoop disk source fuel ep.deStartCluster

/-- `doscheckpath`. -/
def doscheckpath (disk : Disk) (source : ℕ) (target : Denode) : Except Failure Unit :=
  if target.directory = false then .error .enotdir
  else if target.startCluster = source then .error .eexist
  else if target.startCluster = pcfsroot then .ok ()
  else checkpathLoop V disk source (turns V) target.startCluster

/-- What the lookup of the target leaves in `ni_vp` and `ni_pcfs`. -/
inductive Target
  | existing (pos : Pos)
  | free (slot : Option Pos)

/-- The lookup of the target by `pcfs_lookup` for `RENAME`. -/
def lookupTarget (s : State) (tddep : Denode) (tndp : Nameidata) : Except Failure Target :=
  if tddep.root ∧ tndp.isDots then .error .eisdir
  else
    match search V s tddep tndp.dosfn with
    | .hit pos =>
      if (readep V s.disk pos).isDirectory ∧
          (readep V s.disk pos).deStartCluster = tddep.startCluster then .error .eisdir
      else .ok (.existing pos)
    | .stop slot | .next slot => .ok (.free slot)

/-- The target is removed if it exists, and its denode tells `createde` a slot. -/
def removeTarget (s : State) (sourceisadirectory : Bool) :
    Target → Except Failure (Disk × Option Pos)
  | .free slot => .ok (s.disk, slot)
  | .existing pos =>
    let dep := readep V s.disk pos
    if dep.isDirectory then
      if sourceisadirectory = false then .error .enotdir
      else if dosdirempty V s dep.deStartCluster = false then .error .enotempty
      else .ok (markdeleted V s.disk pos, some (place dep pos))
    else if sourceisadirectory then .error .eisdir
    else .ok (markdeleted V s.disk pos, some (place dep pos))

/-- `createde`. -/
def createde (s : State) (ddep : Denode) (de : Direntry) :
    Option Pos → Except Failure (Pos × State)
  | some pos => .ok (pos, { s with disk := writeep V s.disk pos de })
  | none =>
    match extendfile V ddep s.fat with
    | (.ok (some (_, cn)), _, fat) =>
      let cleared : Disk := fun bn i ↦ if bn = V.cntobn cn then Direntry.blank else s.disk bn i
      .ok ((cn, 0), ⟨fat, writeep V cleared (cn, 0) de⟩)
    | _ => .error .enospc

/-- Renaming inside a directory: the entry that the denode is from gets the name. -/
def renameEntry (s : State) (fdep : Node) (toname : List Byte) : State × Node :=
  ({ s with disk := writeep V s.disk fdep.pos ((readep V s.disk fdep.pos).rename toname) },
    { fdep with de := fdep.de.rename toname })

/-- The entry `..` of a directory that was moved. -/
def fixDotdot (disk : Disk) (fdep : Node) (tddep : Denode) : Disk := fun bn i ↦
  if fdep.de.isDirectory ∧ bn = V.cntobn fdep.de.deStartCluster ∧ i = 1 then
    { disk bn i with deStartCluster := tddep.startCluster }
  else disk bn i

/-- Moving to another directory: a new entry is created, the one that the denode is from is marked
as deleted, and the denode gets the place of the new one. -/
def moveEntry (s : State) (fdep : Node) (tddep : Denode) (toname : List Byte) (slot : Option Pos) :
    Except Failure (State × Node) :=
  let renamed := fdep.de.rename toname
  let created := if fdep.de.isDirectory then { renamed with deFileSize := 0 } else renamed
  (createde V s tddep created slot).map fun made ↦
    ({ made.2 with disk := fixDotdot V (markdeleted V made.2.disk fdep.pos) fdep tddep },
      ⟨renamed, made.1⟩)

/-- `pcfs_rename`, with the lookup of the target in front. -/
def pcfsRename (s : State) (fddep tddep : Denode) (fdep : Node) (fndp tndp : Nameidata) :
    Except Failure (State × Node) := do
  let target ← lookupTarget V s tddep tndp
  if fdep.de.isDirectory ∧
      (fndp.isDot ∨ fddep.startCluster = fdep.de.deStartCluster ∨ fndp.isdotdot) then
    .error .einval
  else
    let newparent := fddep.startCluster ≠ tddep.startCluster
    if fdep.de.isDirectory ∧ newparent then doscheckpath V s.disk fdep.de.deStartCluster tddep
    let (disk, slot) ← removeTarget V s fdep.de.isDirectory target
    if newparent then moveEntry V { s with disk := disk } fdep tddep tndp.dosfn slot
    else .ok (renameEntry V { s with disk := disk } fdep tndp.dosfn)

end Bsd386.Dosfs.Rename

/-!
# What a search goes over

The loops of `pcfs_lookup` go over the slots of a directory one after the other. In the root
directory they do not stop at its end: `pcbmap` maps one cluster more, which is the first one of the
data.
-/

namespace Bsd386.Dosfs.Rename

open Slots Names

variable {V : Volume} {s : State} {hit : Direntry → Bool} {dp : Denode} {l : List ℕ}
  {slot : Option Pos} {disk : Disk} {pos pos' : Pos}

/-- What mounting makes sure of: the data begin behind the root directory, which consists of whole
clusters. -/
structure Layout (V : Volume) : Prop where
  firstcluster_eq : V.firstcluster = V.rootdirblk + V.rootdirsize
  dvd : V.sectPerClust ∣ V.rootdirsize
  one_lt_depclust : 1 < depclust V

theorem Layout.depclust_pos (hlayout : Layout V) : 0 < depclust V :=
  Nat.lt_trans Nat.zero_lt_one hlayout.one_lt_depclust

/-- The slots of a cluster. -/
def slotsAt (V : Volume) (cluster base : ℕ) : List Pos :=
  (List.range (depclust V)).map fun i ↦ (cluster, base + i)

/-- The slots of clusters of the root directory. -/
def rootSlots (V : Volume) (clusters : List ℕ) : List Pos :=
  clusters.flatMap fun k ↦ slotsAt V pcfsroot (k * depclust V)

/-- The slots of clusters of another directory. -/
def chainSlots (V : Volume) (clusters : List ℕ) : List Pos :=
  clusters.flatMap fun c ↦ slotsAt V c 0

/-- The number of clusters of the root directory. -/
def rootClusters (V : Volume) : ℕ := V.rootdirsize / V.sectPerClust

/-- The slots of a directory. -/
def slotsOf (V : Volume) (dp : Denode) (l : List ℕ) : List Pos :=
  if dp.startCluster = pcfsroot then rootSlots V (List.range (rootClusters V)) else chainSlots V l

/-- The slots that a search of a directory goes over. -/
def searched (V : Volume) (dp : Denode) (l : List ℕ) : List Pos :=
  if dp.startCluster = pcfsroot then rootSlots V (List.range (rootClusters V + 1))
  else chainSlots V l

/-! ## Slots and buffers -/

theorem readep_root (hlayout : Layout V) {k i : ℕ} (hi : i < depclust V) :
    readep V disk (pcfsroot, k * depclust V + i) = disk (V.rootdirblk + k * V.sectPerClust) i := by
  have hdiv : (k * depclust V + i) / depclust V = k := by
    rw [Nat.add_comm, Nat.add_mul_div_right i k hlayout.depclust_pos, Nat.div_eq_of_lt hi,
      Nat.zero_add]
  rw [readep, detobn, if_pos rfl]
  dsimp only
  rw [hdiv, Nat.mul_add_mod', Nat.mod_eq_of_lt hi, Nat.add_comm]

theorem readep_chain {c i : ℕ} (hc : c ≠ pcfsroot) (hi : i < depclust V) :
    readep V disk (c, i) = disk (V.cntobn c) i := by
  rw [readep, detobn, if_neg hc]
  dsimp only
  rw [Nat.mod_eq_of_lt hi]

/-! ## The loops -/

/-- The inner loop goes over the slots of a cluster. -/
theorem searchEntries_eq {buf : ℕ → Direntry} {cluster : ℕ} {f : Pos → Direntry} (base : ℕ)
    (hbase : cluster ≠ pcfsroot → base = 0) (n : ℕ) {diroff rootreloff : ℕ}
    (hroot : cluster = pcfsroot → rootreloff = base + diroff)
    (hbuf : ∀ i, i < diroff + n → f (cluster, base + i) = buf i) :
    searchEntries hit buf cluster n diroff rootreloff slot =
      look marks hit f ((List.range' diroff n).map fun i ↦ (cluster, base + i)) slot := by
  induction n generalizing diroff rootreloff slot with
  | zero => rfl
  | succ n ih =>
    have hpos : (if cluster = pcfsroot then rootreloff else diroff) = base + diroff := by
      by_cases hcluster : cluster = pcfsroot
      · rw [if_pos hcluster, hroot hcluster]
      · rw [if_neg hcluster, hbase hcluster, Nat.zero_add]
    have hnext : cluster = pcfsroot → rootreloff + 1 = base + (diroff + 1) := fun hcluster ↦ by
      rw [hroot hcluster, Nat.add_assoc]
    have hrest : ∀ i, i < diroff + 1 + n → f (cluster, base + i) = buf i := fun i hi ↦
      hbuf i (by omega)
    rw [searchEntries, List.range'_succ, List.map_cons, look, hpos, hbuf diroff (by omega),
      ih hnext hrest, ih hnext hrest]

/-- The loops in a directory other than the root directory. -/
theorem searchClusters_chain (hholds : Holds V s.fat.entry dp l) (hstart : dp.startCluster ≠ 0)
    (fuel frcn rootreloff : ℕ) (hfuel : l.length < fuel + frcn) (hfrcn : frcn ≤ l.length) :
    searchClusters V hit s fuel dp frcn rootreloff slot =
      look marks hit (readep V s.disk) (chainSlots V (l.drop frcn)) slot := by
  induction fuel generalizing dp frcn rootreloff slot with
  | zero => omega
  | succ fuel ih =>
    rw [searchClusters]
    rcases Nat.lt_or_eq_of_le hfrcn with hlt | heq
    · have hget : l[frcn]? = some l[frcn] := List.getElem?_eq_getElem hlt
      have hc : l[frcn] ≠ pcfsroot := (hholds.has _ (List.getElem_mem hlt)).ne_free
      have hentries : ∀ slot, searchEntries hit (s.disk (V.cntobn l[frcn])) l[frcn] (depclust V) 0
          rootreloff slot = look marks hit (readep V s.disk) (slotsAt V l[frcn] 0) slot := by
        intro slot
        rw [searchEntries_eq 0 (fun _ ↦ rfl) (depclust V) (fun hroot ↦ absurd hroot hc), slotsAt,
          List.range_eq_range']
        intro i hi
        rw [Nat.zero_add] at hi ⊢
        exact readep_chain hc hi
      rw [hholds.pcbmap_mapped hget]
      dsimp only
      rw [hentries, List.drop_eq_getElem_cons hlt, chainSlots, List.flatMap_cons, look_append]
      congr 1
      funext slot
      exact ih (hholds.setLastmap hget) hstart (frcn + 1) _ (by omega) hlt
    · obtain ⟨c, -, hmap⟩ := hholds.pcbmap_beyond hstart (Nat.le_of_eq heq.symm)
      rw [hmap, heq, List.drop_length]
      rfl

/-- The loops in the root directory, which go one cluster too far. -/
theorem searchClusters_root (hlayout : Layout V) (hstart : dp.startCluster = pcfsroot)
    (hdirectory : dp.directory = true) (fuel frcn : ℕ) (hfuel : rootClusters V + 1 < fuel + frcn)
    (hfrcn : frcn ≤ rootClusters V + 1) :
    searchClusters V hit s fuel dp frcn (frcn * depclust V) slot =
      look marks hit (readep V s.disk)
        (rootSlots V (List.range' frcn (rootClusters V + 1 - frcn))) slot := by
  have hsect := V.sectPerClust_pos
  induction fuel generalizing frcn slot with
  | zero => omega
  | succ fuel ih =>
    rw [searchClusters, pcbmap, if_pos hstart, if_pos hdirectory]
    rcases Nat.lt_or_eq_of_le hfrcn with hlt | heq
    · have hin : ¬V.rootdirsize < frcn * V.sectPerClust := by
        rw [Nat.not_lt, ← Nat.le_div_iff_mul_le hsect]
        exact Nat.le_of_lt_succ hlt
      have hentries : ∀ slot, searchEntries hit (s.disk (V.rootdirblk + frcn * V.sectPerClust))
          pcfsroot (depclust V) 0 (frcn * depclust V) slot =
            look marks hit (readep V s.disk) (slotsAt V pcfsroot (frcn * depclust V)) slot := by
        intro slot
        have hrootreloff : pcfsroot = pcfsroot → frcn * depclust V = frcn * depclust V + 0 :=
          fun _ ↦ rfl
        rw [searchEntries_eq (frcn * depclust V) (fun hne ↦ absurd rfl hne) (depclust V)
          hrootreloff, slotsAt, List.range_eq_range']
        intro i hi
        rw [Nat.zero_add] at hi
        exact readep_root hlayout hi
      have hlength : rootClusters V + 1 - frcn = rootClusters V + 1 - (frcn + 1) + 1 := by omega
      rw [if_neg hin]
      dsimp only
      rw [hentries, hlength, List.range'_succ, rootSlots, List.flatMap_cons, look_append]
      congr 1
      funext slot
      have hbase : frcn * depclust V + depclust V = (frcn + 1) * depclust V :=
        (Nat.succ_mul _ _).symm
      rw [hbase]
      exact ih (frcn + 1) (by omega) hlt
    · have hout : V.rootdirsize < frcn * V.sectPerClust := by
        rw [heq]
        exact (Nat.div_lt_iff_lt_mul hsect).mp (Nat.lt_succ_self _)
      rw [if_pos hout, heq, Nat.sub_self]
      rfl

/-- The loops go over the slots of a directory, and in the root directory over those of the cluster
behind it. -/
theorem searchClusters_eq (hlayout : Layout V) (hholds : Holds V s.fat.entry dp l)
    (hdirectory : dp.directory = true) :
    searchClusters V hit s (turns V) dp 0 0 slot =
      look marks hit (readep V s.disk) (searched V dp l) slot := by
  have hlength := length_lt hholds.has hholds.nodup
  have hroot : rootClusters V ≤ V.rootdirsize := Nat.div_le_self _ _
  rw [searched]
  by_cases hstart : dp.startCluster = pcfsroot
  · have heq : searchClusters V hit s (turns V) dp 0 (0 * depclust V) slot = _ :=
      searchClusters_root hlayout hstart hdirectory (turns V) 0 (by unfold turns; omega)
        (Nat.zero_le _)
    rw [Nat.zero_mul] at heq
    rw [if_pos hstart, heq, Nat.sub_zero, List.range_eq_range']
  · rw [if_neg hstart]
    exact searchClusters_chain hholds hstart (turns V) 0 0 (by unfold turns; omega) (Nat.zero_le _)

end Bsd386.Dosfs.Rename
