import Bsd386.Dosfs.Files
import Bsd386.Dosfs.Rename.Basic

/-!
# Trees of directories

The directories of a volume have clusters of their own, so that an entry that is written changes no
other slot.
-/

namespace Bsd386.Dosfs.Rename

open Slots Names

variable {V : Volume} {s s' : State} {hit : Direntry → Bool} {dp : Denode} {l : List ℕ}
  {disk : Disk} {pos pos' : Pos} {dep : Direntry}

/-! ## Places on the disk -/

/-- A slot of the root directory or of a cluster. -/
def Valid (V : Volume) (pos : Pos) : Prop :=
  pos.1 = pcfsroot ∧ pos.2 < rootClusters V * depclust V ∨ V.Has pos.1 ∧ pos.2 < depclust V

theorem cntobn_ge (hlayout : Layout V) (c : ℕ) : V.rootdirblk + V.rootdirsize ≤ V.cntobn c := by
  rw [Volume.cntobn, hlayout.firstcluster_eq]
  exact Nat.le_add_left _ _

theorem cntobn_inj {c c' : ℕ} (hc : V.Has c) (hc' : V.Has c') (heq : V.cntobn c = V.cntobn c') :
    c = c' := by
  unfold Volume.cntobn at heq
  have hsub := Nat.eq_of_mul_eq_mul_right V.sectPerClust_pos (Nat.add_right_cancel heq)
  have hfirst := hc.1
  have hfirst' := hc'.1
  omega

/-- The blocks of the root directory lie in front of the data. -/
theorem detobn_root_lt (hlayout : Layout V) (hroot : pos.1 = pcfsroot)
    (hlt : pos.2 < rootClusters V * depclust V) :
    detobn V pos < V.rootdirblk + V.rootdirsize := by
  have hdiv : pos.2 / depclust V < rootClusters V :=
    (Nat.div_lt_iff_lt_mul hlayout.depclust_pos).mpr hlt
  have hmul : pos.2 / depclust V * V.sectPerClust < V.rootdirsize :=
    (Nat.lt_div_iff_mul_lt_of_dvd (Nat.ne_of_gt V.sectPerClust_pos) hlayout.dvd).mp hdiv
  rw [detobn, if_pos hroot]
  omega

/-- Slots lie at different places. -/
theorem place_inj (hlayout : Layout V) (hpos : Valid V pos) (hpos' : Valid V pos')
    (hbn : detobn V pos = detobn V pos') (hindex : pos.2 % depclust V = pos'.2 % depclust V) :
    pos = pos' := by
  have hzero : ¬V.Has pcfsroot := fun hhas ↦ hhas.ne_free rfl
  rcases hpos with ⟨hroot, hlt⟩ | ⟨hhas, hlt⟩
  · rcases hpos' with ⟨hroot', hlt'⟩ | ⟨hhas', hlt'⟩
    · rw [detobn, detobn, if_pos hroot, if_pos hroot'] at hbn
      have hdiv := Nat.eq_of_mul_eq_mul_right V.sectPerClust_pos (Nat.add_right_cancel hbn)
      refine Prod.ext (hroot.trans hroot'.symm) ?_
      rw [← Nat.div_add_mod pos.2 (depclust V), hdiv, hindex, Nat.div_add_mod]
    · exfalso
      have hne : pos'.1 ≠ pcfsroot := fun h ↦ hzero (h ▸ hhas')
      have hfront := detobn_root_lt hlayout hroot hlt
      have hback := cntobn_ge hlayout pos'.1
      rw [hbn, detobn, if_neg hne] at hfront
      omega
  · have hne : pos.1 ≠ pcfsroot := fun h ↦ hzero (h ▸ hhas)
    rcases hpos' with ⟨hroot', hlt'⟩ | ⟨hhas', hlt'⟩
    · exfalso
      have hfront := detobn_root_lt hlayout hroot' hlt'
      have hback := cntobn_ge hlayout pos.1
      rw [← hbn, detobn, if_neg hne] at hfront
      omega
    · have hne' : pos'.1 ≠ pcfsroot := fun h ↦ hzero (h ▸ hhas')
      rw [detobn, detobn, if_neg hne, if_neg hne'] at hbn
      rw [Nat.mod_eq_of_lt hlt, Nat.mod_eq_of_lt hlt'] at hindex
      exact Prod.ext (cntobn_inj hhas hhas' hbn) hindex

@[simp]
theorem readep_writeep_self : readep V (writeep V disk pos dep) pos = dep := by
  rw [readep, writeep, if_pos ⟨rfl, rfl⟩]

/-- An entry that is written changes no other slot. -/
theorem readep_writeep (hlayout : Layout V) (hpos : Valid V pos) (hpos' : Valid V pos')
    (hne : pos' ≠ pos) : readep V (writeep V disk pos dep) pos' = readep V disk pos' := by
  rw [readep, writeep, if_neg, readep]
  exact fun hsame ↦ hne (place_inj hlayout hpos' hpos hsame.1 hsame.2)

theorem readep_markdeleted (hlayout : Layout V) (hpos : Valid V pos) (hpos' : Valid V pos')
    (hne : pos' ≠ pos) : readep V (markdeleted V disk pos) pos' = readep V disk pos' :=
  readep_writeep hlayout hpos hpos' hne

@[simp]
theorem readep_markdeleted_self :
    readep V (markdeleted V disk pos) pos = (readep V disk pos).delete :=
  readep_writeep_self

/-- The entry `..` of a directory is one slot. -/
theorem readep_fixDotdot (hlayout : Layout V) {fdep : Node} (hpos : Valid V pos)
    (hstart : fdep.de.isDirectory = true → V.Has fdep.de.deStartCluster)
    (hne : fdep.de.isDirectory = true → pos ≠ (fdep.de.deStartCluster, 1)) :
    readep V (fixDotdot V disk fdep dp) pos = readep V disk pos := by
  rw [readep, fixDotdot, if_neg, readep]
  intro hsame
  have hvalid : Valid V (fdep.de.deStartCluster, 1) :=
    Or.inr ⟨hstart hsame.1, hlayout.one_lt_depclust⟩
  refine hne hsame.1 (place_inj hlayout hpos hvalid ?_ ?_)
  · rw [hsame.2.1, detobn, if_neg]
    exact (hstart hsame.1).ne_free
  · rw [hsame.2.2]
    exact (Nat.mod_eq_of_lt hlayout.one_lt_depclust).symm

/-! ## Slots of directories -/

theorem mem_slotsAt {cluster base : ℕ} (hpos : pos ∈ slotsAt V cluster base) :
    pos.1 = cluster ∧ base ≤ pos.2 ∧ pos.2 < base + depclust V := by
  rw [slotsAt] at hpos
  obtain ⟨i, hi, rfl⟩ := List.mem_map.mp hpos
  exact ⟨rfl, Nat.le_add_right _ _, Nat.add_lt_add_left (List.mem_range.mp hi) _⟩

theorem mem_chainSlots (hpos : pos ∈ chainSlots V l) : pos.1 ∈ l ∧ pos.2 < depclust V := by
  rw [chainSlots] at hpos
  obtain ⟨c, hc, hslot⟩ := List.mem_flatMap.mp hpos
  have hmem := mem_slotsAt hslot
  rw [Nat.zero_add] at hmem
  exact ⟨hmem.1 ▸ hc, hmem.2.2⟩

theorem mem_rootSlots {n : ℕ} (hpos : pos ∈ rootSlots V (List.range n)) :
    pos.1 = pcfsroot ∧ pos.2 < n * depclust V := by
  rw [rootSlots] at hpos
  obtain ⟨k, hk, hslot⟩ := List.mem_flatMap.mp hpos
  obtain ⟨hcluster, -, hlt⟩ := mem_slotsAt hslot
  have hle : (k + 1) * depclust V ≤ n * depclust V :=
    Nat.mul_le_mul_right _ (List.mem_range.mp hk)
  rw [Nat.succ_mul] at hle
  exact ⟨hcluster, Nat.lt_of_lt_of_le hlt hle⟩

/-- A slot of a directory belongs to the root directory or to a cluster of its chain. -/
theorem mem_slotsOf (hpos : pos ∈ slotsOf V dp l) :
    dp.startCluster = pcfsroot ∧ pos.1 = pcfsroot ∧ pos.2 < rootClusters V * depclust V ∨
      dp.startCluster ≠ pcfsroot ∧ pos.1 ∈ l ∧ pos.2 < depclust V := by
  rw [slotsOf] at hpos
  by_cases hstart : dp.startCluster = pcfsroot
  · rw [if_pos hstart] at hpos
    exact Or.inl ⟨hstart, mem_rootSlots hpos⟩
  · rw [if_neg hstart] at hpos
    exact Or.inr ⟨hstart, mem_chainSlots hpos⟩

theorem valid_of_mem (hhas : ∀ c ∈ l, V.Has c) (hpos : pos ∈ slotsOf V dp l) :
    Valid V pos :=
  (mem_slotsOf hpos).imp (fun h ↦ h.2) fun h ↦ ⟨hhas _ h.2.1, h.2.2⟩

/-! ## Trees -/

/-- A denode that is not in core knows nothing about the clusters. -/
theorem holds_directoryAt {entry : ℕ → ℕ} (hholds : Holds V entry dp l) :
    Holds V entry (directoryAt dp.startCluster) l :=
  ⟨hholds.chain, hholds.has, hholds.nodup, fun h ↦ absurd rfl h, fun h ↦ absurd rfl h,
    fun h ↦ absurd rfl h, fun h ↦ ⟨of_decide_eq_true h, rfl⟩⟩

/-- The search for a name in the slots of a directory. -/
def find (V : Volume) (s : State) (dp : Denode) (l : List ℕ) (hit : Direntry → Bool) :
    Outcome Pos :=
  look marks hit (readep V s.disk) (slotsOf V dp l) none

/-- The directories of a volume: they have clusters of their own, a name occurs once in each, an
entry for another directory than the directory itself or its parent leads to a directory below, and
the parent has an entry. -/
structure Tree (V : Volume) (s : State) {D : Type*} (dir : D → Denode) (chain : D → List ℕ) :
    Prop where
  layout : Layout V
  accounts : Accounts V s.fat
  holds : ∀ d, Holds V s.fat.entry (dir d) (chain d)
  directory : ∀ d, (dir d).directory = true
  root_iff : ∀ d, (dir d).root = true ↔ (dir d).startCluster = pcfsroot
  unique : ∀ d e, (dir d).startCluster = (dir e).startCluster → d = e
  disjoint : ∀ d e, d ≠ e → ∀ c ∈ chain d, c ∉ chain e
  once : ∀ d name, Once marks (named name) (readep V s.disk) (slotsOf V (dir d) (chain d))
  child : ∀ d pos, Visible marks (readep V s.disk) (slotsOf V (dir d) (chain d)) pos →
    (readep V s.disk pos).isDirectory = true → notDots (readep V s.disk pos) = true →
      ∃ e, e ≠ d ∧ (dir e).startCluster = (readep V s.disk pos).deStartCluster ∧
        (dir e).startCluster ≠ pcfsroot
  parent : ∀ d pos, Visible marks (readep V s.disk) (slotsOf V (dir d) (chain d)) pos →
    (readep V s.disk pos).isDirectory = true → notDots (readep V s.disk pos) = false →
      ∃ e, (dir e).startCluster = (readep V s.disk pos).deStartCluster ∧ (e = d ∨
        ∃ pos', Visible marks (readep V s.disk) (slotsOf V (dir e) (chain e)) pos' ∧
          notDots (readep V s.disk pos') = true)

variable {D : Type*} {dir : D → Denode} {chain : D → List ℕ} {d e : D}

/-- A search finds a slot of the directory if one can be found there. -/
theorem searchClusters_hit (hlayout : Layout V) (hholds : Holds V s.fat.entry dp l)
    (hdirectory : dp.directory = true) (hfind : find V s dp l hit = .hit pos) :
    searchClusters V hit s (turns V) dp 0 0 none = .hit pos := by
  rw [searchClusters_eq hlayout hholds hdirectory, searched]
  rw [find, slotsOf] at hfind
  by_cases hstart : dp.startCluster = pcfsroot
  · rw [if_pos hstart] at hfind ⊢
    rw [List.range_succ, rootSlots, List.flatMap_append, look_append]
    rw [rootSlots] at hfind
    rw [hfind]
    rfl
  · rw [if_neg hstart] at hfind ⊢
    exact hfind

/-- A search that does not come to the end of the root directory is one in the directory. -/
theorem searchClusters_find (hlayout : Layout V) (hholds : Holds V s.fat.entry dp l)
    (hdirectory : dp.directory = true)
    (hstays : dp.startCluster = pcfsroot → ∀ slot, find V s dp l hit ≠ .next slot) :
    searchClusters V hit s (turns V) dp 0 0 none = find V s dp l hit := by
  rw [searchClusters_eq hlayout hholds hdirectory, searched]
  unfold find slotsOf at hstays ⊢
  by_cases hstart : dp.startCluster = pcfsroot
  · have hnext := hstays hstart
    rw [if_pos hstart] at hnext ⊢
    rw [if_pos hstart, List.range_succ, rootSlots, List.flatMap_append, look_append]
    rw [rootSlots] at hnext ⊢
    cases hlook : look marks hit (readep V s.disk)
      ((List.range (rootClusters V)).flatMap fun k ↦ slotsAt V pcfsroot (k * depclust V)) none with
    | hit pos => rfl
    | stop slot => rfl
    | next slot => exact absurd hlook (hnext slot)
  · rw [if_neg hstart, if_neg hstart]

/-- Directories that are not empty are found to be so. -/
theorem dosdirempty_eq_false (hlayout : Layout V) (hholds : Holds V s.fat.entry dp l)
    (hvisible : Visible marks (readep V s.disk) (slotsOf V dp l) pos)
    (hdots : notDots (readep V s.disk pos) = true) : dosdirempty V s dp.startCluster = false := by
  obtain ⟨q, hlook⟩ := exists_hit hvisible hdots none
  have hsearch : searchClusters V notDots s (turns V) (directoryAt dp.startCluster) 0 0 none =
      .hit q := searchClusters_hit hlayout (holds_directoryAt hholds) rfl hlook
  rw [dosdirempty, hsearch]

/-- Different directories have different slots. -/
theorem Tree.slots_disjoint (htree : Tree V s dir chain) (hne : d ≠ e)
    (hpos : pos ∈ slotsOf V (dir d) (chain d)) : pos ∉ slotsOf V (dir e) (chain e) := by
  intro hpos'
  have hzero : ¬V.Has pcfsroot := fun hhas ↦ hhas.ne_free rfl
  rcases mem_slotsOf hpos with ⟨hroot, hcluster, -⟩ | ⟨-, hmem, -⟩
  · rcases mem_slotsOf hpos' with ⟨hroot', -⟩ | ⟨-, hmem', -⟩
    · exact hne (htree.unique d e (hroot.trans hroot'.symm))
    · rw [hcluster] at hmem'
      exact hzero ((htree.holds e).has _ hmem')
  · rcases mem_slotsOf hpos' with ⟨-, hcluster', -⟩ | ⟨-, hmem', -⟩
    · rw [hcluster'] at hmem
      exact hzero ((htree.holds d).has _ hmem)
    · exact htree.disjoint d e hne _ hmem hmem'

theorem Tree.valid (htree : Tree V s dir chain) (hpos : pos ∈ slotsOf V (dir d) (chain d)) :
    Valid V pos :=
  valid_of_mem (htree.holds d).has hpos

/-- The first cluster of a directory other than the root directory. -/
theorem Tree.start_mem (htree : Tree V s dir chain) (hstart : (dir d).startCluster ≠ pcfsroot) :
    (dir d).startCluster ∈ chain d := by
  obtain ⟨hne, hchain⟩ := (htree.holds d).chain.chain hstart
  cases hl : chain d with
  | nil => exact absurd hl hne
  | cons c l =>
    rw [hl] at hchain
    rw [hchain.1]
    exact List.mem_cons_self

end Bsd386.Dosfs.Rename

/-!
# What renaming does to a directory

An entry that gets another name, an entry that is marked as deleted and an entry that is put into a
slot, as the searches of the directory see them.
-/

namespace Bsd386.Dosfs.Rename

open Slots Names

variable {V : Volume} {s s' : State} {ps : List Pos} {f f' : Pos → Direntry} {p q r : Pos}
  {fname tname name : List Byte} {dp : Denode} {l : List ℕ} {dep : Direntry} {ndp : Nameidata}

/-! ## Names and marks -/

/-- The first byte of a name does not mark its slot. -/
theorem deref_unix2dosfn (un : List Byte) (unlen : ℕ) (c : Byte) :
    deref (unix2dosfn un unlen c) ≠ slotEmpty ∧ deref (unix2dosfn un unlen c) ≠ slotDeleted := by
  have hblank : ∀ n rest, deref (padded 8 (toE5 []) ++ padded n rest) = blank := fun _ _ ↦ rfl
  rw [unix2dosfn]
  split_ifs
  · decide
  · decide
  · rw [Names.translate, nameLoop]
    by_cases hlen : unlen = 0
    · rw [if_pos hlen, hblank]
      decide
    rw [if_neg hlen]
    by_cases hstop : deref un = 0 ∨ deref un = dot
    · rw [if_pos hstop, hblank]
      decide
    rw [if_neg hstop, toE5]
    change (if toDos (deref un) = slotDeleted then slotE5 else toDos (deref un)) ≠ slotEmpty ∧
      (if toDos (deref un) = slotDeleted then slotE5 else toDos (deref un)) ≠ slotDeleted
    by_cases hdeleted : toDos (deref un) = slotDeleted
    · rw [if_pos hdeleted]
      decide
    · rw [if_neg hdeleted]
      exact ⟨toDos_ne_zero fun hzero ↦ hstop (Or.inl hzero), hdeleted⟩

@[simp]
theorem ends_rename : marks.ends (dep.rename ndp.dosfn) = false :=
  decide_eq_false (deref_unix2dosfn _ _ _).1

@[simp]
theorem gone_rename : marks.gone (dep.rename ndp.dosfn) = false :=
  decide_eq_false (deref_unix2dosfn _ _ _).2

/-- An entry in use that is marked as deleted is gone. -/
theorem delete_marks (hends : marks.ends dep = false) :
    marks.ends dep.delete = false ∧ marks.gone dep.delete = true := by
  have hends' : deref dep.deName ≠ slotEmpty := of_decide_eq_false hends
  unfold marks Direntry.delete
  dsimp only
  cases hname : dep.deName with
  | nil =>
    rw [hname] at hends'
    exact absurd rfl hends'
  | cons c rest => exact ⟨rfl, rfl⟩

theorem named_iff : named name dep = true ↔ dep.isVolume = false ∧ name = dep.deName := by
  rw [named, Bool.and_eq_true, decide_eq_true_iff, Bool.not_eq_true']

/-! ## Slots -/

/-- An entry that is marked as deleted is not found any more. -/
theorem deleted_absent (honce : Once marks (named fname) f ps) (hp : Visible marks f ps p)
    (hfname : named fname (f p) = true) (hends : ∀ x ∈ ps, marks.ends (f' x) = marks.ends (f x))
    (hgone : marks.gone (f' p) = true) (hothers : ∀ x ∈ ps, x ≠ p → f' x = f x)
    (slot : Option Pos) (q : Pos) : look marks (named fname) f' ps slot ≠ .hit q := by
  refine look_ne_hit (fun x hx ↦ ?_) slot q
  have hne : x ≠ p := by
    rintro rfl
    exact absurd (hgone.symm.trans hx.here) (by decide)
  have hsame := hothers x hx.reached.mem hne
  have hvisible : Visible marks f ps x :=
    ⟨(Reached.congr hends).mp hx.reached, hsame ▸ hx.here⟩
  rw [hsame]
  exact Bool.eq_false_iff.mpr fun hhit ↦ hne (honce x p hvisible hp hhit hfname)

/-- An entry that gets another name is found under it, where the entry that had the name is gone,
and not under the old name. -/
theorem renamed_found (honce : Once marks (named fname) f ps) (hne : fname ≠ tname)
    (hp : Visible marks f ps p) (hfname : named fname (f p) = true)
    (hends : ∀ x ∈ ps, marks.ends (f' x) = marks.ends (f x)) (hhere : marks.gone (f' p) = false)
    (htname : named tname (f' p) = true)
    (hothers : ∀ x ∈ ps, x ≠ p → marks.gone (f' x) = true ∨
      f' x = f x ∧ (Visible marks f ps x → named tname (f x) = false)) (slot : Option Pos) :
    (∀ q, look marks (named fname) f' ps slot ≠ .hit q) ∧
      look marks (named tname) f' ps slot = .hit p := by
  constructor
  · refine look_ne_hit (fun x hx ↦ ?_) slot
    by_cases hxp : x = p
    · rw [hxp]
      refine Bool.eq_false_iff.mpr fun hhit ↦ hne ?_
      rw [(named_iff.mp hhit).2, (named_iff.mp htname).2]
    · rcases hothers x hx.reached.mem hxp with hgone | ⟨hsame, -⟩
      · exact absurd (hgone.symm.trans hx.here) (by decide)
      · have hvisible : Visible marks f ps x :=
          ⟨(Reached.congr hends).mp hx.reached, hsame ▸ hx.here⟩
        rw [hsame]
        exact Bool.eq_false_iff.mpr fun hhit ↦ hxp (honce x p hvisible hp hhit hfname)
  · refine look_eq_hit ⟨(Reached.congr hends).mpr hp.reached, hhere⟩ htname
      (fun x hx hhit ↦ ?_) slot
    by_contra hxp
    rcases hothers x hx.reached.mem hxp with hgone | ⟨hsame, hnot⟩
    · exact absurd (hgone.symm.trans hx.here) (by decide)
    · have hvisible : Visible marks f ps x :=
        ⟨(Reached.congr hends).mp hx.reached, hsame ▸ hx.here⟩
      rw [hsame, hnot hvisible] at hhit
      cases hhit

/-- An entry that is put over the one of the same name is found. -/
theorem overwritten_found (honce : Once marks (named tname) f ps) (hq : Visible marks f ps q)
    (hold : named tname (f q) = true) (hends : ∀ x ∈ ps, marks.ends (f' x) = marks.ends (f x))
    (hhere : marks.gone (f' q) = false) (htname : named tname (f' q) = true)
    (hothers : ∀ x ∈ ps, x ≠ q → f' x = f x) (slot : Option Pos) :
    look marks (named tname) f' ps slot = .hit q := by
  refine look_eq_hit ⟨(Reached.congr hends).mpr hq.reached, hhere⟩ htname (fun x hx hhit ↦ ?_) slot
  by_contra hxq
  have hsame := hothers x hx.reached.mem hxq
  have hvisible : Visible marks f ps x :=
    ⟨(Reached.congr hends).mp hx.reached, hsame ▸ hx.here⟩
  exact hxq (honce x q hvisible hq (hsame ▸ hhit) hold)

/-! ## Searches -/

/-- A name that no slot of a directory has is not found. In the root directory there is a marker. -/
theorem search_absent (hlayout : Layout V) (hholds : Holds V s.fat.entry dp l)
    (habsent : ∀ q, find V s dp l (named name) ≠ .hit q)
    (hmarker : dp.startCluster = pcfsroot →
      ∃ x ∈ slotsOf V dp l, marks.ends (readep V s.disk x) = true) (q : Pos) :
    search V s (directoryAt dp.startCluster) name ≠ .hit q := by
  rw [search, searchClusters_find hlayout (holds_directoryAt hholds) rfl]
  · exact habsent q
  · intro hstart slot hnext
    obtain ⟨x, hx, hends⟩ := hmarker hstart
    rw [ends_of_look_next hnext x hx] at hends
    cases hends

/-- A name that a slot of a directory has is found. -/
theorem search_found (hlayout : Layout V) (hholds : Holds V s.fat.entry dp l)
    (hfound : find V s dp l (named name) = .hit q) :
    search V s (directoryAt dp.startCluster) name = .hit q :=
  searchClusters_hit hlayout (holds_directoryAt hholds) rfl hfound

end Bsd386.Dosfs.Rename
