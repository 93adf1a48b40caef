import Bsd386.Dosfs.Rename.Tree

/-!
# Calls that succeed

What the parts of `pcfs_rename` have done when it succeeds. A new entry is put into a slot of the
directory or into a new cluster, and changes no other slot that is in use.
-/

namespace Bsd386.Dosfs.Rename

open Slots Names

variable {V : Volume} {s s' : State} {fddep tddep : Denode} {fdep fdep' : Node}
  {fndp tndp : Nameidata} {p q : Pos} {target : Target} {sourceisadirectory : Bool}
  {disk : Disk} {slot : Option Pos} {D : Type*} {dir : D → Denode} {chain : D → List ℕ} {fd td : D}

/-! ## What the parts have done -/

/-- The target as the search finds it. -/
theorem lookupTarget_ok (hok : lookupTarget V s tddep tndp = .ok target) :
    (∃ q, search V s tddep tndp.dosfn = .hit q ∧ target = .existing q ∧
      ¬((readep V s.disk q).isDirectory = true ∧
        (readep V s.disk q).deStartCluster = tddep.startCluster)) ∨
    (∀ q, search V s tddep tndp.dosfn ≠ .hit q) ∧
      target = .free (search V s tddep tndp.dosfn).slot := by
  unfold lookupTarget at hok
  split_ifs at hok
  cases hsearch : search V s tddep tndp.dosfn with
  | hit q =>
    rw [hsearch] at hok
    dsimp only at hok
    split_ifs at hok with hself
    cases hok
    exact Or.inl ⟨q, rfl, rfl, hself⟩
  | stop slot =>
    rw [hsearch] at hok
    cases hok
    exact Or.inr ⟨fun q hq ↦ (by cases hq), rfl⟩
  | next slot =>
    rw [hsearch] at hok
    cases hok
    exact Or.inr ⟨fun q hq ↦ (by cases hq), rfl⟩

/-- A target that was removed is of the kind of the source, and empty if it is a directory. -/
theorem removeTarget_ok (hok : removeTarget V s sourceisadirectory (.existing q) = .ok (disk,
    slot)) :
    disk = markdeleted V s.disk q ∧ slot = some (place (readep V s.disk q) q) ∧
      (readep V s.disk q).isDirectory = sourceisadirectory ∧
      (sourceisadirectory = true →
        dosdirempty V s (readep V s.disk q).deStartCluster = true) := by
  unfold removeTarget at hok
  dsimp only at hok
  by_cases hdirectory : (readep V s.disk q).isDirectory = true
  · rw [if_pos hdirectory] at hok
    split_ifs at hok with hkind hempty
    cases hok
    have hsource : sourceisadirectory = true := by simpa using hkind
    exact ⟨rfl, rfl, hdirectory.trans hsource.symm, fun _ ↦ by simpa using hempty⟩
  · rw [if_neg hdirectory] at hok
    split_ifs at hok with hkind
    cases hok
    have hsource : sourceisadirectory = false := by simpa using hkind
    refine ⟨rfl, rfl, ?_, fun htrue ↦ absurd (hsource.symm.trans htrue) (by decide)⟩
    rw [hsource]
    exact Bool.eq_false_iff.mpr hdirectory

/-- The last part of a call that succeeds. -/
theorem finish_ok {toname : List Byte}
    (hok : (removeTarget V s sourceisadirectory target >>= fun r ↦
      if fddep.startCluster ≠ tddep.startCluster then
        moveEntry V { s with disk := r.1 } fdep tddep toname r.2
      else .ok (renameEntry V { s with disk := r.1 } fdep toname)) = .ok (s', fdep')) :
    ∃ disk slot, removeTarget V s sourceisadirectory target = .ok (disk, slot) ∧
      (fddep.startCluster = tddep.startCluster ∧
          renameEntry V { s with disk := disk } fdep toname = (s', fdep') ∨
        fddep.startCluster ≠ tddep.startCluster ∧
          moveEntry V { s with disk := disk } fdep tddep toname slot = .ok (s', fdep')) := by
  cases hremove : removeTarget V s sourceisadirectory target with
  | error e =>
    rw [hremove] at hok
    cases hok
  | ok r =>
    rw [hremove] at hok
    change (if fddep.startCluster ≠ tddep.startCluster then _ else _) = _ at hok
    refine ⟨r.1, r.2, rfl, ?_⟩
    by_cases hparent : fddep.startCluster = tddep.startCluster
    · rw [if_neg (not_not.mpr hparent)] at hok
      exact Or.inl ⟨hparent, Except.ok.inj hok⟩
    · rw [if_pos hparent] at hok
      exact Or.inr ⟨hparent, hok⟩

/-- A call that succeeds. -/
theorem pcfsRename_ok (hok : pcfsRename V s fddep tddep fdep fndp tndp = .ok (s', fdep')) :
    ∃ target disk slot, lookupTarget V s tddep tndp = .ok target ∧
      removeTarget V s fdep.de.isDirectory target = .ok (disk, slot) ∧
      (fddep.startCluster = tddep.startCluster ∧
          renameEntry V { s with disk := disk } fdep tndp.dosfn = (s', fdep') ∨
        fddep.startCluster ≠ tddep.startCluster ∧
          moveEntry V { s with disk := disk } fdep tddep tndp.dosfn slot = .ok (s', fdep')) := by
  unfold pcfsRename at hok
  cases htarget : lookupTarget V s tddep tndp with
  | error e =>
    rw [htarget] at hok
    cases hok
  | ok target =>
    rw [htarget] at hok
    simp only [bind, Except.bind] at hok
    refine ⟨target, ?_⟩
    suffices hfinish : ∃ disk slot, removeTarget V s fdep.de.isDirectory target = .ok (disk, slot) ∧
        (fddep.startCluster = tddep.startCluster ∧
            renameEntry V { s with disk := disk } fdep tndp.dosfn = (s', fdep') ∨
          fddep.startCluster ≠ tddep.startCluster ∧
            moveEntry V { s with disk := disk } fdep tddep tndp.dosfn slot = .ok (s', fdep')) by
      obtain ⟨disk, slot, hremove, hend⟩ := hfinish
      exact ⟨disk, slot, rfl, hremove, hend⟩
    by_cases hself : fdep.de.isDirectory = true ∧
        (fndp.isDot = true ∨ fddep.startCluster = fdep.de.deStartCluster ∨ fndp.isdotdot = true)
    · rw [if_pos hself] at hok
      cases hok
    rw [if_neg hself] at hok
    by_cases hcheck : fdep.de.isDirectory = true ∧ fddep.startCluster ≠ tddep.startCluster
    · rw [if_pos hcheck] at hok
      cases hpath : doscheckpath V s.disk fdep.de.deStartCluster tddep with
      | error e =>
        rw [hpath] at hok
        cases hok
      | ok _ =>
        rw [hpath] at hok
        exact finish_ok hok
    · rw [if_neg hcheck] at hok
      exact finish_ok hok

/-- What moving an entry has done. -/
theorem moveEntry_ok {toname : List Byte}
    (hok : moveEntry V s fdep tddep toname slot = .ok (s', fdep')) :
    ∃ de made, createde V s tddep de slot = .ok made ∧ de.deName = toname ∧
      de.deAttributes = fdep.de.deAttributes ∧
      s' = ⟨made.2.fat, fixDotdot V (markdeleted V made.2.disk fdep.pos) fdep tddep⟩ ∧
      fdep' = ⟨fdep.de.rename toname, made.1⟩ := by
  unfold moveEntry at hok
  dsimp only at hok
  obtain ⟨de, hde⟩ : ∃ de, de = if fdep.de.isDirectory = true then
    { fdep.de.rename toname with deFileSize := 0 } else fdep.de.rename toname := ⟨_, rfl⟩
  rw [← hde] at hok
  cases hcreate : createde V s tddep de slot with
  | error e =>
    rw [hcreate] at hok
    cases hok
  | ok made =>
    rw [hcreate] at hok
    cases hok
    refine ⟨de, made, hcreate, ?_, ?_, rfl, rfl⟩
    · rw [hde]
      split_ifs <;> rfl
    · rw [hde]
      split_ifs <;> rfl

/-! ## Created entries -/

/-- A slot whose cluster is in use. -/
def InUse (V : Volume) (s : State) (pos : Pos) : Prop :=
  Valid V pos ∧ (pos.1 = pcfsroot ∨ s.fat.entry pos.1 ≠ pcfsfree)

/-- An entry was created in a slot. -/
structure Created (V : Volume) (s : State) (de : Direntry) (r : Pos) (s' : State) : Prop where
  valid : Valid V r
  here : readep V s'.disk r = de
  others : ∀ x, InUse V s x → x ≠ r → readep V s'.disk x = readep V s.disk x

/-- A slot of a directory is in use. -/
theorem Tree.inUse (htree : Tree V s dir chain) (hpos : p ∈ slotsOf V (dir fd) (chain fd)) :
    InUse V s p := by
  refine ⟨htree.valid hpos, ?_⟩
  rcases mem_slotsOf hpos with ⟨-, hroot, -⟩ | ⟨-, hmem, -⟩
  · exact Or.inl hroot
  · exact Or.inr ((htree.holds fd).ne_free hmem)

theorem createde_some {de : Direntry} {r : Pos} {made : Pos × State} (hlayout : Layout V)
    (hvalid : Valid V r) (hok : createde V s tddep de (some r) = .ok made) :
    made.1 = r ∧ made.2.fat = s.fat ∧ Created V s de r made.2 := by
  cases hok
  exact ⟨rfl, rfl, hvalid, readep_writeep_self,
    fun x hx hne ↦ readep_writeep hlayout hvalid hx.1 hne⟩

/-- The first cluster of a chain is where the file starts. -/
theorem fileChain_start {entry : ℕ → ℕ} {start c : ℕ} {l : List ℕ}
    (hchain : FileChain entry start (c :: l)) : start = c :=
  hchain.elim (fun h ↦ absurd h.2 (List.cons_ne_nil c l)) fun h ↦ h.2.2.1

/-- A directory without a free slot gets a cluster. -/
theorem createde_none {de : Direntry} {l : List ℕ} {made : Pos × State} (hlayout : Layout V)
    (haccounts : Accounts V s.fat) (hholds : Holds V s.fat.entry tddep l)
    (hroot : tddep.root = true ↔ tddep.startCluster = pcfsroot)
    (hok : createde V s tddep de none = .ok made) :
    ∃ cn, tddep.startCluster ≠ pcfsroot ∧ cn ∈ free V s.fat ∧ made.1 = (cn, 0) ∧
      Holds V made.2.fat.entry (directoryAt tddep.startCluster) (l ++ [cn]) ∧
      (∀ c, c ∉ l → c ∉ l ++ [cn] → made.2.fat.entry c = s.fat.entry c) ∧
      Created V s de (cn, 0) made.2 := by
  rw [createde] at hok
  by_cases hstart : tddep.startCluster = pcfsroot
  · rw [extendfile, if_pos (hroot.mpr hstart)] at hok
    cases hok
  have hnotroot : tddep.root = false := Bool.eq_false_iff.mpr fun h ↦ hstart (hroot.mp h)
  rcases extendfile_spec haccounts hholds hnotroot with ⟨dep', hrun, -⟩ | hsome
  · rw [hrun] at hok
    cases hok
  obtain ⟨cn, dep', fat, hrun, hcn, -, hchanges⟩ := hsome
  rw [hrun] at hok
  cases hok
  have hhas := (mem_free.mp hcn).1
  have hstart' : dep'.startCluster = tddep.startCluster := by
    have hchain := hchanges.holds.chain
    cases l with
    | nil => exact absurd rfl (hholds.chain.chain hstart).1
    | cons c l => rw [fileChain_start hchain, fileChain_start hholds.chain]
  have hvalid : Valid V (cn, 0) := Or.inr ⟨hhas, hlayout.depclust_pos⟩
  refine ⟨cn, hstart, hcn, rfl, ?_, hchanges.frame, hvalid, readep_writeep_self, ?_⟩
  · rw [← hstart']
    exact holds_directoryAt hchanges.holds
  · intro x hx hne
    rw [readep_writeep hlayout hvalid hx.1 hne, readep, if_neg, readep]
    -- a slot of the new cluster is not in use
    intro hbn
    rcases hx.1 with ⟨hxroot, hlt⟩ | ⟨hxhas, -⟩
    · have hfront := detobn_root_lt hlayout hxroot hlt
      have hback := cntobn_ge hlayout cn
      rw [hbn] at hfront
      exact Nat.not_lt.mpr hback hfront
    · rw [detobn, if_neg (show x.1 ≠ pcfsroot from hxhas.ne_free)] at hbn
      rcases hx.2 with hxroot | hused
      · exact hxhas.ne_free hxroot
      · rw [cntobn_inj hxhas hhas hbn] at hused
        exact hused (mem_free.mp hcn).2

end Bsd386.Dosfs.Rename
