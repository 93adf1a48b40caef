import Bsd386.Dosfs.Rename.Success

/-!
# What becomes of a name

What is to hold behind a successful `pcfs_rename`. It holds for files that are not renamed to
themselves; a directory stays where it is, as its denode does not tell where its entry lies.
-/

namespace Bsd386.Dosfs.Rename

open Slots Names

variable {V : Volume} {s s' : State} {D : Type*} {dir : D → Denode} {chain : D → List ℕ} {fd td : D}
  {p q : Pos} {fdep fdep' : Node} {fndp tndp : Nameidata} {disk : Disk} {slot : Option Pos}
  {target : Target}

/-- A call of `pcfs_rename` for a name other than `.` and `..`: its denode is what `deget` has made
of the entry. A root directory that the entry is in has a slot that was never used, and the search
for the target does not go beyond the root directory. -/
structure Call (V : Volume) (s : State) (dir : D → Denode) (chain : D → List ℕ) (fd td : D)
    (p : Pos)
    (fdep : Node) (fndp tndp : Nameidata) : Prop where
  tree : Tree V s dir chain
  source : search V s (dir fd) fndp.dosfn = .hit p
  pos_eq : fdep.pos = place (readep V s.disk p) p
  isDirectory_eq : fdep.de.isDirectory = (readep V s.disk p).isDirectory
  isVolume_eq : fdep.de.isVolume = (readep V s.disk p).isVolume
  start_eq : fdep.de.isDirectory = true →
    fdep.de.deStartCluster = (readep V s.disk p).deStartCluster
  proper : notDots (readep V s.disk p) = true
  marker : (dir fd).startCluster = pcfsroot →
    ∃ x ∈ slotsOf V (dir fd) (chain fd), marks.ends (readep V s.disk x) = true
  stays : (dir td).startCluster = pcfsroot →
    search V s (dir td) tndp.dosfn = find V s (dir td) (chain td) (named tndp.dosfn)

/-- One name was moved: the old one is absent, the new one leads to the denode, which tells where
its entry is, the entries of a moved directory for itself and its parent are right, and no other
entry is changed. -/
structure Moved (V : Volume) (s s' : State) (fddep tddep : Denode) (p : Pos) (fdep fdep' : Node)
    (fndp tndp : Nameidata) : Prop where
  absent : ∀ q, search V s' (directoryAt fddep.startCluster) fndp.dosfn ≠ .hit q
  denotes : ∃ q, search V s' (directoryAt tddep.startCluster) tndp.dosfn = .hit q ∧
    deget fdep' q (readep V s'.disk q) = fdep' ∧ fdep'.pos = place (readep V s'.disk q) q ∧
    fdep'.de.deStartCluster = fdep.de.deStartCluster ∧
    fdep'.de.deAttributes = fdep.de.deAttributes ∧ fdep'.de.deFileSize = fdep.de.deFileSize
  dots : fdep.de.isDirectory = true →
    (readep V s'.disk (fdep.de.deStartCluster, 0)).deName = dotName ∧
    (readep V s'.disk (fdep.de.deStartCluster, 0)).deStartCluster = fdep.de.deStartCluster ∧
    (readep V s'.disk (fdep.de.deStartCluster, 1)).deName = dotdotName ∧
    (readep V s'.disk (fdep.de.deStartCluster, 1)).deStartCluster = tddep.startCluster
  others : ∀ x, InUse V s x → x ≠ p → search V s tddep tndp.dosfn ≠ .hit x →
    search V s' (directoryAt tddep.startCluster) tndp.dosfn ≠ .hit x →
    (fdep.de.isDirectory = true → x ≠ (fdep.de.deStartCluster, 1)) →
      readep V s'.disk x = readep V s.disk x

namespace Call

variable (hcall : Call V s dir chain fd td p fdep fndp tndp)

include hcall

/-- The source is an entry in use. -/
theorem visible : Visible marks (readep V s.disk) (slotsOf V (dir fd) (chain fd)) p ∧
    named fndp.dosfn (readep V s.disk p) = true := by
  have htree := hcall.tree
  have hsource := hcall.source
  rw [search, searchClusters_find htree.layout (htree.holds fd) (htree.directory fd)] at hsource
  · exact look_hit hsource
  · intro hstart slot hnext
    obtain ⟨x, hx, hends⟩ := hcall.marker hstart
    rw [ends_of_look_next hnext x hx] at hends
    cases hends

/-- The search for the target stays in its directory. -/
theorem search_target :
    search V s (dir td) tndp.dosfn = find V s (dir td) (chain td) (named tndp.dosfn) := by
  by_cases hstart : (dir td).startCluster = pcfsroot
  · exact hcall.stays hstart
  · exact searchClusters_find hcall.tree.layout (hcall.tree.holds td) (hcall.tree.directory td)
      fun hroot ↦ absurd hroot hstart

/-- The target is an entry in use. -/
theorem target_visible (htarget : search V s (dir td) tndp.dosfn = .hit q) :
    Visible marks (readep V s.disk) (slotsOf V (dir td) (chain td)) q ∧
      named tndp.dosfn (readep V s.disk q) = true := by
  rw [hcall.search_target] at htarget
  exact look_hit htarget

/-- The denode of a file tells where its entry is. -/
theorem pos_file (hfile : fdep.de.isDirectory = false) : fdep.pos = p := by
  rw [hcall.pos_eq, place, if_neg]
  rw [← hcall.isDirectory_eq, hfile]
  exact Bool.false_ne_true

/-- A directory is known by its first cluster, which is none of the directory that its entry is in.
-/
theorem pos_directory (hdirectory : fdep.de.isDirectory = true) :
    fdep.pos = (fdep.de.deStartCluster, 0) ∧ V.Has fdep.de.deStartCluster ∧
      fdep.de.deStartCluster ∉ chain fd := by
  have hkind : (readep V s.disk p).isDirectory = true := hcall.isDirectory_eq ▸ hdirectory
  have hstart := hcall.start_eq hdirectory
  obtain ⟨e, hne, hchild, hroot⟩ := hcall.tree.child fd p hcall.visible.1 hkind hcall.proper
  have hmem : fdep.de.deStartCluster ∈ chain e := by
    rw [hstart, ← hchild]
    exact hcall.tree.start_mem hroot
  refine ⟨?_, (hcall.tree.holds e).has _ hmem, hcall.tree.disjoint e fd hne _ hmem⟩
  rw [hcall.pos_eq, place, if_pos hkind, ← hchild, if_neg hroot, hchild, hstart]

/-! ## The target -/

/-- The entries behind the removal of the target. -/
theorem readep_removed (hlookup : lookupTarget V s (dir td) tndp = .ok target)
    (hremove : removeTarget V s fdep.de.isDirectory target = .ok (disk, slot)) {x : Pos}
    (hx : Valid V x) :
    readep V disk x = if search V s (dir td) tndp.dosfn = .hit x then (readep V s.disk x).delete
      else readep V s.disk x := by
  rcases lookupTarget_ok hlookup with ⟨q, hsearch, rfl, -⟩ | ⟨hmiss, rfl⟩
  · obtain ⟨rfl, -⟩ := removeTarget_ok hremove
    have hq := hcall.tree.valid (hcall.target_visible hsearch).1.reached.mem
    rw [hsearch]
    by_cases hxq : x = q
    · rw [hxq, if_pos rfl, readep_markdeleted_self]
    · rw [readep_markdeleted hcall.tree.layout hq hx hxq, if_neg]
      exact fun hsame ↦ hxq (by cases hsame; rfl)
  · rw [if_neg (hmiss x)]
    cases hremove
    rfl

/-- An entry that the search does not find is not the target. -/
theorem not_target (hmiss : search V s (dir td) tndp.dosfn ≠ .hit q)
    (hq : Visible marks (readep V s.disk) (slotsOf V (dir td) (chain td)) q) :
    named tndp.dosfn (readep V s.disk q) = false := by
  refine Bool.eq_false_iff.mpr fun hhit ↦ hmiss ?_
  obtain ⟨x, hlook⟩ := exists_hit hq hhit none
  obtain ⟨hx, hhitx⟩ := look_hit hlook
  rw [hcall.search_target, find, hlook, hcall.tree.once td tndp.dosfn x q hx hq hhitx hhit]

/-! ## A file in its directory -/

/-- A file that gets another name in its directory. -/
theorem renamed_file (hsame : fd = td) (hnames : fndp.dosfn ≠ tndp.dosfn)
    (hfile : fdep.de.isDirectory = false)
    (hlookup : lookupTarget V s (dir td) tndp = .ok target)
    (hremove : removeTarget V s fdep.de.isDirectory target = .ok (disk, slot))
    (hok : renameEntry V { s with disk := disk } fdep tndp.dosfn = (s', fdep')) :
    Moved V s s' (dir fd) (dir td) p fdep fdep' fndp tndp := by
  subst hsame
  obtain ⟨hp, hfname⟩ := hcall.visible
  have hvalid := hcall.tree.valid hp.reached.mem
  have hnot : search V s (dir fd) tndp.dosfn ≠ .hit p := by
    intro hsearch
    have htname := (hcall.target_visible hsearch).2
    exact hnames ((named_iff.mp hfname).2.trans (named_iff.mp htname).2.symm)
  have hremoved := fun x hx ↦ hcall.readep_removed hlookup hremove (x := x) hx
  rw [renameEntry, hcall.pos_file hfile] at hok
  dsimp only at hok
  rw [hremoved p hvalid, if_neg hnot] at hok
  obtain ⟨rfl, rfl⟩ := Prod.mk.inj hok
  obtain ⟨disk', hdisk'⟩ : ∃ disk', disk' =
    writeep V disk p ((readep V s.disk p).rename tndp.dosfn) := ⟨_, rfl⟩
  rw [← hdisk']
  have hself : readep V disk' p = (readep V s.disk p).rename tndp.dosfn := by
    rw [hdisk', readep_writeep_self]
  have hother : ∀ x, Valid V x → x ≠ p → readep V disk' x =
      if search V s (dir fd) tndp.dosfn = .hit x then (readep V s.disk x).delete
      else readep V s.disk x := by
    intro x hx hne
    rw [hdisk', readep_writeep hcall.tree.layout hvalid hx hne, hremoved x hx]
  have htarget : ∀ x, search V s (dir fd) tndp.dosfn = .hit x →
      marks.ends (readep V s.disk x) = false := fun x hx ↦
    (hcall.target_visible hx).1.reached.ends_eq
  have hends : ∀ x ∈ slotsOf V (dir fd) (chain fd),
      marks.ends (readep V disk' x) = marks.ends (readep V s.disk x) := by
    intro x hx
    by_cases hxp : x = p
    · rw [hxp, hself, ends_rename, hp.reached.ends_eq]
    · rw [hother x (hcall.tree.valid hx) hxp]
      split_ifs with hhit
      · rw [(delete_marks (htarget x hhit)).1, htarget x hhit]
      · rfl
  have hnamed : named tndp.dosfn (readep V disk' p) = true := by
    rw [hself]
    exact named_iff.mpr ⟨(named_iff.mp hfname).1, rfl⟩
  have hboth := renamed_found (hcall.tree.once fd fndp.dosfn) hnames hp hfname hends
    (by rw [hself, gone_rename]) hnamed (fun x hx hne ↦ ?_) none
  · have hmoved : search V { s with disk := disk' } (directoryAt (dir fd).startCluster)
        tndp.dosfn = .hit p :=
      search_found hcall.tree.layout (hcall.tree.holds fd) hboth.2
    have hplace : p = place (readep V disk' p) p := by
      rw [hself, place, if_neg]
      change ¬(readep V s.disk p).isDirectory = true
      rw [← hcall.isDirectory_eq, hfile]
      exact Bool.false_ne_true
    refine ⟨?_, ⟨p, hmoved, if_pos hplace, hplace, rfl, rfl, rfl⟩, ?_, ?_⟩
    · refine search_absent hcall.tree.layout (hcall.tree.holds fd) hboth.1 fun hstart ↦ ?_
      obtain ⟨x, hx, hmarker⟩ := hcall.marker hstart
      exact ⟨x, hx, (hends x hx).trans hmarker⟩
    · exact fun hdirectory ↦ absurd (hfile.symm.trans hdirectory) (by decide)
    · intro x hx hne hmiss _ _
      rw [hother x hx.1 hne, if_neg hmiss]
  · rw [hother x (hcall.tree.valid hx) hne]
    split_ifs with hhit
    · exact Or.inl (delete_marks (htarget x hhit)).2
    · exact Or.inr ⟨rfl, hcall.not_target hhit⟩

/-! ## A new entry -/

/-- The slot of a new entry does not belong to the directory of the source, and the source's
directory keeps its clusters. -/
theorem created (hne : fd ≠ td) (hlookup : lookupTarget V s (dir td) tndp = .ok target)
    (hremove : removeTarget V s fdep.de.isDirectory target = .ok (disk, slot)) {de : Direntry}
    {made : Pos × State}
    (hcreate : createde V { s with disk := disk } (dir td) de slot = .ok made) :
    Created V { s with disk := disk } de made.1 made.2 ∧
      made.1 ∉ slotsOf V (dir fd) (chain fd) ∧
      Holds V made.2.fat.entry (dir fd) (chain fd) := by
  have htree := hcall.tree
  have hknown : ∀ r, slot = some r → Valid V r → r ∉ slotsOf V (dir fd) (chain fd) →
      Created V { s with disk := disk } de made.1 made.2 ∧
        made.1 ∉ slotsOf V (dir fd) (chain fd) ∧
        Holds V made.2.fat.entry (dir fd) (chain fd) := by
    rintro r rfl hvalid hapart
    obtain ⟨hr, hfat, hcreated⟩ := createde_some htree.layout hvalid hcreate
    refine ⟨hr ▸ hcreated, hr ▸ hapart, ?_⟩
    rw [hfat]
    exact htree.holds fd
  rcases lookupTarget_ok hlookup with ⟨q, hsearch, rfl, hself⟩ | ⟨hmiss, rfl⟩
  · obtain ⟨hq, hhit⟩ := hcall.target_visible hsearch
    obtain ⟨rfl, hslot, hkind, hempty⟩ := removeTarget_ok hremove
    by_cases hdirectory : (readep V s.disk q).isDirectory = true
    · -- a directory that is removed is empty, so it is not the one that the source is in
      have hempty' := hempty (hkind.symm.trans hdirectory)
      have hnonempty : ∀ e pos, (dir e).startCluster = (readep V s.disk q).deStartCluster →
          Visible marks (readep V s.disk) (slotsOf V (dir e) (chain e)) pos →
          notDots (readep V s.disk pos) = true → False := by
        intro e pos hstart hvisible hdots
        have hfull := dosdirempty_eq_false htree.layout (htree.holds e) hvisible hdots
        rw [hstart, hempty'] at hfull
        cases hfull
      by_cases hdots : notDots (readep V s.disk q) = true
      · obtain ⟨e, -, hstart, hroot⟩ := htree.child td q hq hdirectory hdots
        have hmem := htree.start_mem hroot
        have hplace : place (readep V s.disk q) q = ((dir e).startCluster, 0) := by
          rw [place, if_pos hdirectory, ← hstart, if_neg hroot]
        refine hknown _ (hslot.trans (congrArg some hplace))
          (Or.inr ⟨(htree.holds e).has _ hmem, htree.layout.depclust_pos⟩) fun hin ↦ ?_
        have hefd : e ≠ fd := by
          rintro rfl
          exact hnonempty e p hstart hcall.visible.1 hcall.proper
        rcases mem_slotsOf hin with ⟨-, hzero, -⟩ | ⟨-, hchain, -⟩
        · exact hroot hzero
        · exact htree.disjoint e fd hefd _ hmem hchain
      · exfalso
        obtain ⟨e, hstart, hparent⟩ :=
          htree.parent td q hq hdirectory (Bool.eq_false_iff.mpr hdots)
        rcases hparent with rfl | ⟨pos, hvisible, hnotdots⟩
        · exact hself ⟨hdirectory, hstart.symm⟩
        · exact hnonempty e pos hstart hvisible hnotdots
    · rw [place, if_neg hdirectory] at hslot
      exact hknown q hslot (htree.valid hq.reached.mem)
        (htree.slots_disjoint (Ne.symm hne) hq.reached.mem)
  · cases hremove
    cases hslot : (search V s (dir td) tndp.dosfn).slot with
    | some r =>
      have hmem : r ∈ slotsOf V (dir td) (chain td) := by
        rw [hcall.search_target] at hslot
        exact (look_slot_mem hslot).resolve_left (Option.some_ne_none r).symm
      exact hknown r hslot (htree.valid hmem) (htree.slots_disjoint (Ne.symm hne) hmem)
    | none =>
      rw [hslot] at hcreate
      obtain ⟨cn, -, hcn, hr, -, hframe, hcreated⟩ := createde_none htree.layout htree.accounts
        (htree.holds td) (htree.root_iff td) hcreate
      have hfree : ∀ e, cn ∉ chain e := fun e hmem ↦
        (htree.holds e).ne_free hmem (mem_free.mp hcn).2
      rw [hr]
      refine ⟨hcreated, fun hin ↦ ?_, (htree.holds fd).congr fun c hc ↦ ?_⟩
      · rcases mem_slotsOf hin with ⟨-, hzero, -⟩ | ⟨-, hchain, -⟩
        · exact (mem_free.mp hcn).1.ne_free hzero
        · exact hfree fd hchain
      · refine hframe c (htree.disjoint fd td hne c hc) fun hmem ↦ ?_
        rcases List.mem_append.mp hmem with hmem | hmem
        · exact htree.disjoint fd td hne c hc hmem
        · exact hfree fd (List.mem_singleton.mp hmem ▸ hc)

/-- A new entry for a file is found in the directory of the target. -/
theorem created_found (hfile : fdep.de.isDirectory = false)
    (hlookup : lookupTarget V s (dir td) tndp = .ok target)
    (hremove : removeTarget V s fdep.de.isDirectory target = .ok (disk, slot)) {de : Direntry}
    {made : Pos × State} (hcreate : createde V { s with disk := disk } (dir td) de slot = .ok made)
    (f' : Pos → Direntry) (hends : marks.ends (f' made.1) = false)
    (hhere : marks.gone (f' made.1) = false) (hnamed : named tndp.dosfn (f' made.1) = true)
    (hothers : ∀ x ∈ slotsOf V (dir td) (chain td), x ≠ made.1 →
      search V s (dir td) tndp.dosfn ≠ .hit x → f' x = readep V s.disk x) :
    ∃ l, Holds V made.2.fat.entry (directoryAt (dir td).startCluster) l ∧
      look marks (named tndp.dosfn) f' (slotsOf V (dir td) l) none = .hit made.1 := by
  have htree := hcall.tree
  have hholds := holds_directoryAt (htree.holds td)
  have hsearch := hcall.search_target
  rcases lookupTarget_ok hlookup with ⟨q, hhit, rfl, -⟩ | ⟨hmiss, rfl⟩
  · obtain ⟨hq, hhitq⟩ := hcall.target_visible hhit
    obtain ⟨-, hslot, hkind, -⟩ := removeTarget_ok hremove
    have hplace : place (readep V s.disk q) q = q := by
      rw [place, hkind, hfile]
      rfl
    rw [hslot, hplace] at hcreate
    obtain ⟨hmade, hfat, -⟩ := createde_some htree.layout (htree.valid hq.reached.mem) hcreate
    rw [hmade] at hends hhere hnamed hothers ⊢
    have hsame : ∀ x ∈ slotsOf V (dir td) (chain td), x ≠ q → f' x = readep V s.disk x := by
      intro x hx hne
      refine hothers x hx hne fun hhitx ↦ hne ?_
      rw [hhit] at hhitx
      cases hhitx
      rfl
    refine ⟨chain td, hfat ▸ hholds, overwritten_found (htree.once td tndp.dosfn) hq hhitq
      (fun x hx ↦ ?_) hhere hnamed hsame none⟩
    by_cases hxq : x = q
    · rw [hxq, hends, hq.reached.ends_eq]
    · rw [hsame x hx hxq]
  · cases hremove
    have hmiss' : ∀ x, find V s (dir td) (chain td) (named tndp.dosfn) ≠ .hit x :=
      fun x ↦ hsearch ▸ hmiss x
    have hsame : ∀ x ∈ slotsOf V (dir td) (chain td), x ≠ made.1 → f' x = readep V s.disk x :=
      fun x hx hne ↦ hothers x hx hne (hmiss x)
    cases hslot : (search V s (dir td) tndp.dosfn).slot with
    | some r =>
      have hslot' := hslot
      rw [hsearch] at hslot'
      rw [hslot] at hcreate
      obtain ⟨rfl⟩ : made = (r, { s with disk := writeep V s.disk r de }) := by
        cases hcreate
        rfl
      exact ⟨chain td, hholds, look_put hmiss' hslot' hsame hends hhere hnamed none⟩
    | none =>
      have hslot' := hslot
      rw [hsearch] at hslot'
      rw [hslot] at hcreate
      obtain ⟨cn, hstart, hcn, hmade, hholds', -⟩ := createde_none htree.layout htree.accounts
        (htree.holds td) (htree.root_iff td) hcreate
      have hend := look_eq_next hmiss' hslot'
      have hold : look marks (named tndp.dosfn) f' (slotsOf V (dir td) (chain td)) none =
          .next none := by
        refine (look_congr fun x hx ↦ hsame x hx ?_).trans hend
        rintro rfl
        rcases mem_slotsOf hx with ⟨hroot, -⟩ | ⟨-, hmem, -⟩
        · exact hstart hroot
        · rw [hmade] at hmem
          exact (htree.holds td).ne_free hmem (mem_free.mp hcn).2
      refine ⟨chain td ++ [cn], hholds', ?_⟩
      rw [slotsOf, if_neg hstart] at hold ⊢
      rw [chainSlots, List.flatMap_append, look_append]
      rw [chainSlots] at hold
      rw [hold]
      change look marks (named tndp.dosfn) f' ([cn].flatMap fun c ↦ slotsAt V c 0) none = _
      obtain ⟨n, hn⟩ := Nat.exists_eq_add_of_lt htree.layout.depclust_pos
      rw [List.flatMap_singleton, slotsAt, hn, Nat.zero_add, List.range_succ_eq_map, List.map_cons]
      rw [hmade] at hends hhere hnamed ⊢
      rw [look, if_neg, if_neg, if_pos hnamed]
      · rw [hhere]
        exact Bool.false_ne_true
      · rw [hends]
        exact Bool.false_ne_true

/-! ## A file that is moved -/

/-- A file that is moved to another directory. -/
theorem moved_file (hne : fd ≠ td) (hfile : fdep.de.isDirectory = false)
    (hlookup : lookupTarget V s (dir td) tndp = .ok target)
    (hremove : removeTarget V s fdep.de.isDirectory target = .ok (disk, slot))
    (hok : moveEntry V { s with disk := disk } fdep (dir td) tndp.dosfn slot = .ok (s', fdep')) :
    Moved V s s' (dir fd) (dir td) p fdep fdep' fndp tndp := by
  have htree := hcall.tree
  obtain ⟨hp, hfname⟩ := hcall.visible
  obtain ⟨de, made, hcreate, hname, hattr, hs', rfl⟩ := moveEntry_ok hok
  obtain ⟨hcreated, hapart, hholds⟩ := hcall.created hne hlookup hremove hcreate
  have hremoved := fun x hx ↦ hcall.readep_removed hlookup hremove (x := x) hx
  have hpmade : p ≠ made.1 := fun heq ↦ hapart (heq ▸ hp.reached.mem)
  have hvalid := htree.valid hp.reached.mem
  have hsource : ∀ x ∈ slotsOf V (dir fd) (chain fd), search V s (dir td) tndp.dosfn ≠ .hit x :=
    fun x hx hhit ↦ htree.slots_disjoint hne hx (hcall.target_visible hhit).1.reached.mem
  have hdisk' : ∀ x, Valid V x → readep V s'.disk x =
      readep V (markdeleted V made.2.disk p) x := by
    intro x hx
    rw [hs', hcall.pos_file hfile]
    exact readep_fixDotdot htree.layout hx (fun h ↦ absurd (hfile.symm.trans h) (by decide))
      fun h ↦ absurd (hfile.symm.trans h) (by decide)
  have hother : ∀ x, InUse V s x → x ≠ p → x ≠ made.1 → readep V s'.disk x =
      if search V s (dir td) tndp.dosfn = .hit x then (readep V s.disk x).delete
      else readep V s.disk x := by
    intro x hx hxp hxmade
    rw [hdisk' x hx.1, readep_markdeleted htree.layout hvalid hx.1 hxp, ← hremoved x hx.1]
    exact hcreated.others x hx hxmade
  have hself : readep V s'.disk p = (readep V s.disk p).delete := by
    have hkept : readep V made.2.disk p = readep V s.disk p := by
      refine (hcreated.others p (htree.inUse hp.reached.mem) hpmade).trans ?_
      rw [hremoved p hvalid, if_neg (hsource p hp.reached.mem)]
    rw [hdisk' p hvalid, readep_markdeleted_self, hkept]
  have hnew : readep V s'.disk made.1 = de := by
    rw [hdisk' _ hcreated.valid, readep_markdeleted htree.layout hvalid hcreated.valid hpmade.symm]
    exact hcreated.here
  have hde : de = de.rename tndp.dosfn := by
    rw [← hname]
    rfl
  have hnamed : named tndp.dosfn (readep V s'.disk made.1) = true := by
    have hvolume : de.isVolume = (readep V s.disk p).isVolume := by
      rw [← hcall.isVolume_eq, Direntry.isVolume, hattr]
      rfl
    rw [hnew]
    exact named_iff.mpr ⟨hvolume.trans (named_iff.mp hfname).1, hname.symm⟩
  obtain ⟨l, hholdsl, hfound⟩ := hcall.created_found hfile hlookup hremove hcreate
    (readep V s'.disk) (by rw [hnew, hde, ends_rename]) (by rw [hnew, hde, gone_rename]) hnamed
    fun x hx hxmade hmiss ↦ by
      have hxp : x ≠ p := fun heq ↦ htree.slots_disjoint hne hp.reached.mem (heq ▸ hx)
      rw [hother x (htree.inUse hx) hxp hxmade, if_neg hmiss]
  have hfat : s'.fat = made.2.fat := by rw [hs']
  have hmoved : search V s' (directoryAt (directoryAt (dir td).startCluster).startCluster)
      tndp.dosfn = .hit made.1 := search_found htree.layout (hfat ▸ hholdsl) hfound
  have hothers' : ∀ x ∈ slotsOf V (dir fd) (chain fd), x ≠ p →
      readep V s'.disk x = readep V s.disk x := by
    intro x hx hxp
    rw [hother x (htree.inUse hx) hxp fun heq ↦ hapart (heq ▸ hx), if_neg (hsource x hx)]
  have hends : ∀ x ∈ slotsOf V (dir fd) (chain fd),
      marks.ends (readep V s'.disk x) = marks.ends (readep V s.disk x) := by
    intro x hx
    by_cases hxp : x = p
    · rw [hxp, hself, (delete_marks hp.reached.ends_eq).1, hp.reached.ends_eq]
    · rw [hothers' x hx hxp]
  have hplace : made.1 = place (readep V s'.disk made.1) made.1 := by
    rw [hnew, place, if_neg]
    rw [Direntry.isDirectory, hattr]
    exact Bool.eq_false_iff.mp hfile
  refine ⟨?_, ⟨made.1, hmoved, if_pos hplace, hplace, rfl, rfl, rfl⟩, ?_, ?_⟩
  · refine search_absent htree.layout (hfat ▸ hholds) (deleted_absent (htree.once fd fndp.dosfn) hp
      hfname hends ?_ hothers' none) fun hstart ↦ ?_
    · rw [hself]
      exact (delete_marks hp.reached.ends_eq).2
    · obtain ⟨x, hx, hmarker⟩ := hcall.marker hstart
      exact ⟨x, hx, (hends x hx).trans hmarker⟩
  · exact fun hdirectory ↦ absurd (hfile.symm.trans hdirectory) (by decide)
  · intro x hx hxp hmiss hmiss' _
    have hxmade : x ≠ made.1 := fun heq ↦ hmiss' (heq ▸ hmoved)
    rw [hother x hx hxp hxmade, if_neg hmiss]

/-! ## A directory -/

/-- An entry of the source's directory that is as before is found. -/
theorem still_there (hholds : Holds V s'.fat.entry (dir fd) (chain fd))
    (hends : ∀ x ∈ slotsOf V (dir fd) (chain fd),
      marks.ends (readep V s'.disk x) = marks.ends (readep V s.disk x))
    (hself : readep V s'.disk p = readep V s.disk p) :
    ∃ q, search V s' (directoryAt (dir fd).startCluster) fndp.dosfn = .hit q := by
  obtain ⟨hp, hfname⟩ := hcall.visible
  have hp' : Visible marks (readep V s'.disk) (slotsOf V (dir fd) (chain fd)) p :=
    ⟨(Reached.congr hends).mpr hp.reached, hself ▸ hp.here⟩
  obtain ⟨q, hlook⟩ := exists_hit hp' (hself ▸ hfname) none
  exact ⟨q, search_found hcall.tree.layout hholds hlook⟩

/-- A slot of the source's directory does not belong to the directory that is renamed. -/
theorem apart_directory (hdirectory : fdep.de.isDirectory = true) (i : ℕ) :
    (fdep.de.deStartCluster, i) ∉ slotsOf V (dir fd) (chain fd) := by
  obtain ⟨-, hhas, hnot⟩ := hcall.pos_directory hdirectory
  intro hin
  rcases mem_slotsOf hin with ⟨-, hzero, -⟩ | ⟨-, hmem, -⟩
  · exact hhas.ne_free hzero
  · exact hnot hmem

/-- A directory that gets another name in its directory: the name goes into its entry for itself. -/
theorem directory_stays (hsame : fd = td) (hdirectory : fdep.de.isDirectory = true)
    (hlookup : lookupTarget V s (dir td) tndp = .ok target)
    (hremove : removeTarget V s fdep.de.isDirectory target = .ok (disk, slot))
    (hok : renameEntry V { s with disk := disk } fdep tndp.dosfn = (s', fdep')) :
    ¬Moved V s s' (dir fd) (dir td) p fdep fdep' fndp tndp := by
  subst hsame
  intro hmoved
  have htree := hcall.tree
  obtain ⟨hp, hfname⟩ := hcall.visible
  obtain ⟨hpos, hhas, -⟩ := hcall.pos_directory hdirectory
  have hvalid : Valid V fdep.pos := by
    rw [hpos]
    exact Or.inr ⟨hhas, htree.layout.depclust_pos⟩
  obtain ⟨rfl, -⟩ := Prod.mk.inj hok
  obtain ⟨disk', hdisk'⟩ : ∃ disk', disk' =
    writeep V disk fdep.pos ((readep V disk fdep.pos).rename tndp.dosfn) := ⟨_, rfl⟩
  dsimp only at hmoved
  rw [← hdisk'] at hmoved
  have hread : ∀ x ∈ slotsOf V (dir fd) (chain fd), readep V disk' x =
      if search V s (dir fd) tndp.dosfn = .hit x then (readep V s.disk x).delete
      else readep V s.disk x := by
    intro x hx
    have hne : x ≠ fdep.pos := by
      rintro rfl
      rw [hpos] at hx
      exact hcall.apart_directory hdirectory 0 hx
    rw [hdisk', readep_writeep htree.layout hvalid (htree.valid hx) hne]
    exact hcall.readep_removed hlookup hremove (htree.valid hx)
  have hends : ∀ x ∈ slotsOf V (dir fd) (chain fd),
      marks.ends (readep V disk' x) = marks.ends (readep V s.disk x) := by
    intro x hx
    rw [hread x hx]
    split_ifs with hhit
    · have hfalse := (hcall.target_visible hhit).1.reached.ends_eq
      rw [(delete_marks hfalse).1, hfalse]
    · rfl
  by_cases hhit : search V s (dir fd) tndp.dosfn = .hit p
  · -- the directory itself was the target, and its entry is removed
    obtain ⟨q, hfound, -⟩ := hmoved.denotes
    have hgone : marks.gone (readep V disk' p) = true := by
      rw [hread p hp.reached.mem, if_pos hhit]
      exact (delete_marks hp.reached.ends_eq).2
    have hothers : ∀ x ∈ slotsOf V (dir fd) (chain fd), x ≠ p →
        readep V disk' x = readep V s.disk x := by
      intro x hx hne
      rw [hread x hx, if_neg]
      intro hhitx
      rw [hhit] at hhitx
      exact hne (by cases hhitx; rfl)
    have habsent : ∀ q, search V { s with disk := disk' } (directoryAt (dir fd).startCluster)
        tndp.dosfn ≠ .hit q := by
      refine search_absent htree.layout (htree.holds fd) (deleted_absent (htree.once fd tndp.dosfn)
        hp (hcall.target_visible hhit).2 hends hgone hothers none) fun hstart ↦ ?_
      obtain ⟨x, hx, hmarker⟩ := hcall.marker hstart
      exact ⟨x, hx, (hends x hx).trans hmarker⟩
    exact habsent q hfound
  · have hself : readep V disk' p = readep V s.disk p := by
      rw [hread p hp.reached.mem, if_neg hhit]
    have hfound : ∃ q, search V { s with disk := disk' } (directoryAt (dir fd).startCluster)
        fndp.dosfn = .hit q := hcall.still_there (htree.holds fd) hends hself
    obtain ⟨q, hfound⟩ := hfound
    exact hmoved.absent q hfound

/-- A directory that is moved to another directory: its entry for itself is marked as deleted. -/
theorem directory_remains (hne : fd ≠ td) (hdirectory : fdep.de.isDirectory = true)
    (hlookup : lookupTarget V s (dir td) tndp = .ok target)
    (hremove : removeTarget V s fdep.de.isDirectory target = .ok (disk, slot))
    (hok : moveEntry V { s with disk := disk } fdep (dir td) tndp.dosfn slot = .ok (s', fdep')) :
    ¬Moved V s s' (dir fd) (dir td) p fdep fdep' fndp tndp := by
  have htree := hcall.tree
  obtain ⟨hp, -⟩ := hcall.visible
  obtain ⟨hpos, hhas, -⟩ := hcall.pos_directory hdirectory
  obtain ⟨de, made, hcreate, -, -, hs', -⟩ := moveEntry_ok hok
  obtain ⟨hcreated, hapart, hholds⟩ := hcall.created hne hlookup hremove hcreate
  have hvalid : Valid V fdep.pos := by
    rw [hpos]
    exact Or.inr ⟨hhas, htree.layout.depclust_pos⟩
  have hread : ∀ x ∈ slotsOf V (dir fd) (chain fd), readep V s'.disk x = readep V s.disk x := by
    intro x hx
    have hslot : ∀ i, x ≠ (fdep.de.deStartCluster, i) := fun i heq ↦
      hcall.apart_directory hdirectory i (heq ▸ hx)
    have hmiss : search V s (dir td) tndp.dosfn ≠ .hit x := fun hhit ↦
      htree.slots_disjoint hne hx (hcall.target_visible hhit).1.reached.mem
    have hxvalid := htree.valid hx
    rw [hs', readep_fixDotdot htree.layout hxvalid (fun _ ↦ hhas) fun _ ↦ hslot 1,
      readep_markdeleted htree.layout hvalid hxvalid (hpos ▸ hslot 0)]
    refine (hcreated.others x (htree.inUse hx) fun heq ↦ hapart (heq ▸ hx)).trans ?_
    rw [hcall.readep_removed hlookup hremove hxvalid, if_neg hmiss]
  intro hmoved
  have hfat : s'.fat = made.2.fat := by rw [hs']
  have hfound : ∃ q, search V s' (directoryAt (dir fd).startCluster) fndp.dosfn = .hit q :=
    hcall.still_there (hfat ▸ hholds) (fun x hx ↦ by rw [hread x hx]) (hread p hp.reached.mem)
  obtain ⟨q, hfound⟩ := hfound
  exact hmoved.absent q hfound

end Call

end Bsd386.Dosfs.Rename
