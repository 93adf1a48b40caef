import Bsd386.Kern.Vm.Space.Returned

/-!
# The sizes of maps

`size` is to be the number of addresses that are mapped. The operations on one map keep it so.
`vmspace_fork` copies the size of the old map, whatever entries the new one gets, and makes share
maps whose size is zero, so that it keeps the sizes right only if every entry is inherited as a
copy.
-/

namespace Bsd386.Kern.Vm

open Space

variable {E O M : Type}

/-! ## Shapes -/

/-- The range of an entry. -/
def MapEntry.range (e : MapEntry E O) : VmOffset × VmOffset := (e.start, e.endAddr)

/-- What a copy of an entry leaves as it is in both entries. -/
def MapEntry.shape (e : MapEntry E O) : E × (VmOffset × VmOffset) × Bool × ℕ :=
  (e.id, e.range, e.isAMap, e.inheritance)

variable {l k : List (MapEntry E O)}

theorem inOrder_range : InOrder l ↔ Ranges.Ordered Prod.fst Prod.snd (l.map MapEntry.range) := by
  constructor
  · rintro ⟨hne, hpair⟩
    exact ⟨List.forall_mem_map.2 hne, List.pairwise_map.2 hpair⟩
  · rintro ⟨hne, hpair⟩
    exact ⟨List.forall_mem_map.1 hne, List.pairwise_map.1 hpair⟩

theorem extent_range : extent l = ((l.map MapEntry.range).map fun r ↦ r.2.val - r.1.val).sum := by
  rw [List.map_map]
  rfl

theorem ranges_of_shapes (h : l.map MapEntry.shape = k.map MapEntry.shape) :
    l.map MapEntry.range = k.map MapEntry.range := by
  have hrange := congrArg (List.map fun s ↦ s.2.1) h
  rwa [List.map_map, List.map_map] at hrange

theorem ids_of_shapes (h : l.map MapEntry.shape = k.map MapEntry.shape) : ids l = ids k := by
  have hids := congrArg (List.map fun s ↦ s.1) h
  rwa [List.map_map, List.map_map] at hids

/-- An entry of the one list has the shape of an entry of the other. -/
theorem exists_shape (h : l.map MapEntry.shape = k.map MapEntry.shape) {e : MapEntry E O}
    (he : e ∈ l) :
    ∃ f ∈ k, f.shape = e.shape :=
  List.mem_map.1 (h ▸ List.mem_map_of_mem he)

/-- The new map, that a fork makes, before it gets its size. -/
def forked (map : VmMap E O) (l : List (MapEntry E O)) : VmMap E O :=
  { (vmMapInit map.minOffset map.maxOffset : VmMap E O) with nentries := l.length, entries := l }

namespace VmMap

variable {map : VmMap E O}

theorem Wellformed.reshape (h : map.Wellformed)
    (hl : l.map MapEntry.shape = map.entries.map MapEntry.shape) :
    Wellformed { map with entries := l } := by
  have hids := ids_of_shapes hl
  refine ⟨?_, fun e he ↦ ?_, hids ▸ h.nodup, ?_, ?_, ?_⟩
  · rw [inOrder_range, ranges_of_shapes hl, ← inOrder_range]
    exact h.inOrder
  · obtain ⟨f, hf, hshape⟩ := exists_shape hl he
    have hrange : f.range = e.range := congrArg (fun s ↦ s.2.1) hshape
    have hinside := h.inside f hf
    rw [show f.start = e.start from congrArg Prod.fst hrange,
      show f.endAddr = e.endAddr from congrArg Prod.snd hrange] at hinside
    exact hinside
  · have hlength := congrArg List.length hl
    rw [List.length_map, List.length_map] at hlength
    exact h.nentries_eq.trans (congrArg _ hlength.symm)
  · intro id hid
    rw [hids]
    exact h.hint_live id hid
  · intro id hid
    rw [hids]
    exact h.firstFree_live id hid

/-- The map is well formed, counts its addresses, and uses no share map. -/
def Sized (map : VmMap E O) : Prop :=
  map.Wellformed ∧ map.Counted ∧ map.Every fun e ↦ e.isAMap = false

theorem uniform_flat : Uniform fun e : MapEntry E O ↦ e.isAMap = false := fun _ _ _ _ _ he ↦ he

/-- A new map with the same ranges, and the size of the old map. -/
theorem Wellformed.forked (h : map.Wellformed) (hcounted : map.Counted) (hnodup : (ids l).Nodup)
    (hranges : l.map MapEntry.range = map.entries.map MapEntry.range)
    (hflat : ∀ e ∈ l, e.isAMap = false) : Sized { forked map l with size := map.size } := by
  refine ⟨⟨?_, fun e he ↦ ?_, hnodup, rfl, live_none, live_none⟩, ?_, hflat⟩
  · change InOrder l
    rw [inOrder_range, hranges, ← inOrder_range]
    exact h.inOrder
  · obtain ⟨f, hf, hrange⟩ := List.mem_map.1 (hranges ▸ List.mem_map_of_mem he)
    have hinside := h.inside f hf
    rw [show f.start = e.start from congrArg Prod.fst hrange,
      show f.endAddr = e.endAddr from congrArg Prod.snd hrange] at hinside
    exact hinside
  · change map.size.val = extent l
    rw [extent_range, hranges, ← extent_range]
    exact hcounted

theorem Sized.reshape (h : map.Sized)
    (hl : l.map MapEntry.shape = map.entries.map MapEntry.shape) :
    Sized { map with entries := l } := by
  refine ⟨h.1.reshape hl, ?_, fun e he ↦ ?_⟩
  · change map.size.val = extent l
    rw [extent_range, ranges_of_shapes hl, ← extent_range]
    exact h.2.1
  · obtain ⟨f, hf, hshape⟩ := exists_shape hl he
    have hflag : f.isAMap = e.isAMap := congrArg (fun s ↦ s.2.2.1) hshape
    exact hflag.symm.trans (h.2.2 f hf)

end VmMap

/-! ## Operations on one map -/

/-- What `vmspace_protect`, `vmspace_inherit`, `vmspace_pageable` and `vmspace_notpageable` assign
to the entries of a region. -/
structure Attributes where
  protection : ℕ → ℕ
  maxProtection : ℕ → ℕ
  inheritance : ℕ → ℕ
  wiredCount : ℤ → ℤ

namespace Attributes

def edit (a : Attributes) (e : MapEntry E O) : MapEntry E O :=
  { e with
    protection := a.protection e.protection
    maxProtection := a.maxProtection e.maxProtection
    inheritance := a.inheritance e.inheritance
    wiredCount := a.wiredCount e.wiredCount }

/-- What the assignments mean for an address. -/
def act (a : Attributes) (m : Mapping O) : Mapping O :=
  { m with
    protection := a.protection m.protection
    maxProtection := a.maxProtection m.maxProtection
    inheritance := a.inheritance m.inheritance
    wiredCount := a.wiredCount m.wiredCount }

theorem keeps (a : Attributes) : VmMap.Keeps (a.edit : MapEntry E O → MapEntry E O) :=
  fun _ ↦ ⟨rfl, rfl, rfl⟩

theorem acts (a : Attributes) : VmMap.Acts (a.edit : MapEntry E O → MapEntry E O) a.act :=
  fun _ _ ↦ rfl

end Attributes

namespace VmMap

variable [DecidableEq E] {map map' : VmMap E O} {create : Create E O}
  {result : KernReturn}

theorem Sized.insert (h : map.Sized) (hcreate : Fresh create) {coalesce : Coalesce O}
    {object : Option O} {offset start endAddr : VmOffset}
    (hok : map.vmMapInsert create coalesce object offset start endAddr = .ok (result, map')) :
    map'.Sized := by
  obtain ⟨hmap, hcounted, hflat⟩ := h
  obtain ⟨result', l, n, size, hint, firstFree, hinsert, hmap', -⟩ :=
    hmap.vmMapInsert hcreate coalesce object offset start endAddr
  have hcounted' := (hmap.vmMapInsert_kept hcreate hok).1 hcounted
  have hflat' : map'.Every fun e ↦ e.isAMap = false := by
    refine hflat.vmMapInsert uniform_flat (fun map memory ↦ ?_) hok
    unfold VmMap.newEntry
    split_ifs
    · rfl
    · rfl
  obtain ⟨-, rfl⟩ := Prod.ext_iff.1 (Except.ok.inj (hinsert.symm.trans hok))
  exact ⟨hmap', hcounted', hflat'⟩

theorem Sized.delete (h : map.Sized) (hcreate : Fresh create) {start endAddr : VmOffset}
    (hok : map.vmMapDelete create start endAddr = .ok map') : map'.Sized := by
  obtain ⟨hmap, hcounted, hflat⟩ := h
  have hflat' := hflat.vmMapDelete uniform_flat hok
  obtain ⟨l, n, size, hint, firstFree, hdelete, hmap', hcounted', -⟩ :=
    hmap.vmMapDelete hcreate start endAddr
  obtain rfl := Except.ok.inj (hdelete.symm.trans hok)
  exact ⟨hmap', hcounted' hcounted, hflat'⟩

theorem Sized.simplify [DecidableEq O] (h : map.Sized) {start : VmOffset}
    (hok : map.vmMapSimplify start = .ok map') : map'.Sized := by
  obtain ⟨hmap, hcounted, hflat⟩ := h
  have hflat' := hflat.vmMapSimplify uniform_flat hok
  obtain ⟨l, n, hint, firstFree, hsimplify, hmap', -, hdenote⟩ := hmap.vmMapSimplify start
  obtain rfl := Except.ok.inj (hsimplify.symm.trans hok)
  exact ⟨hmap', hcounted.trans (extent_congr hmap.inOrder hmap'.inOrder hdenote.symm), hflat'⟩

theorem Sized.lockClipStart (h : map.Sized) (hcreate : Fresh create) {start endAddr : VmOffset}
    {region : VmOffset × VmOffset × Option E × VmMap E O}
    (hok : map.lockClipStart create start endAddr = .ok region) : region.2.2.2.Sized := by
  obtain ⟨hmap, hcounted, hflat⟩ := h
  have hflat' := hflat.lockClipStart uniform_flat (hok.trans rfl)
  obtain ⟨l₁, l₂, n, hint, hclip, hmap', -, -, hdenote, -⟩ :=
    hmap.lockClipStart hcreate start endAddr
  obtain rfl := Except.ok.inj (hclip.symm.trans hok)
  exact ⟨hmap', hcounted.trans (extent_congr hmap.inOrder hmap'.inOrder hdenote.symm), hflat'⟩

/-- A region is clipped and assigned to; the same addresses are mapped as before. -/
theorem Sized.clipRegion (h : map.Sized) (hcreate : Fresh create) (a : Attributes)
    {start endAddr : VmOffset} (hok : map.clipRegion create a.edit start endAddr = .ok map') :
    map'.Sized := by
  obtain ⟨hmap, hcounted, hflat⟩ := h
  have hedit : ∀ e : MapEntry E O, e.isAMap = false → (a.edit e).isAMap = false := fun _ he ↦ he
  have hflat' := hflat.clipRegion uniform_flat hedit hok
  obtain ⟨l, n, hint, hclip, hmap', houtside, hinside⟩ :=
    hmap.clipRegion hcreate a.keeps start endAddr
  obtain rfl := Except.ok.inj (hclip.symm.trans hok)
  have hcover : Ranges.cover (·.start) (·.endAddr) l =
      Ranges.cover (·.start) (·.endAddr) map.entries := by
    ext x
    have hiff : ∀ k : List (MapEntry E O),
        x ∈ Ranges.cover (·.start) (·.endAddr) k ↔ denote k x ≠ none :=
      fun k ↦ Ranges.mem_cover_iff
    rw [hiff, hiff]
    by_cases hx : map.regionStart start endAddr ≤ x ∧ x < min endAddr map.maxOffset
    · have hact := hinside a.act a.acts x hx.1 hx.2
      rw [hact, Ne, Option.map_eq_none_iff]
    · have hsame := houtside x (by rwa [not_and_or, not_le, not_lt] at hx)
      rw [hsame]
  refine ⟨hmap', ?_, hflat'⟩
  change map.size.val = extent l
  rw [extent_eq_ncard hmap'.inOrder, hcover, ← extent_eq_ncard hmap.inOrder]
  exact hcounted

end VmMap

/-! ## Forking -/

/-- The assignments keep the shapes of the entries. -/
abbrev KeepsShape (edit : MapEntry E O → MapEntry E O) : Prop := ∀ e, (edit e).shape = e.shape

theorem shapes_modify [DecidableEq E] {map : VmMap E O} {id : E}
    {edit : MapEntry E O → MapEntry E O}
    (hedit : KeepsShape edit) :
    (map.modify id edit).entries.map MapEntry.shape = map.entries.map MapEntry.shape := by
  change (map.entries.map fun e ↦ if e.id = id then edit e else e).map MapEntry.shape = _
  rw [List.map_map]
  refine List.map_congr_left fun e _ ↦ ?_
  dsimp only [Function.comp]
  split_ifs
  · exact hedit e
  · rfl

theorem forked_modify [DecidableEq E] (map : VmMap E O) (l : List (MapEntry E O)) (id : E)
    (edit : MapEntry E O → MapEntry E O) :
    (forked map l).modify id edit = forked map ((forked map l).modify id edit).entries := by
  unfold forked VmMap.modify
  simp

theorem forked_link [DecidableEq E] (map : VmMap E O) {l : List (MapEntry E O)}
    (hnodup : (ids l).Nodup) (new : MapEntry E O) :
    (forked map l).link ((forked map l).prev none) new = forked map (l ++ [new]) := by
  have hnil : (forked map l).entries = l ++ [] := (List.append_nil l).symm
  have hlink : (forked map l).link (lastId l) new = _ := VmMap.link_lastId hnil hnodup
  refine hlink.trans ?_
  unfold forked
  simp

/-- How far `vmspace_fork` has come: the new map has an entry for each of the entries `done`. -/
structure Forking (before : Maps E O M) (oldMap newMap : M) (map : VmMap E (Ref O M))
    (done : List (MapEntry E (Ref O M))) (maps : Maps E O M) : Prop where
  old : ∃ l, maps oldMap = some { map with entries := l } ∧
    l.map MapEntry.shape = map.entries.map MapEntry.shape
  new : ∃ l, maps newMap = some (forked map l) ∧ (ids l).Nodup ∧
    l.map MapEntry.range = done.map MapEntry.range ∧ ∀ e ∈ l, e.isAMap = false
  others : ∀ m, m ≠ oldMap → m ≠ newMap → maps m = before m

namespace Forking

variable [DecidableEq E] [LinearOrder M] {before maps : Maps E O M} {oldMap newMap : M}
  {map : VmMap E (Ref O M)} {done : List (MapEntry E (Ref O M))}

/-- One of the entries is assigned to. -/
theorem modify (h : Forking before oldMap newMap map done maps) (hne : oldMap ≠ newMap) {m : M}
    (hm : m = oldMap ∨ m = newMap) {id : E} {edit : MapEntry E (Ref O M) → MapEntry E (Ref O M)}
    (hedit : KeepsShape edit) {map' : VmMap E (Ref O M)} (hmap' : maps m = some map') :
    Forking before oldMap newMap map done (putMap maps m (map'.modify id edit)) := by
  have hothers : ∀ n, n ≠ oldMap → n ≠ newMap →
    putMap maps m (map'.modify id edit) n = before n := by
    intro n hold hnew
    have hnm : n ≠ m := by
      rcases hm with rfl | rfl
      · exact hold
      · exact hnew
    exact (if_neg hnm).trans (h.others n hold hnew)
  obtain ⟨l, hl, hshapes⟩ := h.old
  obtain ⟨k, hk, hnodup, hranges, hflat⟩ := h.new
  rcases hm with rfl | rfl
  · refine ⟨⟨(map'.modify id edit).entries, ?_, ?_⟩, ⟨k, (if_neg hne.symm).trans hk, hnodup,
      hranges,
      hflat⟩, hothers⟩
    · obtain rfl := Option.some.inj (hl.symm.trans hmap')
      exact if_pos rfl
    · obtain rfl := Option.some.inj (hl.symm.trans hmap')
      exact (shapes_modify hedit).trans hshapes
  · obtain rfl := Option.some.inj (hk.symm.trans hmap')
    have hshapes' : ((forked map k).modify id edit).entries.map MapEntry.shape =
        k.map MapEntry.shape := shapes_modify hedit
    refine ⟨⟨l, (if_neg hne).trans hl, hshapes⟩, ⟨((forked map k).modify id edit).entries, ?_,
      ids_of_shapes hshapes' ▸ hnodup, (ranges_of_shapes hshapes').trans hranges, fun e he ↦ ?_⟩,
      hothers⟩
    · rw [← forked_modify]
      exact if_pos rfl
    · obtain ⟨f, hf, hshape⟩ := exists_shape hshapes' he
      have hflag : f.isAMap = e.isAMap := congrArg (fun s ↦ s.2.2.1) hshape
      exact hflag.symm.trans (hflat f hf)

omit [LinearOrder M] in
/-- The entry of the old map at an address has the shape that it had before. -/
theorem entry (h : Forking before oldMap newMap map done maps) (hmap : map.Wellformed)
    {d e : MapEntry E (Ref O M)} (hd : d ∈ map.entries) {map' : VmMap E (Ref O M)}
    (hmap' : maps oldMap = some map') (hentry : map'.entry d.id = .ok e) : e.shape = d.shape := by
  obtain ⟨l, hl, hshapes⟩ := h.old
  obtain rfl := Option.some.inj (hl.symm.trans hmap')
  unfold VmMap.entry at hentry
  rcases Option.eq_none_or_eq_some (l.find? (·.id = d.id)) with hnone | ⟨f, hf⟩
  · simp only [hnone] at hentry
    cases hentry
  · simp only [hf] at hentry
    obtain rfl := Except.ok.inj hentry
    obtain ⟨g, hg, hshape⟩ := exists_shape hshapes (List.mem_of_find?_eq_some hf)
    have hfid : f.id = d.id := by simpa using List.find?_some hf
    have hid : g.id = d.id := (congrArg Prod.fst hshape).trans hfid
    obtain rfl : g = d := List.inj_on_of_nodup_map hmap.nodup hg hd hid
    exact hshape.symm

variable {env : Env E O M}

/-- An entry is appended to the new map. -/
theorem appendEntry (hcreate : VmMap.Fresh env.create) (hne : oldMap ≠ newMap)
    {w : World E O M} (h : Forking before oldMap newMap map done w.maps)
    {d e : MapEntry E (Ref O M)} (hrange : e.range = d.range) (hflat : e.isAMap = false) :
    Ensures (Space.appendEntry env newMap e)
      (fun _ w' ↦ Forking before oldMap newMap map (done ++ [d]) w'.maps) w := by
  obtain ⟨l, hl, hshapes⟩ := h.old
  obtain ⟨k, hk, hnodup, hranges, hkflat⟩ := h.new
  refine Ensures.bind (ensures_getMap newMap w) fun map' w₁ hmap' ↦ ?_
  obtain ⟨hm, rfl⟩ := hmap'
  obtain rfl := Option.some.inj (hk.symm.trans hm)
  refine Ensures.bind_iff.2 (Ensures.modify_iff.2 (Ensures.pure_iff.2 ?_))
  have hfresh : ((forked map k).entryCreate env.create).id ∉ ids k := hcreate _
  have hnew := forked_link map hnodup { e with id := ((forked map k).entryCreate env.create).id }
  refine ⟨⟨l, (if_neg hne).trans hl, hshapes⟩, ⟨_, (if_pos rfl).trans (congrArg some hnew), ?_, ?_,
    fun f hf ↦ ?_⟩, fun m hold hnew ↦ (if_neg hnew).trans (h.others m hold hnew)⟩
  · rw [ids, List.map_append, List.nodup_append]
    refine ⟨hnodup, by simp, fun i hi j hj ↦ ?_⟩
    rw [List.map_singleton, List.mem_singleton] at hj
    rintro rfl
    exact hfresh (hj ▸ hi)
  · rw [List.map_append, List.map_append, hranges]
    exact congrArg (fun r ↦ done.map MapEntry.range ++ [r]) hrange
  · rcases List.mem_append.1 hf with hf | hf
    · exact hkflat f hf
    · rw [List.mem_singleton.1 hf]
      exact hflat

/-- An entry that is inherited as a copy gets its counterpart in the new map. -/
theorem forkEntry (hcreate : VmMap.Fresh env.create) (hne : oldMap ≠ newMap)
    (hmap : map.Wellformed) {w : World E O M} (h : Forking before oldMap newMap map done w.maps)
    {d : MapEntry E (Ref O M)} (hd : d ∈ map.entries) (hcopy : d.inheritance = vmInheritCopy)
    (hflat : d.isAMap = false) (turns : ℕ) :
    Ensures (Space.forkEntry env turns newMap oldMap d.id)
      (fun _ w' ↦ Forking before oldMap newMap map (done ++ [d]) w'.maps) w := by
  have hedits : CopyEdits env (fun m edit ↦ (m = oldMap ∨ m = newMap) ∧ KeepsShape edit) oldMap
      newMap :=
    ⟨⟨.inr rfl, fun _ ↦ rfl⟩, fun _ ↦ ⟨.inr rfl, fun _ ↦ rfl⟩, fun _ _ _ ↦ ⟨.inr rfl, fun _ ↦ rfl⟩,
      fun _ ↦ ⟨.inl rfl, fun _ ↦ rfl⟩, ⟨.inr rfl, fun _ ↦ rfl⟩⟩
  refine Ensures.bind (ensures_entryOf oldMap d.id w) fun e w₁ he ↦ ?_
  obtain ⟨⟨map₁, hm₁, hentry⟩, rfl⟩ := he
  have hshape := h.entry hmap hd hm₁ hentry
  have hinheritance : e.inheritance = vmInheritCopy :=
    (congrArg (fun s ↦ s.2.2.2) hshape).trans hcopy
  refine Ensures.ite_iff.2 ⟨fun hshare ↦ ?_, fun _ ↦ Ensures.ite_iff.2 ⟨fun _ ↦ ?_, fun hnot ↦
    absurd hinheritance hnot⟩⟩
  · exact absurd (hshare.symm.trans hinheritance) (by decide)
  refine Ensures.bind (ensures_entryOf oldMap d.id w₁) fun f w₂ hf ↦ ?_
  obtain ⟨⟨map₂, hm₂, hentry₂⟩, rfl⟩ := hf
  obtain rfl := Option.some.inj (hm₁.symm.trans hm₂)
  obtain rfl := Except.ok.inj (hentry.symm.trans hentry₂)
  have hrange : e.range = d.range := congrArg (fun s ↦ s.2.1) hshape
  have heflat : e.isAMap = false := (congrArg (fun s ↦ s.2.2.1) hshape).trans hflat
  refine Ensures.bind (h.appendEntry hcreate hne (e := { e with
    wiredCount := 0, object := none, isAMap := false }) hrange rfl) fun new w₃ h₃ ↦
      Ensures.ite_iff.2 ⟨fun hshared ↦ absurd (heflat.symm.trans hshared) (by simp), fun _ ↦ ?_⟩
  have hquiet :=
    quiet_vmMapCopyEntry_of (J := Forking before oldMap newMap map (done ++ [d])) hedits
    (fun m id edit hedit ↦ quiet_modifyEntry_of fun maps map' hforking hm' ↦
      hforking.modify hne hedit.1 hedit.2 hm') d.id new
  exact (hquiet w₃.held w₃ h₃ rfl).mono fun _ _ hw' ↦ hw'.1

omit [LinearOrder M] in
theorem next (h : Forking before oldMap newMap map done maps) {map' : VmMap E (Ref O M)}
    (hmap' : maps oldMap = some map') (p : Option E) : map'.next p = map.next p := by
  obtain ⟨l, hl, hshapes⟩ := h.old
  obtain rfl := Option.some.inj (hl.symm.trans hmap')
  have hids := ids_of_shapes hshapes
  have hhead : ∀ k : List (MapEntry E (Ref O M)), k.head?.map (·.id) = (ids k).head? := fun k ↦
    (List.head?_map).symm
  cases p with
  | none =>
    change l.head?.map (·.id) = map.entries.head?.map (·.id)
    rw [hhead, hhead, hids]
  | some id =>
    have htail : ∀ k : List (MapEntry E (Ref O M)),
        (k.dropWhile (·.id ≠ id)).tail.head?.map (·.id) =
          ((ids k).dropWhile (· ≠ id)).tail.head? := by
      intro k
      rw [hhead, ids, ids, List.map_tail, List.dropWhile_map]
      rfl
    change (l.dropWhile (·.id ≠ id)).tail.head?.map (·.id) =
      (map.entries.dropWhile (·.id ≠ id)).tail.head?.map (·.id)
    rw [htail, htail, hids]

/-- The loop goes through the old map, if all its entries are inherited as copies. -/
theorem forkLoop (hcreate : VmMap.Fresh env.create) (hne : oldMap ≠ newMap)
    (hmap : map.Wellformed) (hcopy : map.Every fun e ↦ e.inheritance = vmInheritCopy)
    (hflat : map.Every fun e ↦ e.isAMap = false) (turns : ℕ) {rest : List (MapEntry E (Ref O M))}
    (hrest : map.entries = done ++ rest) {w : World E O M}
    (h : Forking before oldMap newMap map done w.maps) :
    Ensures (Space.forkLoop env newMap oldMap turns (firstId rest))
      (fun _ w' ↦ Forking before oldMap newMap map map.entries w'.maps) w := by
  induction turns generalizing done rest w with
  | zero =>
    unfold Space.forkLoop
    exact Ensures.throw_iff.2 trivial
  | succ turns ih =>
    cases rest with
    | nil =>
      rw [List.append_nil] at hrest
      exact Ensures.pure_iff.2 (hrest ▸ h)
    | cons d rest =>
      have hd : d ∈ map.entries := hrest ▸ by simp
      refine Ensures.bind (h.forkEntry hcreate hne hmap hd (hcopy d hd) (hflat d hd) turns)
        fun _ w₁ h₁ ↦ ?_
      obtain ⟨l, hl, -⟩ := id h₁.old
      refine Ensures.bind (ensures_nextOf hl (some d.id)) fun next w₂ hnext ↦ ?_
      obtain ⟨rfl, rfl⟩ := hnext
      rw [h₁.next hl, VmMap.next_split hrest hmap.nodup]
      have hassoc : map.entries = (done ++ [d]) ++ rest := by simpa using hrest
      exact ih hassoc h₁

end Forking

variable [DecidableEq E] [LinearOrder M] {env : Env E O M}

/-- The next map is made of memory that is not in use. -/
def FreshMap (env : Env E O M) (w : World E O M) : Prop :=
  ∀ held, w.maps (env.mapCreate { w with held }) = none

/-- A fork that makes copies only keeps the sizes right, and gives the new map the right one. -/
theorem ensures_vmspaceFork_sized (hcreate : VmMap.Fresh env.create) {w : World E O M}
    (hfresh : FreshMap env w) (hsized : ∀ m map, w.maps m = some map → map.Sized) (turns : ℕ)
    (oldMap : M)
    (hcopy : ∀ map, w.maps oldMap = some map → map.Every fun e ↦ e.inheritance = vmInheritCopy) :
    Ensures (vmspaceFork env turns oldMap)
      (fun _ w' ↦ ∀ m map, w'.maps m = some map → map.Sized) w := by
  refine Ensures.bind (ensures_onHold oldMap _ w) fun _ w₁ hlock ↦ ?_
  obtain ⟨hold, -, rfl⟩ := hlock
  refine Ensures.bind_iff.2 (Ensures.get_iff.2 ?_)
  have hnone := hfresh (setHold w.held oldMap hold)
  generalize env.mapCreate { w with held := setHold w.held oldMap hold } = newMap at hnone
  refine Ensures.bind (ensures_getMap oldMap _) fun map w₁ hmap ↦ ?_
  obtain ⟨hm, rfl⟩ := hmap
  have hne : oldMap ≠ newMap := by
    rintro rfl
    exact absurd (hnone.symm.trans hm) (by simp)
  obtain ⟨hwf, hcounted, hflat⟩ := hsized oldMap map hm
  refine Ensures.bind_iff.2 (Ensures.modify_iff.2 ?_)
  have hstart : Forking w.maps oldMap newMap map []
      fun n ↦ if n = newMap then some (vmMapInit map.minOffset map.maxOffset) else w.maps n :=
    ⟨⟨map.entries, (if_neg hne).trans hm, rfl⟩, ⟨[], if_pos rfl, List.nodup_nil, rfl,
      fun e he ↦ absurd he List.not_mem_nil⟩, fun m _ hnew ↦ if_neg hnew⟩
  refine Ensures.bind (ensures_nextOf ((if_neg hne).trans hm) none) fun first w₂ hfirst ↦ ?_
  obtain ⟨rfl, rfl⟩ := hfirst
  refine Ensures.bind (Forking.forkLoop hcreate hne hwf (hcopy map hm) hflat turns
    (List.nil_append map.entries).symm hstart) fun _ w₃ hforked ↦ ?_
  obtain ⟨l, hl, hshapes⟩ := hforked.old
  obtain ⟨k, hk, hnodup, hranges, hkflat⟩ := hforked.new
  refine Ensures.bind (ensures_getMap oldMap w₃) fun old w₄ hold ↦ ?_
  obtain ⟨hm₄, rfl⟩ := hold
  obtain rfl := Option.some.inj (hl.symm.trans hm₄)
  refine Ensures.bind (ensures_getMap newMap w₄) fun new w₅ hnew ↦ ?_
  obtain ⟨hm₅, rfl⟩ := hnew
  obtain rfl := Option.some.inj (hk.symm.trans hm₅)
  refine Ensures.bind_iff.2 (Ensures.modify_iff.2 ?_)
  refine Ensures.bind (ensures_onHold oldMap _ _) fun _ w₆ hunlock ↦ ?_
  obtain ⟨hold', -, rfl⟩ := hunlock
  refine Ensures.pure_iff.2 fun m map' hm' ↦ ?_
  dsimp only at hm'
  split_ifs at hm' with hmnew
  · rw [← Option.some.inj hm']
    exact hwf.forked hcounted hnodup hranges hkflat
  · by_cases hmold : m = oldMap
    · rw [hmold, hl] at hm'
      rw [← Option.some.inj hm']
      exact VmMap.Sized.reshape ⟨hwf, hcounted, hflat⟩ hshapes
    · rw [hforked.others m hmold hmnew] at hm'
      exact hsized m map' hm'

/-! ## Runs -/

/-- The calls that change the size of a map, or divide its entries. -/
inductive SizeCall (O M : Type)
  | insert (m : M) (object : Option O) (offset start endAddr : VmOffset)
  | delete (m : M) (start endAddr : VmOffset)
  | simplify (m : M) (start : VmOffset)
  | clipStart (m : M) (start endAddr : VmOffset)
  | clipRegion (m : M) (a : Attributes) (start endAddr : VmOffset)
  | fork (turns : ℕ) (m : M)

variable [DecidableEq O]

/-- A call on one map. -/
def onCall (m : M) (call : VmMap.Call E (Ref O M)) : Space E O M Unit := do
  let _ ← onMap m fun map ↦ call.run map

namespace SizeCall

def run (env : Env E O M) : SizeCall O M → Space E O M Unit
  | insert m object offset start endAddr =>
    onCall m (.insert env.create env.coalesce (object.map .object) offset start endAddr)
  | delete m start endAddr => onCall m (.delete env.create start endAddr)
  | simplify m start => onCall m (.simplify start)
  | clipStart m start endAddr => onCall m (.clipStart env.create start endAddr)
  | clipRegion m a start endAddr => onCall m (.clipRegion env.create a.edit start endAddr)
  | fork turns m => do let _ ← vmspaceFork env turns m

/-- `malloc` gives a fork new memory for its map. -/
def Allowed (env : Env E O M) (w : World E O M) : SizeCall O M → Prop
  | fork .. => FreshMap env w
  | _ => True

/-- A fork finds only entries that are inherited as copies. -/
def Copies (w : World E O M) : SizeCall O M → Prop
  | fork _ m => ∀ map, w.maps m = some map → map.Every fun e ↦ e.inheritance = vmInheritCopy
  | _ => True

end SizeCall

/-- The worlds that calls of a kind make of empty maps. -/
inductive SizeRun (env : Env E O M) (good : World E O M → SizeCall O M → Prop) :
    World E O M → Prop
  | init {w} (hempty : ∀ m map, w.maps m = some map → ∃ min max, map = vmMapInit min max) :
    SizeRun env good w
  | call {w w'} (call : SizeCall O M) : SizeRun env good w → call.Allowed env w → good w call →
    call.run env w = .ok ((), w') → SizeRun env good w'

theorem ensures_onCall_sized {m : M} {call : VmMap.Call E (Ref O M)} {w : World E O M}
    (hsized : ∀ m map, w.maps m = some map → map.Sized)
    (hcall : ∀ map result map', map.Sized → call.run map = .ok (result, map') → map'.Sized) :
    Ensures (onCall m call) (fun _ w' ↦ ∀ m map, w'.maps m = some map → map.Sized) w := by
  refine Ensures.bind (ensures_onMap m _ w) fun result w' hw' ↦ Ensures.pure_iff.2 ?_
  obtain ⟨map, map', hm, hok, rfl⟩ := hw'
  intro n map'' hn
  dsimp only [putMap] at hn
  split_ifs at hn
  · obtain rfl := Option.some.inj hn
    exact hcall map result map' (hsized m map hm) hok
  · exact hsized n map'' hn

/-- Each call keeps the sizes right. -/
theorem SizeCall.ensures_sized (hcreate : VmMap.Fresh env.create) {w : World E O M}
    (hsized : ∀ m map, w.maps m = some map → map.Sized) {call : SizeCall O M}
    (hallowed : call.Allowed env w) (hcopies : call.Copies w) :
    Ensures (call.run env) (fun _ w' ↦ ∀ m map, w'.maps m = some map → map.Sized) w := by
  cases call with
  | insert m object offset start endAddr =>
    exact ensures_onCall_sized hsized fun map result map' h hok ↦ h.insert hcreate hok
  | delete m start endAddr =>
    refine ensures_onCall_sized hsized fun map result map' h hok ↦ ?_
    obtain ⟨map₁, hdelete, heq⟩ := exists_of_map_ok hok
    cases heq
    exact h.delete hcreate hdelete
  | simplify m start =>
    refine ensures_onCall_sized hsized fun map result map' h hok ↦ ?_
    obtain ⟨map₁, hsimplify, heq⟩ := exists_of_map_ok hok
    cases heq
    exact h.simplify hsimplify
  | clipStart m start endAddr =>
    refine ensures_onCall_sized hsized fun map result map' h hok ↦ ?_
    obtain ⟨region, hclip, heq⟩ := exists_of_map_ok hok
    cases heq
    exact h.lockClipStart hcreate hclip
  | clipRegion m a start endAddr =>
    refine ensures_onCall_sized hsized fun map result map' h hok ↦ ?_
    obtain ⟨map₁, hclip, heq⟩ := exists_of_map_ok hok
    cases heq
    exact h.clipRegion hcreate a hclip
  | fork turns m =>
    exact ensures_unit (ensures_vmspaceFork_sized hcreate hallowed hsized turns m hcopies)

theorem SizeRun.sized {w : World E O M} (hcreate : VmMap.Fresh env.create)
    (hrun : SizeRun env (fun w call ↦ call.Copies w) w) :
    ∀ m map, w.maps m = some map → map.Sized := by
  induction hrun with
  | init hempty =>
    intro m map hm
    obtain ⟨min, max, rfl⟩ := hempty m map hm
    exact ⟨VmMap.wellformed_init min max, rfl, fun e he ↦ absurd he List.not_mem_nil⟩
  | call call _ hallowed hcopies hok ih =>
    exact call.ensures_sized hcreate ih hallowed hcopies () _ hok

/-- Every map counts its addresses, as long as each fork finds only entries that are inherited as
copies. -/
theorem mapped_sizes {w : World E O M} (hcreate : VmMap.Fresh env.create)
    (hrun : SizeRun env (fun w call ↦ call.Copies w) w) {m : M} {map : VmMap E (Ref O M)}
    (hm : w.maps m = some map) : map.Counted :=
  (hrun.sized hcreate m map hm).2.1

/-- The map 0 is empty. -/
def emptyWorld : World ℕ ℕ ℕ := worldOf (vmMapInit 0 65536)

theorem sizeRun_emptyWorld (good : World ℕ ℕ ℕ → SizeCall ℕ ℕ → Prop) :
    SizeRun plainEnv good emptyWorld := by
  refine .init fun m map hm ↦ ⟨0, 65536, ?_⟩
  unfold emptyWorld worldOf at hm
  dsimp only at hm
  split_ifs at hm
  exact (Option.some.inj hm).symm

/-- Two pages are inserted, and the new process gets a map that counts its copy of them. -/
theorem mapped_sizes_forked : ∃ w map,
    SizeRun plainEnv (fun w call ↦ call.Copies w) w ∧ w.maps 9 = some map ∧ map.size.val = 8192 ∧
      map.Counted := by
  obtain ⟨w₁, w₂, old, new, hinsert, hfork, hold, hinheritance, hfresh, hnew, hsize⟩ :
      ∃ (w₁ w₂ : World ℕ ℕ ℕ) (old new : VmMap ℕ (Ref ℕ ℕ)),
        (SizeCall.insert 0 (some 0) 0 4096 12288).run plainEnv emptyWorld = .ok ((), w₁) ∧
        (SizeCall.fork 8 0).run plainEnv w₁ = .ok ((), w₂) ∧ w₁.maps 0 = some old ∧
          old.entries.map (·.inheritance) = [vmInheritCopy] ∧ w₁.maps 9 = none ∧
            w₂.maps 9 = some new ∧ new.size.val = 8192 :=
    ⟨_, _, _, _, rfl, rfl, rfl, rfl, rfl, rfl, rfl⟩
  have hcopies : (SizeCall.fork 8 0).Copies w₁ := by
    intro map hm e he
    obtain rfl := Option.some.inj (hold.symm.trans hm)
    exact List.mem_singleton.1 (hinheritance ▸ List.mem_map_of_mem he)
  have hrun₁ : SizeRun plainEnv (fun w call ↦ call.Copies w) w₁ :=
    .call (.insert 0 (some 0) 0 4096 12288) (sizeRun_emptyWorld _) trivial trivial hinsert
  have hrun : SizeRun plainEnv (fun w call ↦ call.Copies w) w₂ :=
    .call (.fork 8 0) hrun₁ (fun _ ↦ hfresh) hcopies hfork
  exact ⟨w₂, new, hrun, hnew, hsize, mapped_sizes newMemory_fresh hrun hnew⟩

/-- The new process does not get the pages, but its map has the size of the old one. -/
theorem fork_miscounts : ∃ w map,
    SizeRun plainEnv (fun _ _ ↦ True) w ∧ w.maps 9 = some map ∧ ¬ map.Counted := by
  obtain ⟨w₁, w₂, w₃, new, hinsert, hclip, hfork, hfresh, hnew, hsize, hextent⟩ :
      ∃ (w₁ w₂ w₃ : World ℕ ℕ ℕ) (new : VmMap ℕ (Ref ℕ ℕ)),
        (SizeCall.insert 0 (some 0) 0 4096 12288).run plainEnv emptyWorld = .ok ((), w₁) ∧
        (SizeCall.clipRegion 0 ⟨id, id, fun _ ↦ vmInheritNone, id⟩ 4096 12288).run plainEnv w₁ =
          .ok ((), w₂) ∧
        (SizeCall.fork 8 0).run plainEnv w₂ = .ok ((), w₃) ∧ w₂.maps 9 = none ∧
          w₃.maps 9 = some new ∧ new.size.val = 8192 ∧ extent new.entries = 0 :=
    ⟨_, _, _, _, rfl, rfl, rfl, rfl, rfl, rfl, rfl⟩
  have hrun₁ : SizeRun plainEnv (fun _ _ ↦ True) w₁ :=
    .call (.insert 0 (some 0) 0 4096 12288) (sizeRun_emptyWorld _) trivial trivial hinsert
  have hrun₂ : SizeRun plainEnv (fun _ _ ↦ True) w₂ :=
    .call (.clipRegion 0 _ 4096 12288) hrun₁ trivial trivial hclip
  refine ⟨w₃, new, .call (.fork 8 0) hrun₂ (fun _ ↦ hfresh) trivial hfork, hnew, fun hcounted ↦ ?_⟩
  have hequal : new.size.val = extent new.entries := hcounted
  rw [hsize, hextent] at hequal
  exact absurd hequal (by decide)

end Bsd386.Kern.Vm
