import Bsd386.Kern.Vm.Map.Operations

/-!
# Insertion, simplification and deletion

The operations that change the number of entries, and with it the two pointers into the list.
-/

namespace Bsd386.Kern.Vm

open Ranges

variable {E O : Type} {e p : MapEntry E O} {l l₁ l₂ : List (MapEntry E O)}

namespace VmMap

variable {map : VmMap E O}

/-- An entry that neither pointer is to can be removed. -/
theorem Wellformed.remove (h : map.Wellformed) (hl : map.entries = l₁ ++ e :: l₂)
    {hint firstFree : Option E} (hhint : Live (l₁ ++ l₂) hint) (hfree : Live (l₁ ++ l₂) firstFree)
    (size : VmOffset) :
    Wellformed { map with
      nentries := map.nentries - 1, entries := l₁ ++ l₂, size, hint, firstFree } := by
  have hsub : (l₁ ++ l₂).Sublist map.entries := by
    rw [hl]
    exact (List.sublist_cons_self e l₂).append_left l₁
  have hlength := h.nentries_eq
  rw [hl] at hlength
  refine ⟨⟨fun f hf ↦ h.inOrder.nonempty f (hsub.subset hf), h.inOrder.pairwise.sublist hsub⟩,
    fun f hf ↦ h.inside f (hsub.subset hf), h.nodup.sublist (hsub.map _), ?_, hhint, hfree⟩
  simp only [hlength, List.length_append, List.length_cons]
  omega

theorem Wellformed.extent_lt (h : map.Wellformed) : extent map.entries < 4294967296 :=
  (extent_le h.inOrder h.inside).trans_lt ((Nat.sub_le _ _).trans_lt map.maxOffset.isLt)

theorem Counted.remove (h : map.Counted) (hl : map.entries = l₁ ++ e :: l₂)
    (he : e.start ≤ e.endAddr) (n : ℤ) :
    Counted { map with
      nentries := n, entries := l₁ ++ l₂, size := map.size - (e.endAddr - e.start) } := by
  have hextent : map.size.val = extent (l₁ ++ l₂) + (e.endAddr.val - e.start.val) := by
    have hcounted : map.size.val = extent map.entries := h
    rw [hcounted, hl, extent_append, extent_cons, extent_append]
    omega
  have hlength : (e.endAddr - e.start).val = e.endAddr.val - e.start.val := Fin.sub_val_of_le he
  have hle : e.endAddr - e.start ≤ map.size := by
    rw [Fin.le_def, hlength, hextent]
    exact Nat.le_add_left ..
  change (map.size - (e.endAddr - e.start)).val = extent (l₁ ++ l₂)
  rw [Fin.sub_val_of_le hle, hlength, hextent, Nat.add_sub_cancel]

/-- An entry can be extended into the room behind it. -/
theorem Wellformed.extend (h : map.Wellformed) (hl : map.entries = l₁ ++ p :: l₂)
    {endAddr : VmOffset} (hge : p.endAddr ≤ endAddr) (habove : ∀ f ∈ l₂, endAddr ≤ f.start)
    (hmax : endAddr ≤ map.maxOffset) :
    Wellformed { map with entries := l₁ ++ { p with endAddr } :: l₂ } := by
  have hinOrder := h.inOrder
  have hinside := h.inside
  have hlive := And.intro h.hint_live h.firstFree_live
  rw [hl] at hinOrder hinside hlive
  have hids : ids (l₁ ++ { p with endAddr } :: l₂) = ids (l₁ ++ p :: l₂) := by simp [ids]
  have hsub : ids (l₁ ++ p :: l₂) ⊆ ids (l₁ ++ { p with endAddr } :: l₂) :=
    hids.symm ▸ List.Subset.refl _
  obtain ⟨-, hpair, hbelow⟩ := ordered_append.1 hinOrder
  have hp := (ordered_cons.1 hpair).1
  refine ⟨?_, ?_, ?_, ?_, hlive.1.mono hsub, hlive.2.mono hsub⟩
  · refine Ordered.replace (s := [p]) (t := [{ p with endAddr }]) hinOrder ?_ ?_ ?_
    · exact ordered_cons.2 ⟨hp.trans_le hge, by simp, .nil⟩
    · intro r hr x hx
      rw [List.mem_singleton.1 hx]
      exact hbelow r hr p (List.mem_cons_self ..)
    · intro x hx r hr
      rw [List.mem_singleton.1 hx]
      exact habove r hr
  · intro x hx
    rcases List.mem_append.1 hx with hx | hx
    · exact hinside x (List.mem_append_left _ hx)
    · rcases List.mem_cons.1 hx with rfl | hx
      · exact ⟨(hinside p (by simp)).1, hmax⟩
      · exact hinside x (by simp [hx])
  · change (ids (l₁ ++ { p with endAddr } :: l₂)).Nodup
    rw [hids, ← hl]
    exact h.nodup
  · exact (hl ▸ h.nentries_eq).trans (by simp)

variable [DecidableEq E] {create : Create E O}

/-! ## Deletion -/

theorem entryDelete_split (hl : map.entries = l₁ ++ e :: l₂) (hnodup : (ids map.entries).Nodup) :
    map.entryDelete e.id = .ok (firstId l₂, { map with
      nentries := map.nentries - 1
      entries := l₁ ++ l₂
      size := map.size - (e.endAddr - e.start) }) := by
  unfold entryDelete
  rw [entry_split hl hnodup, next_split hl hnodup, unlink_split hl hnodup]
  rfl

/-- The loop removes the part of the list below an address. -/
theorem Wellformed.deleteLoop (turns : ℕ) {endAddr : VmOffset} (h : map.Wellformed)
    (hl : map.entries = l₁ ++ l₂) (hcreate : Fresh create) (hhint : Live l₁ map.hint)
    (hfree : Live l₁ map.firstFree) (hturns : l₂.countP (·.start < endAddr) < turns) :
    ∃ l n size, VmMap.deleteLoop create endAddr turns (firstId l₂) map =
        .ok { map with nentries := n, entries := l₁ ++ l, size } ∧
      Wellformed { map with nentries := n, entries := l₁ ++ l, size } ∧
        (map.Counted → Counted { map with nentries := n, entries := l₁ ++ l, size }) ∧
          ∀ x, denote l x = if x < endAddr then none else denote l₂ x := by
  induction turns generalizing map l₂ with
  | zero => exact absurd hturns (Nat.not_lt_zero _)
  | succ turns ih =>
    cases l₂ with
    | nil =>
      refine ⟨[], map.nentries, map.size, ?_, ?_, ?_, fun x ↦ by simp⟩
      · rw [← hl]
        rfl
      · rw [← hl]
        exact h
      · rw [← hl]
        exact id
    | cons e rest =>
      have hunfold : VmMap.deleteLoop create endAddr (turns + 1) (firstId (e :: rest)) map =
          if e.start < endAddr then do
            let map ← map.clipEnd create e.id endAddr
            let deleted ← map.entryDelete e.id
            VmMap.deleteLoop create endAddr turns deleted.1 deleted.2
          else .ok map := by
        rw [firstId, List.head?_cons, Option.map_some, VmMap.deleteLoop, entry_split hl h.nodup]
        rfl
      rw [hunfold]
      have hinOrder : InOrder (e :: rest) := (ordered_append.1 (hl ▸ h.inOrder)).2.1
      have hsub : ∀ m : List (MapEntry E O), ids l₁ ⊆ ids (l₁ ++ m) := fun m ↦
        List.map_subset _ (List.subset_append_left l₁ m)
      split_ifs with hlt
      · obtain ⟨m, l, n, hclip, hmap, hid, hstart, hend, hrest, -, hdenote, -⟩ :=
          h.clipEnd hl hcreate hlt
        have hdelete : entryDelete { map with nentries := n, entries := l₁ ++ m :: l } m.id = _ :=
          entryDelete_split rfl hmap.nodup
        have hremoved := hmap.remove rfl (hhint.mono (hsub l)) (hfree.mono (hsub l))
          (map.size - (m.endAddr - m.start))
        have hcount : l.countP (·.start < endAddr) < turns := by
          rw [countP_clipped hrest]
          rw [List.countP_cons_of_pos (by simpa using hlt)] at hturns
          exact Nat.lt_of_succ_lt_succ hturns
        obtain ⟨l', n', size, hloop, hmap', hcounted, hdenote'⟩ :=
          ih hremoved rfl hhint hfree hcount
        refine ⟨l', n', size, ?_, hmap', fun hc ↦ hcounted (Counted.remove ?_ rfl
          (hmap.inOrder.nonempty m (by simp)).le _), fun x ↦ ?_⟩
        · rw [hclip]
          change (do
            let deleted ← entryDelete { map with nentries := n, entries := l₁ ++ m :: l } e.id
            VmMap.deleteLoop create endAddr turns deleted.1 deleted.2) = _
          rw [← hid, hdelete]
          exact hloop
        · have hclipped : denote (l₁ ++ m :: l) = denote map.entries := by
            rw [hl]
            exact denote_append_congr hdenote
          exact hc.trans (extent_congr h.inOrder hmap.inOrder hclipped.symm)
        · rw [hdenote' x]
          split_ifs with hx
          · rfl
          · have hout : ¬ (m.start ≤ x ∧ x < m.endAddr) := fun hin ↦
              hx (hin.2.trans_le (hend.trans_le (min_le_left ..)))
            rw [← congrFun hdenote x, denote_cons, if_neg hout]
      · refine ⟨e :: rest, map.nentries, map.size, ?_, ?_, ?_, fun x ↦ ?_⟩
        · rw [← hl]
        · rw [← hl]
          exact h
        · rw [← hl]
          exact id
        · split_ifs with hx
          · exact denote_below hinOrder (hx.trans_le (not_lt.1 hlt))
          · rfl

/-- `vm_map_delete` begins with the entries from the start of the region on, and the hint before
them. -/
theorem Wellformed.deleteFrom (h : map.Wellformed) (hcreate : Fresh create) (start : VmOffset) :
    ∃ l₁ l₂ n hint, map.deleteFrom create start =
        .ok (firstId l₂, { map with nentries := n, entries := l₁ ++ l₂, hint }) ∧
      Wellformed { map with nentries := n, entries := l₁ ++ l₂, hint } ∧ Live l₁ hint ∧
        (∀ f ∈ l₁, f.endAddr ≤ start) ∧ (∀ f ∈ l₂, start ≤ f.start) ∧
          EndsWithin (l₁ ++ l₂) map.entries ∧ denote (l₁ ++ l₂) = denote map.entries := by
  have hlast : ∀ l : List (MapEntry E O), Live l (lastId l) := by
    intro l
    have hlive : Live (l ++ []) (lastId l) := live_lastId
    rwa [List.append_nil] at hlive
  unfold VmMap.deleteFrom
  rcases h.lookup start with
    ⟨l₁, e, l₂, hint, hl, hlo, hhi, hlookup, hlive⟩ | ⟨l₁, l₂, hl, hbelow, habove, hlookup⟩
  · have hhint : Wellformed { map with hint } :=
      ⟨h.inOrder, h.inside, h.nodup, h.nentries_eq, hlive, h.firstFree_live⟩
    obtain ⟨l, m, n, hclip, hmap, hid, hstart, hbefore, hends, hdenote, -⟩ :=
      hhint.clipStart hl hcreate hlo hhi
    have hprev : prev { map with nentries := n, entries := l ++ m :: l₂, hint } (some m.id) =
        lastId l := prev_split rfl hmap.nodup
    refine ⟨l, m :: l₂, n, lastId l, ?_, ?_, hlast l, hbefore, fun f hf ↦ ?_, hends, ?_⟩
    · rw [hlookup]
      change (do
        let map ← VmMap.clipStart { map with hint } create e.id start
        return (some e.id, { map with hint := map.prev (some e.id) })) = _
      rw [hclip, ← hid]
      exact congrArg (fun hint ↦ Except.ok (some m.id, { map with
        nentries := n, entries := l ++ m :: l₂, hint })) hprev
    · exact ⟨hmap.inOrder, hmap.inside, hmap.nodup, hmap.nentries_eq, live_lastId,
        hmap.firstFree_live⟩
    · have hnext := ordered_cons.1 (ordered_append.1 hmap.inOrder).2.1
      rcases List.mem_cons.1 hf with rfl | hf
      · exact hstart.ge
      · exact hstart.ge.trans (hnext.1.le.trans (hnext.2.1 f hf))
    · rw [hdenote, hl]
  · have hnext : next { map with hint := lastId l₁ } (lastId l₁) = firstId l₂ :=
      next_lastId hl h.nodup
    refine ⟨l₁, l₂, map.nentries, lastId l₁, ?_, ?_, hlast l₁, hbelow,
      fun f hf ↦ (habove f hf).le, hl ▸ .refl _, by rw [hl]⟩
    · rw [hlookup]
      change Except.ok (next { map with hint := lastId l₁ } (lastId l₁), _) = _
      rw [hnext, ← hl]
    · rw [← hl]
      exact ⟨h.inOrder, h.inside, h.nodup, h.nentries_eq, hl ▸ live_lastId, h.firstFree_live⟩

/-- `vm_map_delete` removes the addresses of the region and no others. -/
theorem Wellformed.vmMapDelete (h : map.Wellformed) (hcreate : Fresh create)
    (start endAddr : VmOffset) :
    ∃ l n size hint firstFree, map.vmMapDelete create start endAddr =
        .ok { map with nentries := n, entries := l, size, hint, firstFree } ∧
      Wellformed { map with nentries := n, entries := l, size, hint, firstFree } ∧
        (map.Counted → Counted { map with nentries := n, entries := l, size, hint, firstFree }) ∧
        (map.Packed → Packed { map with nentries := n, entries := l, size, hint, firstFree }) ∧
          ∀ x, denote l x = if start ≤ x ∧ x < endAddr then none else denote map.entries x := by
  obtain ⟨l₁, l₂, n, hint, hfrom, hmap, hhint, hbelow, habove, hends, hdenote⟩ :=
    h.deleteFrom hcreate start
  have hprev : prev { map with nentries := n, entries := l₁ ++ l₂, hint } (firstId l₂) =
      lastId l₁ := prev_firstId rfl hmap.nodup
  -- A pointer to an entry of the region is moved before it.
  obtain ⟨limit, hlimit, hfree, hreach⟩ : ∃ limit,
      startOf { map with nentries := n, entries := l₁ ++ l₂, hint } map.firstFree = .ok limit ∧
        Live l₁ (if start ≤ limit then lastId l₁ else map.firstFree) ∧
          (map.Packed → start ≤ limit → ∀ x, map.minOffset ≤ x → x < start →
            denote map.entries x ≠ none) := by
    have hlast : Live l₁ (lastId l₁) := by
      have hlive : Live (l₁ ++ []) (lastId l₁) := live_lastId
      rwa [List.append_nil] at hlive
    cases hfirst : map.firstFree with
    | none =>
      refine ⟨map.minOffset, rfl, ?_, fun _ hle x hmin hx ↦ absurd (hle.trans hmin) hx.not_ge⟩
      split_ifs
      · exact hlast
      · exact live_none
    | some id =>
      obtain ⟨f, hf, rfl⟩ := List.mem_map.1 (hmap.firstFree_live id hfirst)
      obtain ⟨m₁, m₂, hm⟩ := List.append_of_mem hf
      refine ⟨f.start, ?_, ?_, fun hpacked hle x hmin hx ↦ ?_⟩
      · exact congrArg (Except.map fun e : MapEntry E O ↦ e.start) (entry_split hm hmap.nodup)
      · split_ifs with hle
        · exact hlast
        · rcases List.mem_append.1 hf with hf | hf
          · exact live_some (List.mem_map_of_mem hf)
          · exact absurd (habove f hf) hle
      · obtain ⟨g, hg, hid, hend⟩ := hends f hf (h.firstFree_live f.id hfirst)
        have hfend : f.start < f.endAddr := hmap.inOrder.nonempty f hf
        exact hpacked g hg (hfirst.trans (congrArg some hid.symm)) x hmin
          (hx.trans_le (hle.trans (hfend.le.trans hend)))
  have hmap' : Wellformed { map with
      nentries := n, entries := l₁ ++ l₂, hint,
      firstFree := if start ≤ limit then lastId l₁ else map.firstFree } :=
    ⟨hmap.inOrder, hmap.inside, hmap.nodup, hmap.nentries_eq, hmap.hint_live,
      hfree.mono (List.map_subset _ (List.subset_append_left l₁ l₂))⟩
  have hturns : l₂.countP (·.start < endAddr) < (l₁ ++ l₂).length + 1 := by
    have hcount := List.countP_le_length (p := (·.start < endAddr)) (l := l₂)
    rw [List.length_append]
    omega
  obtain ⟨l, n', size, hloop, hmap'', hcounted, hdenote'⟩ :=
    hmap'.deleteLoop _ rfl hcreate hhint hfree hturns
  have hdeleted : ∀ x, denote (l₁ ++ l) x =
      if start ≤ x ∧ x < endAddr then none else denote map.entries x := by
    intro x
    rw [← hdenote, denote, denote, piecewise_append, piecewise_append]
    change (denote l₁ x).or (denote l x) = if _ then none else (denote l₁ x).or (denote l₂ x)
    rw [hdenote' x]
    rcases lt_or_ge x start with hx | hx
    · have hnone : denote l₂ x = none := piecewise_of_lt fun f hf ↦ hx.trans_le (habove f hf)
      have hout : ¬ (start ≤ x ∧ x < endAddr) := fun hin ↦ absurd hin.1 (not_le.2 hx)
      rw [if_neg hout, hnone, ite_self]
    · have hnone : denote l₁ x = none := piecewise_of_le fun f hf ↦ (hbelow f hf).trans hx
      rw [hnone, Option.none_or, Option.none_or]
      simp only [hx, true_and]
  refine ⟨l₁ ++ l, n', size, hint, _, ?_, hmap'', fun hc ↦ hcounted ?_, fun hpacked ↦ ?_,
    hdeleted⟩
  · unfold VmMap.vmMapDelete
    rw [hfrom]
    change (do
      let limit ← startOf { map with nentries := n, entries := l₁ ++ l₂, hint } map.firstFree
      VmMap.deleteLoop create endAddr ((l₁ ++ l₂).length + 1) (firstId l₂) { map with
        nentries := n, entries := l₁ ++ l₂, hint
        firstFree := if start ≤ limit then
          prev { map with nentries := n, entries := l₁ ++ l₂, hint } (firstId l₂)
            else map.firstFree }) = _
    rw [hlimit, hprev]
    exact hloop
  · exact hc.trans (extent_congr h.inOrder hmap.inOrder hdenote.symm)
  · intro f hf hfirst x hmin hx
    have hfl₁ : f ∈ l₁ := by
      obtain ⟨g, hg, hid⟩ := List.mem_map.1 (hfree f.id hfirst)
      rcases List.mem_append.1 hf with hf | hf
      · exact hf
      · have hnodup := hmap''.nodup
        change (ids (l₁ ++ l)).Nodup at hnodup
        rw [ids, List.map_append, List.nodup_append] at hnodup
        exact absurd hid (hnodup.2.2 _ (List.mem_map_of_mem hg) _ (List.mem_map_of_mem hf))
    have hxstart : x < start := hx.trans_le (hbelow f hfl₁)
    change denote (l₁ ++ l) x ≠ none
    rw [hdeleted x, if_neg fun hin ↦ hxstart.not_ge hin.1]
    by_cases hle : start ≤ limit
    · exact hreach hpacked hle x hmin hxstart
    · have hsame : map.firstFree = some f.id := by
        have hmoved : (if start ≤ limit then lastId l₁ else map.firstFree) = some f.id := hfirst
        rwa [if_neg hle] at hmoved
      obtain ⟨g, hg, hid, hend⟩ :=
        hends f (List.mem_append_left _ hfl₁) (h.firstFree_live f.id hsame)
      exact hpacked g hg (hsame.trans (congrArg some hid.symm)) x hmin (hx.trans_le hend)

/-! ## Simplification -/

omit [DecidableEq E] in
/-- Two neighbours of a kind describe what one entry does. -/
theorem denote_join (halike : Alike p e) (hmeet : p.endAddr = e.start) (hp : p.start < p.endAddr)
    (he : e.start < e.endAddr) :
    denote (p :: e :: l) = denote ({ p with endAddr := e.endAddr } :: l) := by
  obtain ⟨-, -, -, -, hinheritance, hprotection, hmax, hwired, -, hneeds, hobject,
    hoffset⟩ := halike
  have hmapping : ∀ x, e.mapping x = p.mapping x := by
    intro x
    have hplace : e.offset + (x - e.start) = p.offset + (x - p.start) := by
      rw [← hoffset, hmeet]
      abel
    unfold MapEntry.mapping
    rw [hplace, hobject, hprotection, hmax, hinheritance, hwired, hneeds]
  funext x
  exact piecewise_join l x rfl hmeet rfl hp.le he.le rfl (hmapping x)

/-- Two neighbours are joined if they are of a kind and meet at the address. -/
theorem Wellformed.simplifyWith [DecidableEq O] (h : map.Wellformed)
    (hl : map.entries = l₁ ++ p :: e :: l₂) {start : VmOffset} (hlo : e.start ≤ start) :
    ∃ l n hint firstFree, map.simplifyWith e.id p.id start =
        .ok { map with nentries := n, entries := l, hint, firstFree } ∧
      Wellformed { map with nentries := n, entries := l, hint, firstFree } ∧
        (map.Packed → Packed { map with nentries := n, entries := l, hint, firstFree }) ∧
          denote l = denote map.entries := by
  have hl' : map.entries = (l₁ ++ [p]) ++ e :: l₂ := by simpa using hl
  unfold VmMap.simplifyWith
  rw [entry_split hl' h.nodup, entry_split hl h.nodup]
  by_cases hjoin : p.endAddr = start ∧ map.isMainMap ∧ Alike p e
  swap
  · exact ⟨map.entries, map.nentries, map.hint, map.firstFree, if_neg hjoin, h, id, rfl⟩
  obtain ⟨hend, -, halike⟩ := id hjoin
  obtain ⟨hl₁, hpair, hbelow⟩ := ordered_append.1 (hl ▸ h.inOrder)
  obtain ⟨hp, hafter, herest⟩ := ordered_cons.1 hpair
  obtain ⟨he, habove, hl₂⟩ := ordered_cons.1 herest
  have hmeet : p.endAddr = e.start :=
    le_antisymm (hafter e (List.mem_cons_self ..)) (hend ▸ hlo)
  have hsub : ∀ id, id ∈ ids map.entries → id ≠ e.id → id ∈ ids ((l₁ ++ [p]) ++ l₂) := by
    intro id hid hne
    rw [hl'] at hid
    simp only [ids, List.map_append, List.map_cons, List.mem_append, List.mem_cons] at hid ⊢
    tauto
  have hfree : Live ((l₁ ++ [p]) ++ l₂)
      (if map.firstFree = some e.id then some p.id else map.firstFree) := by
    split_ifs with hfirst
    · exact live_some (by simp)
    · exact fun id hid ↦ hsub id (h.firstFree_live id hid) fun hide ↦ hfirst (hide ▸ hid)
  have hhint : Live ((l₁ ++ [p]) ++ l₂) (some p.id) := live_some (by simp)
  have hremoved := h.remove hl' hhint hfree map.size
  have hunlinked : (l₁ ++ [p]) ++ l₂ = l₁ ++ p :: l₂ := by simp
  have hextended := hremoved.extend hunlinked (hmeet.trans_le he.le) habove
    (h.inside e (hl' ▸ by simp)).2
  have hkept : ∀ f, f ∈ l₁ ∨ f ∈ l₂ →
      (if map.firstFree = some e.id then some p.id else map.firstFree) = some f.id →
        map.Packed → ∀ x, map.minOffset ≤ x → x < f.endAddr → denote map.entries x ≠ none := by
    intro f hf hmoved hpacked
    obtain ⟨hbefore, hbehind⟩ := ids_split (hl ▸ h.nodup)
    have hmem : f ∈ map.entries ∧ f.id ≠ p.id := by
      rcases hf with hf | hf
      · exact ⟨hl ▸ by simp [hf], hbefore f hf⟩
      · exact ⟨hl ▸ by simp [hf], hbehind f (List.mem_cons_of_mem e hf)⟩
    split_ifs at hmoved
    · exact absurd (Option.some.inj hmoved).symm hmem.2
    · exact hpacked f hmem.1 hmoved
  have hjoined : denote (l₁ ++ { p with endAddr := e.endAddr } :: l₂) = denote map.entries := by
    rw [hl]
    exact denote_append_congr (denote_join halike hmeet hp he).symm
  refine ⟨l₁ ++ { p with endAddr := e.endAddr } :: l₂, map.nentries - 1, some p.id, _, ?_,
    hextended, ?_, hjoined⟩
  · have hmodify := modify_split hunlinked hremoved.nodup fun p ↦ { p with endAddr := e.endAddr }
    have hunlink : unlink { map with
        firstFree := if map.firstFree = some e.id then some p.id else map.firstFree
        hint := some p.id } e.id = _ := unlink_split hl' h.nodup
    refine (if_pos hjoin).trans (congrArg Except.ok ?_)
    rw [hunlink]
    exact hmodify
  · intro hpacked f hf hfirst x hmin hx
    change denote (l₁ ++ { p with endAddr := e.endAddr } :: l₂) x ≠ none
    rw [hjoined]
    have hmoved : (if map.firstFree = some e.id then some p.id else map.firstFree) = some f.id :=
      hfirst
    rcases List.mem_append.1 hf with hf | hf
    · exact hkept f (.inl hf) hmoved hpacked x hmin hx
    rcases List.mem_cons.1 hf with rfl | hf
    · rcases lt_or_ge x e.start with hxe | hxe
      · split_ifs at hmoved with hfree
        · exact hpacked e (hl' ▸ by simp) hfree x hmin (hxe.trans he)
        · exact hpacked p (hl ▸ by simp) hmoved x hmin (hmeet ▸ hxe)
      · exact mem_cover_iff.1 ⟨e, hl' ▸ by simp, hxe, hx⟩
    · exact hkept f (.inr hf) hmoved hpacked x hmin hx

/-- `vm_map_simplify` may join two entries, and changes no address. -/
theorem Wellformed.vmMapSimplify [DecidableEq O] (h : map.Wellformed) (start : VmOffset) :
    ∃ l n hint firstFree, map.vmMapSimplify start =
        .ok { map with nentries := n, entries := l, hint, firstFree } ∧
      Wellformed { map with nentries := n, entries := l, hint, firstFree } ∧
        (map.Packed → Packed { map with nentries := n, entries := l, hint, firstFree }) ∧
          denote l = denote map.entries := by
  unfold VmMap.vmMapSimplify
  rcases h.lookup start with
    ⟨l₁, e, l₂, hint, hl, hlo, -, hlookup, hlive⟩ | ⟨l₁, l₂, hl, -, -, hlookup⟩
  · have hhint : Wellformed { map with hint } :=
      ⟨h.inOrder, h.inside, h.nodup, h.nentries_eq, hlive, h.firstFree_live⟩
    have hprev : prev { map with hint } (some e.id) = lastId l₁ := prev_split hl h.nodup
    simp only [hlookup, bind, Except.bind, hprev]
    rcases List.eq_nil_or_concat l₁ with rfl | ⟨l, p, rfl⟩
    · exact ⟨map.entries, map.nentries, hint, map.firstFree, rfl, hhint, id, rfl⟩
    · have hlp : map.entries = l ++ p :: e :: l₂ := by simpa using hl
      simp only [lastId, List.concat_eq_append, List.getLast?_concat, Option.map_some]
      exact hhint.simplifyWith hlp hlo
  · rw [hlookup]
    exact ⟨map.entries, map.nentries, lastId l₁, map.firstFree, rfl, ⟨h.inOrder, h.inside, h.nodup,
      h.nentries_eq, hl ▸ live_lastId, h.firstFree_live⟩, id, rfl⟩

/-! ## Insertion -/

/-- What a new entry of a main map maps an address to. -/
def inserted (object : Option O) (offset start : VmOffset) (address : VmOffset) : Mapping O where
  object := object
  offset := offset + (address - start)
  protection := vmProtDefault
  maxProtection := vmProtDefault
  inheritance := vmInheritDefault
  wiredCount := 0
  needsCopy := false

omit [DecidableEq E] in
theorem newEntry_mapping (hmain : map.isMainMap) (memory : MapEntry E O) (object : Option O)
    (offset start endAddr x : VmOffset) :
    (map.newEntry memory object offset start endAddr).mapping x =
      inserted object offset start x := by
  unfold newEntry
  rw [if_pos hmain]
  rfl

omit [DecidableEq E] in
/-- The fields that do not depend on the kind of map. -/
theorem newEntry_fields (map : VmMap E O) (memory : MapEntry E O) (object : Option O)
    (offset start endAddr : VmOffset) :
    (map.newEntry memory object offset start endAddr).id = memory.id ∧
      (map.newEntry memory object offset start endAddr).start = start ∧
        (map.newEntry memory object offset start endAddr).endAddr = endAddr := by
  unfold newEntry
  split_ifs
  · exact ⟨rfl, rfl, rfl⟩
  · exact ⟨rfl, rfl, rfl⟩

omit [DecidableEq E] in
/-- Between two positions nothing is mapped. -/
theorem denote_gap {start endAddr x : VmOffset} (hbelow : ∀ f ∈ l₁, f.endAddr ≤ start)
    (habove : ∀ f ∈ l₂, endAddr ≤ f.start) (hx : start ≤ x ∧ x < endAddr) :
    denote l₁ x = none ∧ denote l₂ x = none :=
  ⟨piecewise_of_le fun f hf ↦ (hbelow f hf).trans hx.1,
    piecewise_of_lt fun f hf ↦ hx.2.trans_le (habove f hf)⟩

omit [DecidableEq E] in
/-- An entry put into a gap adds its own addresses. -/
theorem denote_insert (hbelow : ∀ f ∈ l₁, f.endAddr ≤ e.start) (x : VmOffset) :
    denote (l₁ ++ e :: l₂) x =
      if e.start ≤ x ∧ x < e.endAddr then some (e.mapping x) else denote (l₁ ++ l₂) x := by
  rw [denote, denote, piecewise_append, piecewise_append, piecewise_cons]
  split_ifs with hx
  · rw [piecewise_of_le fun f hf ↦ (hbelow f hf).trans hx.1, Option.none_or]
  · rfl

/-- A new entry goes into the gap that was found for it. -/
theorem Wellformed.insertAfter (h : map.Wellformed) (hl : map.entries = l₁ ++ l₂)
    (hcreate : Fresh create) {start endAddr : VmOffset} (hmin : map.minOffset ≤ start)
    (hmax : endAddr ≤ map.maxOffset) (hlt : start < endAddr)
    (hbelow : ∀ f ∈ l₁, f.endAddr ≤ start) (habove : ∀ f ∈ l₂, endAddr ≤ f.start)
    (object : Option O) (offset : VmOffset) :
    ∃ new n size firstFree, map.insertAfter create (lastId l₁) object offset start endAddr =
        .ok { map with nentries := n, entries := l₁ ++ new :: l₂, size, firstFree } ∧
      Wellformed { map with nentries := n, entries := l₁ ++ new :: l₂, size, firstFree } ∧
        (map.Counted →
          Counted { map with nentries := n, entries := l₁ ++ new :: l₂, size, firstFree }) ∧
        (map.Packed → (map.firstFree = none → l₁ = [] → start ≤ map.minOffset) →
          Packed { map with nentries := n, entries := l₁ ++ new :: l₂, size, firstFree }) ∧
          new = map.newEntry (map.entryCreate create) object offset start endAddr := by
  set new := map.newEntry (map.entryCreate create) object offset start endAddr with hnew
  obtain ⟨hid, hstart, hend⟩ :=
    newEntry_fields map (map.entryCreate create) object offset start endAddr
  rw [← hnew] at hid hstart hend
  have hnodup := h.nodup
  have hinside := h.inside
  have hlive := And.intro h.hint_live h.firstFree_live
  have hnot : new.id ∉ ids map.entries := hid ▸ hcreate _
  rw [hl] at hnodup hinside hlive hnot
  have hids : (ids (l₁ ++ new :: l₂)).Perm (new.id :: ids (l₁ ++ l₂)) := by
    simp only [ids, List.map_append, List.map_cons]
    exact List.perm_middle
  have hsub : ids (l₁ ++ l₂) ⊆ ids (l₁ ++ new :: l₂) := fun id hid ↦
    hids.mem_iff.2 (List.mem_cons_of_mem _ hid)
  have hnodup' : (ids (l₁ ++ new :: l₂)).Nodup :=
    hids.nodup_iff.2 (List.nodup_cons.2 ⟨hnot, hnodup⟩)
  have hwellformed : ∀ size firstFree, Live (l₁ ++ new :: l₂) firstFree → Wellformed { map with
      nentries := map.nentries + 1, entries := l₁ ++ new :: l₂, size, firstFree } := by
    intro size firstFree hfree
    refine ⟨?_, fun x hx ↦ ?_, hnodup', ?_, hlive.1.mono hsub, hfree⟩
    · refine Ordered.replace (s := []) (t := [new]) (hl ▸ h.inOrder) ?_ ?_ ?_
      · exact ordered_cons.2 ⟨hstart ▸ hend ▸ hlt, by simp, .nil⟩
      · intro r hr x hx
        rw [List.mem_singleton.1 hx, hstart]
        exact hbelow r hr
      · intro x hx r hr
        rw [List.mem_singleton.1 hx, hend]
        exact habove r hr
    · rcases List.mem_append.1 hx with hx | hx
      · exact hinside x (List.mem_append_left _ hx)
      · rcases List.mem_cons.1 hx with rfl | hx
        · exact ⟨hstart ▸ hmin, hend ▸ hmax⟩
        · exact hinside x (List.mem_append_right _ hx)
    · have hlength := h.nentries_eq
      rw [hl] at hlength
      simp only [hlength, List.length_append, List.length_cons]
      omega
  have hlink : map.link (lastId l₁) new = _ := link_lastId hl h.nodup
  obtain ⟨limit, hlimit, hlast⟩ : ∃ limit, endOf { map with
      nentries := map.nentries + 1, entries := l₁ ++ new :: l₂
      size := map.size + (endAddr - start) } (lastId l₁) = .ok limit ∧
        ∀ p, l₁.getLast? = some p → limit = p.endAddr := by
    rcases List.eq_nil_or_concat l₁ with rfl | ⟨l, p, rfl⟩
    · exact ⟨map.maxOffset, rfl, fun p hp ↦ absurd hp (by simp)⟩
    · rw [List.concat_eq_append] at hnodup' ⊢
      rw [List.append_assoc] at hnodup' ⊢
      rw [lastId, List.getLast?_concat]
      refine ⟨p.endAddr, congrArg (Except.map fun e : MapEntry E O ↦ e.endAddr)
        (entry_split rfl hnodup'), fun q hq ↦ ?_⟩
      have hpq : p = q := by simpa using hq
      rw [hpq]
  refine ⟨new, map.nentries + 1, map.size + (endAddr - start),
    if map.firstFree = lastId l₁ ∧ start ≤ limit then some new.id else map.firstFree, ?_,
    hwellformed _ _ ?_, fun hcounted ↦ ?_, fun hpacked hlowest ↦ ?_, rfl⟩
  · unfold VmMap.insertAfter
    rw [← hnew]
    simp only [hlink, hlimit, bind, Except.bind]
    split_ifs
    · rfl
    · rfl
  · split_ifs
    · exact live_some (by simp)
    · exact hlive.2.mono hsub
  · have hadded := (hwellformed 0 none live_none).extent_lt
    change extent (l₁ ++ new :: l₂) < _ at hadded
    have hold : map.size.val = extent map.entries := hcounted
    change (map.size + (endAddr - start)).val = extent (l₁ ++ new :: l₂)
    rw [hl, extent_append] at hold
    rw [extent_append, extent_cons, hstart, hend] at hadded ⊢
    rw [Fin.val_add, Fin.sub_val_of_le hlt.le, hold]
    omega
  · intro f hf hfirst x hmin' hx
    have hinsert : denote map.entries x ≠ none → denote (l₁ ++ new :: l₂) x ≠ none := by
      intro hmapped
      rw [denote_insert (hstart.symm ▸ hbelow), ← hl]
      split_ifs
      · exact Option.some_ne_none _
      · exact hmapped
    have hold : ∀ g ∈ l₁ ++ new :: l₂, g.id ∈ ids (l₁ ++ l₂) → g ∈ map.entries := by
      intro g hg hgid
      rcases List.mem_append.1 hg with hg | hg
      · exact hl ▸ List.mem_append_left _ hg
      · rcases List.mem_cons.1 hg with rfl | hg
        · exact absurd hgid hnot
        · exact hl ▸ List.mem_append_right _ hg
    have hmoved : (if map.firstFree = lastId l₁ ∧ start ≤ limit then some new.id
        else map.firstFree) = some f.id := hfirst
    split_ifs at hmoved with hmeet
    · rcases lt_or_ge x start with hxstart | hxstart
      · refine hinsert ?_
        rcases List.eq_nil_or_concat l₁ with rfl | ⟨l, p, rfl⟩
        · exact absurd (hlowest hmeet.1 rfl) ((hmin'.trans_lt hxstart).not_ge)
        · have hp : p ∈ map.entries := hl ▸ by simp
          have hpfirst : map.firstFree = some p.id := hmeet.1.trans (by simp)
          have hpend : limit = p.endAddr := hlast p (by simp)
          exact hpacked p hp hpfirst x hmin' (hxstart.trans_le (hpend ▸ hmeet.2))
      · have hfnew : f = new := by
          by_contra hne
          refine hnot (List.mem_map.2 ⟨f, ?_, (Option.some.inj hmoved).symm⟩)
          simp only [List.mem_append, List.mem_cons] at hf ⊢
          tauto
        exact mem_cover_iff.1 ⟨f, hf, hfnew ▸ hstart.le.trans hxstart, hx⟩
    · exact hinsert (hpacked f (hold f hf (hlive.2 f.id hmoved)) hmoved x hmin' hx)

/-- What `vm_map_insert` does to the list, in a gap between two entries: the addresses of the region
are added. Only anonymous memory is joined to what is there. -/
structure Added (map : VmMap E O) (object : Option O) (offset start endAddr : VmOffset)
    (l : List (MapEntry E O)) : Prop where
  free : ∀ x, start ≤ x → x < endAddr → denote map.entries x = none
  mapped : ∀ x, start ≤ x → x < endAddr → ∃ m, denote l x = some m ∧
    (map.isMainMap → object.isSome → m = inserted object offset start x)
  outside : ∀ x, ¬ (start ≤ x ∧ x < endAddr) → denote l x = denote map.entries x

theorem Wellformed.insertBehind (h : map.Wellformed) (hl : map.entries = l₁ ++ l₂)
    (hcreate : Fresh create) {start endAddr : VmOffset} (hmin : map.minOffset ≤ start)
    (hmax : endAddr ≤ map.maxOffset) (hlt : start < endAddr)
    (hbelow : ∀ f ∈ l₁, f.endAddr ≤ start) (habove : ∀ f ∈ l₂, endAddr ≤ f.start)
    (coalesce : Coalesce O) (object : Option O) (offset : VmOffset) :
    ∃ l n size firstFree,
      map.insertBehind create coalesce (lastId l₁) object offset start endAddr =
        .ok { map with nentries := n, entries := l, size, firstFree } ∧
      Wellformed { map with nentries := n, entries := l, size, firstFree } ∧
        (map.Counted → Counted { map with nentries := n, entries := l, size, firstFree }) ∧
        (map.Packed → (map.firstFree = none → l₁ = [] → start ≤ map.minOffset) →
          Packed { map with nentries := n, entries := l, size, firstFree }) ∧
          map.Added object offset start endAddr l := by
  have hfree : ∀ x, start ≤ x → x < endAddr → denote map.entries x = none := by
    intro x hlo hhi
    obtain ⟨hnone, hnone'⟩ := denote_gap hbelow habove ⟨hlo, hhi⟩
    rw [hl, denote, piecewise_append]
    exact (congrArg (Option.or · (denote l₂ x)) hnone).trans hnone'
  -- A new entry
  have hnewEntry : ∃ l n size firstFree,
      map.insertAfter create (lastId l₁) object offset start endAddr =
        .ok { map with nentries := n, entries := l, size, firstFree } ∧
      Wellformed { map with nentries := n, entries := l, size, firstFree } ∧
        (map.Counted → Counted { map with nentries := n, entries := l, size, firstFree }) ∧
        (map.Packed → (map.firstFree = none → l₁ = [] → start ≤ map.minOffset) →
          Packed { map with nentries := n, entries := l, size, firstFree }) ∧
          map.Added object offset start endAddr l := by
    obtain ⟨new, n, size, firstFree, hok, hmap, hcounted, hpacked, hnew⟩ :=
      h.insertAfter hl hcreate hmin hmax hlt hbelow habove object offset
    obtain ⟨-, hstart, hend⟩ :=
      newEntry_fields map (map.entryCreate create) object offset start endAddr
    rw [← hnew] at hstart hend
    have hinsert : ∀ x, denote (l₁ ++ new :: l₂) x =
        if new.start ≤ x ∧ x < new.endAddr then some (new.mapping x) else denote (l₁ ++ l₂) x :=
      denote_insert (hstart.symm ▸ hbelow)
    rw [hstart, hend] at hinsert
    refine ⟨_, n, size, firstFree, hok, hmap, hcounted, hpacked, hfree, fun x hlo hhi ↦ ?_,
      fun x hout ↦ ?_⟩
    · refine ⟨_, (hinsert x).trans (if_pos ⟨hlo, hhi⟩), fun hmain _ ↦ ?_⟩
      rw [hnew]
      exact newEntry_mapping hmain ..
    · rw [hinsert x, if_neg hout, hl]
  rcases List.eq_nil_or_concat l₁ with rfl | ⟨l, p, rfl⟩
  · exact hnewEntry
  rw [List.concat_eq_append] at hl hbelow hnewEntry ⊢
  have hlast : lastId (l ++ [p]) = some p.id := by simp
  have hlp : map.entries = l ++ p :: l₂ := by simpa using hl
  rw [hlast] at hnewEntry ⊢
  have hunfold : map.insertBehind create coalesce (some p.id) object offset start endAddr =
      if object.isNone ∧ map.Extensible p start ∧
          coalesce p.object none p.offset 0 (p.endAddr - p.start) (endAddr - p.endAddr) then
        .ok (modify { map with size := map.size + (endAddr - p.endAddr) } p.id
          fun e ↦ { e with endAddr })
      else map.insertAfter create (some p.id) object offset start endAddr := by
    simp only [VmMap.insertBehind, entry_split hlp h.nodup, bind, Except.bind, pure, Except.pure]
  rw [hunfold]
  split_ifs with hcoalesce
  swap
  · exact hnewEntry
  obtain ⟨hobject, hextensible, -⟩ := hcoalesce
  have hsized : Wellformed { map with size := map.size + (endAddr - p.endAddr) } :=
    ⟨h.inOrder, h.inside, h.nodup, h.nentries_eq, h.hint_live, h.firstFree_live⟩
  have hmeet : p.endAddr = start := hextensible.1
  have hp : p.start < start := hmeet ▸ h.inOrder.nonempty p (hlp ▸ by simp)
  have hbefore : ∀ f ∈ l, f.endAddr ≤ p.start := fun f hf ↦
    (ordered_append.1 (hlp ▸ h.inOrder)).2.2 f hf p (List.mem_cons_self ..)
  have hextended : ∀ x, denote (l ++ { p with endAddr } :: l₂) x =
      if p.start ≤ x ∧ x < endAddr then some (p.mapping x) else denote (l ++ l₂) x :=
    denote_insert hbefore
  have hold : ∀ x, denote map.entries x =
      if p.start ≤ x ∧ x < start then some (p.mapping x) else denote (l ++ l₂) x := by
    intro x
    rw [hlp, denote_insert hbefore, hmeet]
  have hmap := hsized.extend hlp (hmeet.trans_le hlt.le) habove hmax
  refine ⟨l ++ { p with endAddr } :: l₂, map.nentries, _, map.firstFree, ?_,
    hmap, fun hcounted ↦ ?_, fun hpacked _ f hf hfirst x hmin' hx ↦ ?_, hfree,
    fun x hlo hhi ↦ ?_, fun x hout ↦ ?_⟩
  · have hls : entries { map with size := map.size + (endAddr - p.endAddr) } = l ++ p :: l₂ := hlp
    exact congrArg Except.ok (modify_split hls hsized.nodup _)
  · have hadded := hmap.extent_lt
    change extent (l ++ { p with endAddr } :: l₂) < _ at hadded
    have hold : map.size.val = extent map.entries := hcounted
    change (map.size + (endAddr - p.endAddr)).val = extent (l ++ { p with endAddr } :: l₂)
    have hlep : p.endAddr ≤ endAddr := hmeet.trans_le hlt.le
    have hpstart : p.start ≤ p.endAddr := (hp.trans_eq hmeet.symm).le
    rw [Fin.le_def] at hpstart
    rw [hlp, extent_append, extent_cons] at hold
    rw [extent_append, extent_cons] at hadded ⊢
    rw [Fin.val_add, Fin.sub_val_of_le hlep, hold]
    rw [Fin.le_def] at hlep
    change _ + (endAddr.val - p.start.val + _) < _ at hadded
    change _ = _ + (endAddr.val - p.start.val + _)
    omega
  · change denote (l ++ { p with endAddr } :: l₂) x ≠ none
    have hgrown : denote map.entries x ≠ none →
      denote (l ++ { p with endAddr } :: l₂) x ≠ none := by
      rw [hextended x, hold x]
      intro hmapped
      by_cases hin : p.start ≤ x ∧ x < endAddr
      · rw [if_pos hin]
        exact Option.some_ne_none _
      · rw [if_neg fun hx' ↦ hin ⟨hx'.1, hx'.2.trans hlt⟩] at hmapped
        rwa [if_neg hin]
    rcases List.mem_append.1 hf with hf | hf
    · exact hgrown (hpacked f (hlp ▸ List.mem_append_left _ hf) hfirst x hmin' hx)
    rcases List.mem_cons.1 hf with rfl | hf
    · rcases lt_or_ge x start with hxstart | hxstart
      · exact hgrown (hpacked p (hlp ▸ by simp) hfirst x hmin' (hmeet ▸ hxstart))
      · rw [hextended x, if_pos ⟨(hp.trans_le hxstart).le, hx⟩]
        exact Option.some_ne_none _
    · exact hgrown (hpacked f (hlp ▸ by simp [hf]) hfirst x hmin' hx)
  · rw [hextended x, if_pos ⟨(hp.trans_le hlo).le, hhi⟩]
    refine ⟨_, rfl, fun _ hsome ↦ ?_⟩
    rw [Option.isNone_iff_eq_none.1 hobject] at hsome
    exact absurd hsome (by simp)
  · rw [hextended x, hold x]
    rcases lt_or_ge x start with hx | hx
    · simp only [hx, hx.trans hlt, and_true]
    · have hend : ¬ x < endAddr := fun hhi ↦ hout ⟨hx, hhi⟩
      simp only [hx.not_gt, hend, and_false, if_false]

/-- The outcome of `vm_map_insert`: the addresses of the region are added, or all but the hint is
left as it is. -/
def Inserted (map : VmMap E O) (object : Option O) (offset start endAddr : VmOffset)
    (outcome : Except Fault (KernReturn × VmMap E O)) : Prop :=
  ∃ result l n size hint firstFree,
    outcome = .ok (result, { map with nentries := n, entries := l, size, hint, firstFree }) ∧
    Wellformed { map with nentries := n, entries := l, size, hint, firstFree } ∧
      ((result = .success ∧ map.Added object offset start endAddr l) ∨
        (result ≠ .success ∧ l = map.entries ∧ n = map.nentries ∧ size = map.size ∧
          firstFree = map.firstFree))

omit [DecidableEq E] in
theorem Wellformed.inserted_failed (h : map.Wellformed) {object : Option O}
    {offset start endAddr : VmOffset} {hint : Option E} (hlive : Live map.entries hint)
    {result : KernReturn} (hresult : result ≠ .success) :
    map.Inserted object offset start endAddr (.ok (result, { map with hint })) :=
  ⟨result, map.entries, map.nentries, map.size, hint, map.firstFree, rfl, ⟨h.inOrder, h.inside,
    h.nodup, h.nentries_eq, hlive, h.firstFree_live⟩, .inr ⟨hresult, rfl, rfl, rfl, rfl⟩⟩

/-- `vm_map_insert` gives up, or the region lies between two neighbours and it goes on behind the
first of them. -/
theorem Wellformed.vmMapInsert_cases (h : map.Wellformed) (create : Create E O)
    (coalesce : Coalesce O) (object : Option O) (offset start endAddr : VmOffset) :
    (∃ result hint, result ≠ .success ∧ Live map.entries hint ∧
      map.vmMapInsert create coalesce object offset start endAddr =
        .ok (result, { map with hint })) ∨
    ∃ l₁ l₂, map.entries = l₁ ++ l₂ ∧ map.minOffset ≤ start ∧ endAddr ≤ map.maxOffset ∧
      start < endAddr ∧ (∀ f ∈ l₁, f.endAddr ≤ start) ∧ (∀ f ∈ l₂, endAddr ≤ f.start) ∧
        map.vmMapInsert create coalesce object offset start endAddr =
          (VmMap.insertBehind { map with hint := lastId l₁ } create coalesce (lastId l₁) object
            offset start endAddr).map fun map ↦ (.success, map) := by
  unfold VmMap.vmMapInsert
  by_cases hbad : start < map.minOffset ∨ map.maxOffset < endAddr ∨ endAddr ≤ start
  · rw [if_pos hbad]
    exact .inl ⟨.invalidAddress, map.hint, by decide, h.hint_live, rfl⟩
  rw [if_neg hbad]
  simp only [not_or, not_lt, not_le] at hbad
  obtain ⟨hmin, hmax, hlt⟩ := hbad
  rcases h.lookup start with
    ⟨l₁, e, l₂, hint, -, -, -, hlookup, hlive⟩ | ⟨l₁, l₂, hl, hbelow, habove, hlookup⟩
  · rw [hlookup]
    exact .inl ⟨.noSpace, hint, by decide, hlive, rfl⟩
  have hlive : Live map.entries (lastId l₁) := hl ▸ live_lastId
  have hnext : next { map with hint := lastId l₁ } (lastId l₁) = firstId l₂ :=
    next_lastId hl h.nodup
  rw [hlookup]
  simp only [bind, Except.bind, hnext, Bool.false_eq_true, if_false]
  cases l₂ with
  | nil =>
    simp only [firstId, List.head?_nil, Option.map_none, startOf, ne_eq, not_true_eq_false,
      false_and, if_false]
    exact .inr ⟨l₁, [], hl, hmin, hmax, hlt, hbelow, fun f hf ↦ absurd hf List.not_mem_nil, rfl⟩
  | cons f rest =>
    have hfirst : startOf { map with hint := lastId l₁ } (some f.id) = .ok f.start :=
      congrArg (Except.map fun e : MapEntry E O ↦ e.start) (entry_split hl h.nodup)
    have hrest := ordered_cons.1 (ordered_append.1 (hl ▸ h.inOrder)).2.1
    simp only [firstId, List.head?_cons, Option.map_some, hfirst, ne_eq, reduceCtorEq,
      not_false_eq_true, true_and]
    by_cases hroom : f.start < endAddr
    · rw [if_pos hroom]
      exact .inl ⟨.noSpace, lastId l₁, by decide, hlive, rfl⟩
    · rw [if_neg hroom]
      refine .inr ⟨l₁, f :: rest, hl, hmin, hmax, hlt, hbelow, fun g hg ↦ ?_, rfl⟩
      rcases List.mem_cons.1 hg with rfl | hg
      · exact not_lt.1 hroom
      · exact (not_lt.1 hroom).trans (hrest.1.le.trans (hrest.2.1 g hg))

theorem Wellformed.vmMapInsert (h : map.Wellformed) (hcreate : Fresh create)
    (coalesce : Coalesce O) (object : Option O) (offset start endAddr : VmOffset) :
    map.Inserted object offset start endAddr
      (map.vmMapInsert create coalesce object offset start endAddr) := by
  rcases h.vmMapInsert_cases create coalesce object offset start endAddr with
    ⟨result, hint, hresult, hlive, hok⟩ | ⟨l₁, l₂, hl, hmin, hmax, hlt, hbelow, habove, hok⟩
  · rw [hok]
    exact h.inserted_failed hlive hresult
  · have hhint : Wellformed { map with hint := lastId l₁ } :=
      ⟨h.inOrder, h.inside, h.nodup, h.nentries_eq, hl ▸ live_lastId, h.firstFree_live⟩
    obtain ⟨l, n, size, firstFree, hinsert, hmap, -, -, hadded⟩ :=
      hhint.insertBehind hl hcreate hmin hmax hlt hbelow habove coalesce object offset
    rw [hok, hinsert]
    exact ⟨.success, l, n, size, lastId l₁, firstFree, rfl, hmap,
      .inl ⟨rfl, hadded.free, hadded.mapped, hadded.outside⟩⟩

/-- `vm_map_insert` counts the region, and leaves `first_free` in order unless that is the header
and the region becomes the lowest entry with room below it. -/
theorem Wellformed.vmMapInsert_kept (h : map.Wellformed) (hcreate : Fresh create)
    {coalesce : Coalesce O} {object : Option O} {offset start endAddr : VmOffset}
    {result : KernReturn} {map' : VmMap E O}
    (hok : map.vmMapInsert create coalesce object offset start endAddr = .ok (result, map')) :
    (map.Counted → map'.Counted) ∧
      (map.Packed → (map.firstFree = none → (∀ f ∈ map.entries, endAddr ≤ f.start) →
        start < endAddr → endAddr ≤ map.maxOffset → start ≤ map.minOffset) → map'.Packed) := by
  rcases h.vmMapInsert_cases create coalesce object offset start endAddr with
    ⟨result', hint, -, -, hfailed⟩ | ⟨l₁, l₂, hl, hmin, hmax, hlt, hbelow, habove, hbehind⟩
  · obtain ⟨-, rfl⟩ := Prod.ext_iff.1 (Except.ok.inj (hfailed.symm.trans hok))
    exact ⟨id, fun hpacked _ ↦ hpacked⟩
  · have hhint : Wellformed { map with hint := lastId l₁ } :=
      ⟨h.inOrder, h.inside, h.nodup, h.nentries_eq, hl ▸ live_lastId, h.firstFree_live⟩
    obtain ⟨l, n, size, firstFree, hinsert, -, hcounted, hpacked, -⟩ :=
      hhint.insertBehind hl hcreate hmin hmax hlt hbelow habove coalesce object offset
    rw [hbehind, hinsert] at hok
    obtain ⟨-, rfl⟩ := Prod.ext_iff.1 (Except.ok.inj hok)
    refine ⟨hcounted, fun hp hlowest ↦ hpacked hp fun hfree hnil ↦ ?_⟩
    exact hlowest hfree (hl ▸ hnil ▸ habove) hlt hmax

end VmMap

end Bsd386.Kern.Vm
