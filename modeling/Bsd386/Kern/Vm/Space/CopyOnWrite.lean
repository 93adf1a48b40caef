import Bsd386.Kern.Vm.Space.Translations

/-!
# Copy on write and protections

The pages of an entry that is to be copied on write must not be written in place, so a change of its
protection has to leave their translations without write permission. For an entry of the map itself
`vmspace_protect` asks the first entry of the region whether it is copied on write.
-/

namespace Bsd386.Kern.Vm

variable {E O M : Type}

/-- The protections that an address gets. -/
def Seen.protect (setMax : Bool) (newProt : ℕ) (s : Seen O) : Seen O :=
  { s with
    protection := Space.newProtection setMax newProt s.protection
    maxProtection := if setMax then newProt else s.maxProtection }

/-- The change of its entry's protection takes the write permission of an address, if `cow` is
whether the first entry of the region is copied on write. -/
def TakesWrite (maps : Maps E O M) (setMax : Bool) (newProt : ℕ) (cow : Bool)
    (s : Seen (Ref O M)) : Prop :=
  Space.newProtection setMax newProt s.protection ≠ s.protection ∧
    (¬ Writes (Space.newProtection setMax newProt s.protection) ∨
      if s.isAMap then CowThrough maps s else cow)

namespace Space

variable [DecidableEq E] [LinearOrder M] {w : World E O M} {m n : M}
  {map share : VmMap E (Ref O M)} {l₁ l₂ : List (MapEntry E (Ref O M))}

theorem ensures_modifyEntry (hm : w.maps m = some map) (id : E)
    (edit : MapEntry E (Ref O M) → MapEntry E (Ref O M)) :
    Ensures (modifyEntry m id edit)
      (fun _ w' ↦ w' = { w with maps := putMap w.maps m (map.modify id edit) }) w := by
  refine Ensures.bind (ensures_getMap m w) fun map₁ w₁ hmap ↦ ?_
  obtain ⟨hm₁, rfl⟩ := hmap
  obtain rfl : map = map₁ := Option.some.inj (hm.symm.trans hm₁)
  exact Ensures.modify_iff.2 rfl

section Shares

variable {maps : Maps E O M} {address : VmOffset} {e k : MapEntry E (Ref O M)}
  {l k₁ k₂ : List (MapEntry E (Ref O M))}

omit [DecidableEq E] [LinearOrder M] in
theorem Shares.front (hshares : Shares maps m e) (hlo : e.start < address)
    (hhi : address < e.endAddr) (id : E) : Shares maps m (e.front id address) := by
  intro hamap
  obtain ⟨n, share, hnm, hobject, hn, hshare, hspan, hsee⟩ := hshares hamap
  obtain ⟨hmid, hend⟩ := inner_mem hspan hlo.le hhi
  exact ⟨n, share, hnm, hobject, hn, hshare, hmid, fun y hy hy' ↦ hsee y hy (hy'.trans hend)⟩

omit [DecidableEq E] [LinearOrder M] in
theorem Shares.back (hshares : Shares maps m e) (hlo : e.start < address)
    (hhi : address < e.endAddr) (id : E) : Shares maps m (e.back id address) := by
  intro hamap
  obtain ⟨n, share, hnm, hobject, hn, hshare, hspan, hsee⟩ := hshares hamap
  obtain ⟨hmid, hend⟩ := inner_mem hspan hlo.le hhi
  have hinner : (e.back id address).inner e.endAddr = e.inner e.endAddr := by
    change e.offset + (address - e.start) + (e.endAddr - address) =
      e.offset + (e.endAddr - e.start)
    abel
  refine ⟨n, share, hnm, hobject, hn, hshare, ?_, fun y hy hy' ↦ ?_⟩
  · exact hend.le.trans_eq hinner.symm
  · exact hsee y (hmid.trans hy) (hy'.trans_eq hinner)

omit [DecidableEq E] [LinearOrder M] in
theorem Shares.cut (hcut : VmMap.CutAt address e l₂ k l)
    (hshares : ∀ f ∈ e :: l₂, Shares maps m f) : ∀ f ∈ k :: l, Shares maps m f := by
  rcases hcut with ⟨rfl, rfl⟩ | ⟨id, hlo, hhi, rfl, rfl⟩
  · exact hshares
  · have he := hshares e (List.mem_cons_self ..)
    intro f hf
    rw [List.mem_cons, List.mem_cons] at hf
    rcases hf with rfl | rfl | hf
    · exact Shares.front he hlo hhi e.id
    · exact Shares.back he hlo hhi id
    · exact hshares f (List.mem_cons_of_mem _ hf)

omit [DecidableEq E] [LinearOrder M] in
theorem Shares.clipped (hclipped : VmMap.ClippedAt address k₁ k₂ l₁ l₂)
    (hshares : ∀ f ∈ k₂, Shares maps m f) : ∀ f ∈ l₂, Shares maps m f := by
  rcases hclipped with ⟨-, rfl⟩ | ⟨e, rest, id, rfl, hlo, hhi, -, rfl⟩
  · exact hshares
  · intro f hf
    rcases List.mem_cons.1 hf with rfl | hf
    · exact Shares.back (hshares e (List.mem_cons_self ..)) hlo hhi e.id
    · exact hshares f (List.mem_cons_of_mem _ hf)

end Shares

omit [DecidableEq E] [LinearOrder M] in
/-- The entry of the region that is asked about copying on write stays, as one of the two parts that
an entry is split into. -/
theorem first_cut {address : VmOffset} {e k : MapEntry E (Ref O M)}
    {l : List (MapEntry E (Ref O M))} (hcut : VmMap.CutAt address e l₂ k l) {setMax : Bool}
    {newProt : ℕ} (hnodup : (ids (l₁ ++ setProtection setMax newProt k :: l)).Nodup) {first : E}
    {cow : Bool} (hlive : first ∈ ids (l₁ ++ e :: l₂))
    (hfirst : ∀ f ∈ l₁ ++ e :: l₂, f.id = first → f.copyOnWrite = cow) :
    first ∈ ids (l₁ ++ setProtection setMax newProt k :: l) ∧
      ∀ f ∈ l₁ ++ setProtection setMax newProt k :: l, f.id = first → f.copyOnWrite = cow := by
  rcases hcut with ⟨rfl, rfl⟩ | ⟨id, -, -, rfl, rfl⟩
  · refine ⟨by simpa [ids, setProtection] using hlive, fun f hf hid ↦ ?_⟩
    rw [List.mem_append, List.mem_cons] at hf
    rcases hf with hf | rfl | hf
    · exact hfirst f (by simp [hf]) hid
    · exact hfirst k (by simp) hid
    · exact hfirst f (by simp [hf]) hid
  · have hmem : first ∈ ids (l₁ ++ setProtection setMax newProt (e.front e.id address) :: l₂) := by
      simpa [ids, setProtection, MapEntry.front] using hlive
    have hperm : (ids (l₁ ++ setProtection setMax newProt (e.front e.id address) ::
        e.back id address :: l₂)).Perm
          (id :: ids (l₁ ++ setProtection setMax newProt (e.front e.id address) :: l₂)) := by
      simp only [ids, List.map_append, List.map_cons, MapEntry.back]
      exact (List.perm_middle.trans (List.Perm.cons _ List.perm_middle)).trans
        ((List.Perm.swap ..).trans (List.Perm.cons _ List.perm_middle.symm))
    have hnew : id ≠ first := fun heq ↦
      (List.nodup_cons.1 (hperm.nodup_iff.1 hnodup)).1 (heq ▸ hmem)
    refine ⟨hperm.mem_iff.2 (List.mem_cons_of_mem _ hmem), fun f hf hid ↦ ?_⟩
    rw [List.mem_append, List.mem_cons, List.mem_cons] at hf
    rcases hf with hf | rfl | rfl | hf
    · exact hfirst f (by simp [hf]) hid
    · exact hfirst e (by simp) hid
    · exact absurd hid hnew
    · exact hfirst f (by simp [hf]) hid

/-- One turn of the second loop. -/
theorem ensures_protectEntry {env : Env E O M} (hcreate : VmMap.Fresh env.create)
    (hm : w.maps m = some map) (h : map.Wellformed) {e : MapEntry E (Ref O M)}
    (hl : map.entries = l₁ ++ e :: l₂) (hshares : ∀ f ∈ e :: l₂, Shares w.maps m f)
    {endAddr : VmOffset} (hlo : e.start < endAddr) {first : E} (hlive : first ∈ ids map.entries)
    {cow : Bool} (hfirst : ∀ f ∈ map.entries, f.id = first → f.copyOnWrite = cow)
    (setMax : Bool) (newProt : ℕ) :
    Ensures (protectEntry env m setMax newProt endAddr first e.id) (fun result w' ↦
      result = none ∧ ∃ k l n calls, VmMap.CutAt endAddr e l₂ k l ∧ k.id = e.id ∧
        k.endAddr = min endAddr e.endAddr ∧
        w'.maps m = some { map with
          nentries := n, entries := l₁ ++ setProtection setMax newProt k :: l } ∧
        VmMap.Wellformed { map with
          nentries := n, entries := l₁ ++ setProtection setMax newProt k :: l } ∧
        SameBut m w.maps w'.maps ∧ w'.protects = w.protects ++ calls ∧
        ∀ x, RevokedBy calls m x ↔ (k.start ≤ x ∧ x < k.endAddr) ∧
          TakesWrite w.maps setMax newProt cow (k.seen x)) w := by
  refine Ensures.bind (ensures_onMap m _ w) fun _ w₁ hclip ↦ ?_
  obtain ⟨map₁, map', hm₁, hok, rfl⟩ := hclip
  obtain rfl : map = map₁ := Option.some.inj (hm.symm.trans hm₁)
  obtain ⟨k, l, n, hclip, hwell, hid, -, hend, -, -, -, hcut⟩ := h.clipEnd hl hcreate hlo
  obtain ⟨map₂, hclip', hok⟩ := exists_of_bind_ok hok
  rw [hclip] at hclip'
  cases hclip'
  cases hok
  have hentry : VmMap.entry { map with nentries := n, entries := l₁ ++ k :: l } k.id = .ok k :=
    VmMap.entry_split rfl hwell.nodup
  refine Ensures.bind (ensures_entryOf m e.id _) fun old w₂ hold ↦ ?_
  obtain ⟨⟨map₂, hm₂, hold⟩, rfl⟩ := hold
  obtain rfl := Option.some.inj ((if_pos rfl).symm.trans hm₂)
  rw [← hid, hentry] at hold
  cases hold
  have hset := hwell.set (f := setProtection setMax newProt k) rfl rfl rfl rfl
  have hmodify : VmMap.modify { map with nentries := n, entries := l₁ ++ k :: l } k.id
      (setProtection setMax newProt) =
        { map with nentries := n, entries := l₁ ++ setProtection setMax newProt k :: l } :=
    VmMap.modify_split rfl hwell.nodup _
  refine Ensures.bind (ensures_modifyEntry (if_pos rfl) e.id _) fun _ w₃ hw₃ ↦ ?_
  rw [← hid, hmodify] at hw₃
  subst hw₃
  have hentry' : VmMap.entry { map with
      nentries := n, entries := l₁ ++ setProtection setMax newProt k :: l } k.id =
        .ok (setProtection setMax newProt k) := VmMap.entry_split rfl hset.nodup
  refine Ensures.bind (ensures_entryOf m e.id _) fun current w₃ hcurrent ↦ ?_
  obtain ⟨⟨map₂, hm₂, hcurrent⟩, rfl⟩ := hcurrent
  obtain rfl := Option.some.inj ((if_pos rfl).symm.trans hm₂)
  rw [← hid, hentry'] at hcurrent
  cases hcurrent
  have hsame : SameBut m w.maps (putMap (putMap w.maps m { map with
      nentries := n, entries := l₁ ++ k :: l }) m { map with
        nentries := n, entries := l₁ ++ setProtection setMax newProt k :: l }) :=
    (SameBut.putMap _ _ _).trans (SameBut.putMap _ _ _)
  have hkshares : Shares w.maps m (setProtection setMax newProt k) :=
    Shares.cut hcut hshares k (List.mem_cons_self ..)
  have hthrough : ∀ {maps : Maps E O M} x, SameBut m w.maps maps → k.isAMap →
      (CowThrough maps ((setProtection setMax newProt k).seen x) ↔
        CowThrough w.maps (k.seen x)) := by
    intro maps x hsame hamap
    obtain ⟨n', -, hnm, hobject, -⟩ := hkshares hamap
    refine hsame.cowThrough_iff (s := k.seen x) fun n'' hobject' ↦ ?_
    have heq : some (Ref.map n'') = some (.map n') := hobject'.symm.trans hobject
    cases heq
    exact hnm
  refine Ensures.ite_iff.2 ⟨fun hchanged ↦ ?_, fun hkept ↦ ?_⟩
  · have hasked : ∀ f, VmMap.entry { map with
        nentries := n, entries := l₁ ++ setProtection setMax newProt k :: l } first = .ok f →
          f.copyOnWrite = cow := by
      intro f hf
      obtain ⟨hmem, hfid⟩ := VmMap.mem_of_entry hf
      exact (first_cut hcut hset.nodup (hl ▸ hlive) (hl ▸ hfirst)).2 f hmem hfid
    refine Ensures.bind (ensures_protectPages (if_pos rfl) ?_ (hsame.shares hkshares) hasked _)
      fun _ w₄ hpages ↦ ?_
    · exact hset.inOrder.nonempty _ (List.mem_append_right _ (List.mem_cons_self ..))
    · obtain ⟨calls, hprotects, hmaps, hbut, hrevoked⟩ := hpages
      refine Ensures.pure_iff.2 ⟨rfl, k, l, n, calls, hcut, hid, hend,
        hmaps.trans (if_pos rfl), hset,
        hsame.trans hbut, hprotects, fun x ↦ (hrevoked x).trans (and_congr_right fun _ ↦ ?_)⟩
      refine (iff_of_eq (true_and _)).symm.trans (and_congr (iff_of_true trivial hchanged) ?_)
      refine or_congr_right ?_
      by_cases hamap : k.isAMap
      · exact (iff_of_eq (if_pos hamap)).trans
          ((hthrough x hsame hamap).trans (iff_of_eq (if_pos hamap)).symm)
      · exact (iff_of_eq (if_neg hamap)).trans (iff_of_eq (if_neg hamap)).symm
  · refine Ensures.pure_iff.2 ⟨rfl, k, l, n, [], hcut, hid, hend, if_pos rfl, hset, hsame,
      (List.append_nil _).symm, fun x ↦ iff_of_false ?_ ?_⟩
    · rintro ⟨c, hc, -⟩
      cases hc
    · rintro ⟨-, hne, -⟩
      exact hkept hne

omit [DecidableEq E] [LinearOrder M] in
theorem SameBut.takesWrite_iff {maps maps' : Maps E O M} (hsame : SameBut m maps maps')
    (hshares : ∀ f ∈ l₂, Shares maps m f) {setMax cow : Bool} {newProt : ℕ} {x : VmOffset}
    {s : Seen (Ref O M)} (hinOrder : InOrder l₂) (hs : see l₂ x = some s) :
    TakesWrite maps' setMax newProt cow s ↔ TakesWrite maps setMax newProt cow s := by
  refine and_congr_right fun _ ↦ or_congr_right ?_
  by_cases hamap : s.isAMap
  · obtain ⟨f, hf, -, -, rfl⟩ := hinOrder.piecewise_eq_some.1 hs
    obtain ⟨n, -, hnm, hobject, -⟩ := hshares f hf hamap
    rw [if_pos hamap, if_pos hamap]
    refine hsame.cowThrough_iff fun n' hobject' ↦ ?_
    have heq : some (Ref.map n') = some (.map n) := hobject'.symm.trans hobject
    cases heq
    exact hnm
  · rw [if_neg hamap, if_neg hamap]

/-- The second loop changes the protections up to the end of the region. -/
theorem ensures_protectLoop {env : Env E O M} (hcreate : VmMap.Fresh env.create)
    (hm : w.maps m = some map) (h : map.Wellformed) (hl : map.entries = l₁ ++ l₂)
    (hshares : ∀ f ∈ l₂, Shares w.maps m f) (endAddr : VmOffset) {first : E}
    (hlive : first ∈ ids map.entries) {cow : Bool}
    (hfirst : ∀ f ∈ map.entries, f.id = first → f.copyOnWrite = cow)
    (setMax : Bool) (newProt turns : ℕ) :
    Ensures (loopent m endAddr (protectEntry env m setMax newProt endAddr first) turns (firstId l₂))
      (fun _ w' ↦ ∃ l n calls,
        w'.maps m = some { map with nentries := n, entries := l₁ ++ l } ∧
        VmMap.Wellformed { map with nentries := n, entries := l₁ ++ l } ∧
        SameBut m w.maps w'.maps ∧ w'.protects = w.protects ++ calls ∧
        (∀ x, see l x =
          if x < endAddr then (see l₂ x).map (Seen.protect setMax newProt) else see l₂ x) ∧
        ∀ x, RevokedBy calls m x ↔ x < endAddr ∧
          ∃ s, see l₂ x = some s ∧ TakesWrite w.maps setMax newProt cow s) w := by
  -- At the end of the loop nothing is left to be changed.
  have hdone : ∀ {w : World E O M} {map : VmMap E (Ref O M)}
      {l₁ l₂ : List (MapEntry E (Ref O M))}, w.maps m = some map → map.Wellformed →
      map.entries = l₁ ++ l₂ → (∀ x < endAddr, see l₂ x = none) → ∃ l n calls,
        w.maps m = some { map with nentries := n, entries := l₁ ++ l } ∧
        VmMap.Wellformed { map with nentries := n, entries := l₁ ++ l } ∧
        SameBut m w.maps w.maps ∧ w.protects = w.protects ++ calls ∧
        (∀ x, see l x =
          if x < endAddr then (see l₂ x).map (Seen.protect setMax newProt) else see l₂ x) ∧
        ∀ x, RevokedBy calls m x ↔ x < endAddr ∧
          ∃ s, see l₂ x = some s ∧ TakesWrite w.maps setMax newProt cow s := by
    intro w map l₁ l₂ hm h hl hnone
    refine ⟨l₂, map.nentries, [], hl ▸ hm, hl ▸ h, .refl _, (List.append_nil _).symm, fun x ↦ ?_,
      fun x ↦ iff_of_false ?_ ?_⟩
    · split_ifs with hx
      · rw [hnone x hx]
        rfl
      · rfl
    · rintro ⟨c, hc, -⟩
      cases hc
    · rintro ⟨hx, s, hs, -⟩
      rw [hnone x hx] at hs
      cases hs
  induction turns generalizing w map l₁ l₂ with
  | zero =>
    unfold loopent
    exact Ensures.throw_iff.2 trivial
  | succ turns ih =>
    cases l₂ with
    | nil => exact Ensures.pure_iff.2 (hdone hm h hl fun _ _ ↦ rfl)
    | cons e rest =>
      have hentry := VmMap.entry_split hl h.nodup
      have hinOrder : InOrder (e :: rest) := (Ranges.ordered_append.1 (hl ▸ h.inOrder)).2.1
      refine Ensures.bind (ensures_entryOf m e.id w) fun current w₁ hcurrent ↦ ?_
      obtain ⟨⟨map₁, hm₁, hcurrent⟩, rfl⟩ := hcurrent
      obtain rfl : map = map₁ := Option.some.inj (hm.symm.trans hm₁)
      obtain rfl : e = current := Except.ok.inj (hentry.symm.trans hcurrent)
      refine Ensures.ite_iff.2 ⟨fun hlt ↦ ?_, fun hge ↦ ?_⟩
      · refine Ensures.bind (ensures_protectEntry hcreate hm h hl hshares hlt hlive hfirst setMax
          newProt) fun result w₂ hturn ↦ ?_
        obtain ⟨rfl, k, l, n, calls, hcut, hid, hend, hm₂, hwell, hsame, hprotects, hrevoked⟩ :=
          hturn
        have hcutShares := Shares.cut hcut hshares
        have hkl : InOrder (k :: l) := by
          have hset : InOrder (setProtection setMax newProt k :: l) :=
            (Ranges.ordered_append.1 hwell.inOrder).2.1
          obtain ⟨hne, habove, hrest⟩ := Ranges.ordered_cons.1 hset
          exact Ranges.ordered_cons.2 ⟨hne, habove, hrest⟩
        have hassoc : l₁ ++ setProtection setMax newProt k :: l =
            (l₁ ++ [setProtection setMax newProt k]) ++ l := by simp
        obtain ⟨hlive', hfirst'⟩ := first_cut hcut hwell.nodup (hl ▸ hlive) (hl ▸ hfirst)
        refine Ensures.bind (ensures_nextOf hm₂ (some e.id)) fun next w₃ hnext ↦ ?_
        obtain ⟨rfl, rfl⟩ := hnext
        have hnext : VmMap.next { map with
            nentries := n, entries := l₁ ++ setProtection setMax newProt k :: l } (some k.id) =
              firstId l := VmMap.next_split (e := setProtection setMax newProt k) rfl hwell.nodup
        rw [← hid, hnext]
        refine (ih hm₂ hwell hassoc (fun f hf ↦ hsame.shares (hcutShares f (by simp [hf]))) hlive'
          hfirst').mono fun _ w₄ hrest ↦ ?_
        obtain ⟨l', n', calls', hm₄, hwell', hsame', hprotects', hsee, hrevoked'⟩ := hrest
        have hassoc' : l₁ ++ setProtection setMax newProt k :: l' =
            (l₁ ++ [setProtection setMax newProt k]) ++ l' := by simp
        refine ⟨setProtection setMax newProt k :: l', n', calls ++ calls', hassoc' ▸ hm₄,
          hassoc' ▸ hwell', hsame.trans hsame', ?_, fun x ↦ ?_, fun x ↦ ?_⟩
        · rw [hprotects', hprotects, List.append_assoc]
        · rw [← congrFun hcut.see_eq x, see_cons, see_cons]
          by_cases hx : k.start ≤ x ∧ x < k.endAddr
          · have hxend : x < endAddr := hx.2.trans_le (hend.trans_le (min_le_left ..))
            rw [if_pos hxend, if_pos hx]
            exact if_pos hx
          · rw [if_neg hx]
            exact (if_neg hx).trans (hsee x)
        · rw [revokedBy_append, hrevoked, hrevoked', ← congrFun hcut.see_eq x, see_cons]
          by_cases hx : k.start ≤ x ∧ x < k.endAddr
          · have hxend : x < endAddr := hx.2.trans_le (hend.trans_le (min_le_left ..))
            have hnone : see l x = none := Ranges.piecewise_of_lt fun f hf ↦
              hx.2.trans_le ((Ranges.ordered_cons.1 hkl).2.1 f hf)
            rw [if_pos hx, hnone]
            simp [hx, hxend]
          · rw [if_neg hx]
            refine (or_iff_right fun hin ↦ hx hin.1).trans (and_congr_right fun _ ↦
              exists_congr fun s ↦ and_congr_right fun hs ↦ ?_)
            exact SameBut.takesWrite_iff hsame (fun f hf ↦ hcutShares f (by simp [hf]))
              (Ranges.ordered_cons.1 hkl).2.2 hs
      · refine Ensures.pure_iff.2 (hdone hm h hl fun x hx ↦ ?_)
        exact see_below hinOrder (hx.trans_le (not_lt.1 hge))

end Space

namespace VmMap

variable {map : VmMap E O} {start endAddr : VmOffset} {k₁ k₂ l₁ l₂ : List (MapEntry E O)}

/-- The first entry of the region is copied on write. -/
def firstCow (map : VmMap E O) (start endAddr : VmOffset) : Bool :=
  (map.entries.find? fun e ↦ map.Meets start endAddr e).any (·.copyOnWrite)

/-- The protection of the address is changed: nothing is refused, and it is in the region. -/
def Protects (map : VmMap E O) (start endAddr : VmOffset) (newProt : ℕ) (x : VmOffset) : Prop :=
  map.firstRefused start endAddr newProt = none ∧ map.regionStart start endAddr ≤ x ∧
    x < min endAddr map.maxOffset

theorem firstCow_clipped {e : MapEntry E O} (hk : map.entries = k₁ ++ k₂)
    (hbelow : ∀ f ∈ k₁, f.endAddr ≤ map.regionStart start endAddr)
    (hclipped : ClippedAt (map.regionStart start endAddr) k₁ k₂ l₁ (e :: l₂))
    (hinOrder : InOrder (e :: l₂)) (hstart : ∀ f ∈ e :: l₂, map.regionStart start endAddr ≤ f.start)
    (hlt : e.start < min endAddr map.maxOffset) :
    map.firstCow start endAddr = e.copyOnWrite := by
  have hfind := find_clipped (q := fun _ ↦ True) (g := (·.copyOnWrite)) hk hbelow hclipped hinOrder
    hstart (fun _ _ ↦ Iff.rfl) fun _ _ ↦ rfl
  have htake : (e :: l₂).takeWhile (·.start < min endAddr map.maxOffset) =
      e :: l₂.takeWhile (·.start < min endAddr map.maxOffset) :=
    List.takeWhile_cons_of_pos (decide_eq_true hlt)
  simp only [htake, and_true, decide_true, List.find?_cons_of_pos, Option.map_some] at hfind
  obtain ⟨f, hf, hcow⟩ := Option.map_eq_some_iff.1 hfind.symm
  unfold firstCow
  rw [hf, Option.any_some, hcow]

theorem ClippedAt.below {address : VmOffset} (hclipped : ClippedAt address k₁ k₂ l₁ l₂)
    (hbelow : ∀ f ∈ k₁, f.endAddr ≤ address) : ∀ f ∈ l₁, f.endAddr ≤ address := by
  rcases hclipped with ⟨rfl, -⟩ | ⟨e, rest, id, -, -, -, rfl, -⟩
  · exact hbelow
  · intro f hf
    rcases List.mem_append.1 hf with hf | hf
    · exact hbelow f hf
    · rw [List.mem_singleton.1 hf]
      exact le_rfl

end VmMap

namespace Space

variable [DecidableEq E] [LinearOrder M] {w : World E O M} {m : M} {map : VmMap E (Ref O M)}

/-- What `vmspace_protect` does to the map and the translations. -/
def Protected (w : World E O M) (m : M) (map : VmMap E (Ref O M)) (start endAddr : VmOffset)
    (setMax : Bool) (newProt : ℕ) (result : KernReturn) (w' : World E O M) : Prop :=
  (result = .success ↔ map.firstRefused start endAddr newProt = none) ∧
    SameBut m w.maps w'.maps ∧ ∃ map' calls, w'.maps m = some map' ∧ map'.Wellformed ∧
      w'.protects = w.protects ++ calls ∧
      (∀ x, map.Protects start endAddr newProt x →
        see map'.entries x = (see map.entries x).map (Seen.protect setMax newProt)) ∧
      (∀ x, ¬ map.Protects start endAddr newProt x → see map'.entries x = see map.entries x) ∧
      ∀ x, RevokedBy calls m x ↔ map.Protects start endAddr newProt x ∧
        ∃ s, see map.entries x = some s ∧
          TakesWrite w.maps setMax newProt (map.firstCow start endAddr) s

omit [DecidableEq E] [LinearOrder M] in
/-- What the second loop does to the rest of the list, as what is done to the map. -/
theorem protected_of_loop (hinOrder : InOrder map.entries)
    (hshares : ∀ e ∈ map.entries, Shares w.maps m e) {start endAddr : VmOffset} {newProt : ℕ}
    (hgranted : map.firstRefused start endAddr newProt = none)
    {l₁ l₂ l : List (MapEntry E (Ref O M))} (hsee : see (l₁ ++ l₂) = see map.entries)
    (hbelow : ∀ f ∈ l₁, f.endAddr ≤ map.regionStart start endAddr)
    (habove : ∀ f ∈ l₂, map.regionStart start endAddr ≤ f.start)
    {maps : Maps E O M} (hsame : SameBut m w.maps maps) (w' : World E O M)
    (hsame' : SameBut m maps w'.maps) {map' : VmMap E (Ref O M)} (hm' : w'.maps m = some map')
    (hmap' : map'.Wellformed) (hl : map'.entries = l₁ ++ l) {calls : List (PmapProtect M)}
    (hprotects : w'.protects = w.protects ++ calls) {setMax : Bool}
    (hloop : ∀ x, see l x = if x < min endAddr map.maxOffset then
      (see l₂ x).map (Seen.protect setMax newProt) else see l₂ x) {cow : Bool}
    (hcow : ∀ x < min endAddr map.maxOffset, see l₂ x ≠ none → cow = map.firstCow start endAddr)
    (hrevoked : ∀ x, RevokedBy calls m x ↔ x < min endAddr map.maxOffset ∧
      ∃ s, see l₂ x = some s ∧ TakesWrite maps setMax newProt cow s) :
    Protected w m map start endAddr setMax newProt .success w' := by
  have hsplit : ∀ l' x, see (l₁ ++ l') x = (see l₁ x).or (see l' x) := fun l' x ↦
    Ranges.piecewise_append _ _ _
  have hfront : ∀ x, map.regionStart start endAddr ≤ x → see l₁ x = none := fun x hx ↦
    Ranges.piecewise_of_le fun f hf ↦ (hbelow f hf).trans hx
  have hrest : ∀ x, map.regionStart start endAddr ≤ x → see l₂ x = see map.entries x := by
    intro x hx
    rw [← hsee, hsplit, hfront x hx, Option.none_or]
  have hnone : ∀ x < map.regionStart start endAddr, see l₂ x = none := fun x hx ↦
    Ranges.piecewise_of_lt fun f hf ↦ hx.trans_le (habove f hf)
  refine ⟨iff_of_true rfl hgranted, hsame.trans hsame', map', calls, hm', hmap', hprotects,
    fun x hx ↦ ?_, fun x hx ↦ ?_, fun x ↦ ?_⟩
  · rw [hl, hsplit, hfront x hx.2.1, Option.none_or, hloop, if_pos hx.2.2, hrest x hx.2.1]
  · rw [hl, hsplit, hloop, ← hsee, hsplit]
    by_cases hlo : map.regionStart start endAddr ≤ x
    · rw [if_neg fun hhi ↦ hx ⟨hgranted, hlo, hhi⟩]
    · rw [hnone x (not_le.1 hlo)]
      split_ifs
      · rfl
      · rfl
  · rw [hrevoked]
    constructor
    · rintro ⟨hhi, s, hs, htakes⟩
      have hlo : map.regionStart start endAddr ≤ x := by
        by_contra hlo
        rw [hnone x (not_le.1 hlo)] at hs
        cases hs
      rw [hcow x hhi (by simp [hs])] at htakes
      rw [hrest x hlo] at hs
      exact ⟨⟨hgranted, hlo, hhi⟩, s, hs,
        (SameBut.takesWrite_iff hsame hshares hinOrder hs).1 htakes⟩
    · rintro ⟨⟨-, hlo, hhi⟩, s, hs, htakes⟩
      rw [← SameBut.takesWrite_iff hsame hshares hinOrder hs] at htakes
      rw [← hrest x hlo] at hs
      rw [← hcow x hhi (by simp [hs])] at htakes
      exact ⟨hhi, s, hs, htakes⟩

theorem ensures_vmspaceProtect {env : Env E O M} (hcreate : VmMap.Fresh env.create)
    (hm : w.maps m = some map) (h : map.Wellformed)
    (hshares : ∀ e ∈ map.entries, Shares w.maps m e) (va sz : VmOffset) (setMax : Bool)
    (newProt : ℕ) :
    Ensures (vmspaceProtect env m va sz setMax newProt)
      (Protected w m map (pageRegion va sz).1 (pageRegion va sz).2 setMax newProt) w := by
  unfold vmspaceProtect
  generalize pageRegion va sz = pages
  obtain ⟨start, endAddr⟩ := pages
  refine Ensures.bind (ensures_lockClipStart hcreate hm h start endAddr) fun region w₁ hregion ↦ ?_
  obtain ⟨k₁, k₂, l₁, l₂, n, hint, rfl, rfl, hmap, habove, hk, hbelow, hclipped⟩ := hregion
  have hinOrder : InOrder l₂ := (Ranges.ordered_append.1 hmap.inOrder).2.1
  have hfirst := VmMap.firstRefused_clipped hk hbelow hclipped hinOrder habove newProt
  have hclippedSee : see (l₁ ++ l₂) = see map.entries := hk ▸ hclipped.see_eq
  have hsame : SameBut m w.maps (putMap w.maps m
      { map with nentries := n, entries := l₁ ++ l₂, hint }) := SameBut.putMap _ _ _
  -- Nothing is changed, if something is refused.
  have hrefuses : ∀ {result : KernReturn} {held}, result ≠ .success →
      map.firstRefused start endAddr newProt ≠ none →
      Protected w m map start endAddr setMax newProt result { w with
        maps := putMap w.maps m { map with nentries := n, entries := l₁ ++ l₂, hint }, held } := by
    intro result held hresult hsome
    refine ⟨iff_of_false hresult hsome, hsame, _, [], if_pos rfl, hmap, (List.append_nil _).symm,
      fun x hx ↦ absurd hx.1 hsome, fun x _ ↦ congrFun hclippedSee x, fun x ↦
      iff_of_false ?_ fun hx ↦
        hsome hx.1.1⟩
    rintro ⟨c, hc, -⟩
    cases hc
  refine Ensures.bind (ensures_turnsOf (if_pos rfl)) fun turns w₂ hturns ↦ ?_
  obtain ⟨-, rfl⟩ := hturns
  refine Ensures.bind (ensures_checkLoop (if_pos rfl) hmap rfl newProt _ turns)
    fun result w₃ hchecked ↦ ?_
  rcases Option.eq_none_or_eq_some ((l₂.takeWhile
    (·.start < min endAddr map.maxOffset)).find? (·.Refuses newProt)) with hnone | ⟨e, he⟩
  · obtain ⟨rfl, rfl⟩ := hchecked.1 hnone
    have hgranted : map.firstRefused start endAddr newProt = none := by
      rw [hnone] at hfirst
      exact Option.map_eq_none_iff.1 hfirst.symm
    cases l₂ with
    | nil =>
      refine Ensures.bind (ensures_onHold m _ _) fun _ w₄ hunlock ↦ ?_
      obtain ⟨hold, -, rfl⟩ := hunlock
      refine Ensures.pure_iff.2 ?_
      have hnever : ∀ x < min endAddr map.maxOffset,
          see ([] : List (MapEntry E (Ref O M))) x ≠ none → false = map.firstCow start endAddr :=
        fun x _ hx ↦ absurd rfl hx
      have hkept : SameBut m (putMap w.maps m { map with nentries := n, entries := l₁ ++ [], hint })
          (putMap w.maps m { map with nentries := n, entries := l₁ ++ [], hint }) := .refl _
      have hput : putMap w.maps m { map with nentries := n, entries := l₁ ++ [], hint } m =
          some { map with nentries := n, entries := l₁ ++ [], hint } := if_pos rfl
      refine protected_of_loop h.inOrder hshares hgranted hclippedSee (hclipped.below hbelow) habove
        hsame { w with
          maps := putMap w.maps m { map with nentries := n, entries := l₁ ++ [], hint }
          held := setHold (locked w.held m) m hold } hkept hput hmap rfl (List.append_nil _).symm
            (fun x ↦ ?_) hnever fun x ↦
          iff_of_false ?_ ?_
      · split_ifs
        · rfl
        · rfl
      · rintro ⟨c, hc, -⟩
        cases hc
      · rintro ⟨-, s, hs, -⟩
        cases hs
    | cons first rest =>
      have hcow : ∀ x < min endAddr map.maxOffset, see (first :: rest) x ≠ none →
          first.copyOnWrite = map.firstCow start endAddr := by
        intro x hx hsome
        have hle : first.start ≤ x := not_lt.1 fun hlt ↦ hsome (see_below hinOrder hlt)
        exact (VmMap.firstCow_clipped hk hbelow hclipped hinOrder habove (hle.trans_lt hx)).symm
      have hlive : first.id ∈ ids (l₁ ++ first :: rest) := by simp [ids]
      have hfirst' : ∀ f ∈ l₁ ++ first :: rest, f.id = first.id →
          f.copyOnWrite = first.copyOnWrite := by
        intro f hf hid
        rw [List.inj_on_of_nodup_map hmap.nodup hf (by simp) hid]
      refine Ensures.bind (ensures_turnsOf (if_pos rfl)) fun turns w₄ hturns ↦ ?_
      obtain ⟨-, rfl⟩ := hturns
      refine Ensures.bind (ensures_protectLoop hcreate (if_pos rfl) hmap rfl ?_ _ hlive
        hfirst' setMax
        newProt turns) fun _ w₄ hloop ↦ ?_
      · exact fun f hf ↦ hsame.shares
          (Shares.clipped hclipped (fun g hg ↦ hshares g (hk ▸ List.mem_append_right _ hg)) f hf)
      obtain ⟨l, n', calls, hm', hmap', hsame', hprotects, hloop, hrevoked⟩ := hloop
      refine Ensures.bind (ensures_onHold m _ _) fun _ w₅ hunlock ↦ ?_
      obtain ⟨hold, -, rfl⟩ := hunlock
      refine Ensures.pure_iff.2 ?_
      exact protected_of_loop h.inOrder hshares hgranted hclippedSee (hclipped.below hbelow) habove
        hsame _ hsame' hm' hmap' rfl hprotects hloop hcow hrevoked
  · have hcase := hchecked.2 e he
    have hrefused : map.firstRefused start endAddr newProt ≠ none := by
      intro hnone
      rw [hnone, he] at hfirst
      cases hfirst
    by_cases hsub : e.isSubMap
    · obtain ⟨rfl, rfl⟩ := hcase.1 hsub
      exact Ensures.pure_iff.2 (hrefuses (by simp) hrefused)
    · obtain ⟨rfl, rfl⟩ := hcase.2 hsub
      exact Ensures.pure_iff.2 (hrefuses (by simp) hrefused)

end Space

/-! ## Copying on write -/

/-- The protection of an entry is within its maximum. -/
def MapEntry.Within (e : MapEntry E O) : Prop := e.protection &&& e.maxProtection = e.protection

instance (e : MapEntry E O) : Decidable e.Within := inferInstanceAs (Decidable (_ = _))

/-- The entry around an address is copied on write, or the entry of a share map that it leads to. -/
def CopiedAt (maps : Maps E O M) (m : M) (x : VmOffset) : Prop :=
  ∃ map s, maps m = some map ∧ see map.entries x = some s ∧
    (s.copyOnWrite ∨ s.isAMap ∧ CowThrough maps s)

/-- The protection of an address. -/
def protectionAt (maps : Maps E O M) (m : M) (x : VmOffset) : Option ℕ :=
  (maps m).bind fun map ↦ (see map.entries x).map (·.protection)

/-- What a change of protections keeps: nothing that is copied on write may be written, protections
are within their maxima, and only those in the region change, unless the change fails. -/
structure ProtectKeeps (w w' : World E O M) (m : M) (start endAddr : VmOffset)
    (result : KernReturn) (writable : VmOffset → Bool) : Prop where
  copied : ∀ x, CopiedAt w'.maps m x → writable x = false
  within : AllEntries (fun _ ↦ MapEntry.Within) w'.maps
  outside : ∀ x, ¬ (start ≤ x ∧ x < endAddr) → protectionAt w'.maps m x = protectionAt w.maps m x
  failed : result ≠ .success → ∀ x, protectionAt w'.maps m x = protectionAt w.maps m x

variable {w w' : World E O M} {m : M} {map : VmMap E (Ref O M)} {start endAddr : VmOffset}
  {setMax : Bool} {newProt : ℕ} {result : KernReturn} {x : VmOffset}

open Space

/-- The region that is forced into the bounds of the map is no larger. -/
theorem VmMap.Protects.inside {x : VmOffset} (hx : map.Protects start endAddr newProt x) :
    start ≤ x ∧ x < endAddr := by
  obtain ⟨-, hlo, hhi⟩ := hx
  refine ⟨?_, hhi.trans_le (min_le_left ..)⟩
  unfold VmMap.regionStart at hlo
  rcases min_le_iff.1 hlo with hlo | hlo
  · exact (le_max_left ..).trans hlo
  · exact absurd hhi (not_lt.2 hlo)

namespace Space

namespace Protected

/-- The changed map, seen at an address. -/
theorem see_cases (h : Protected w m map start endAddr setMax newProt result w') :
    ∃ map', w'.maps m = some map' ∧ map'.Wellformed ∧ ∀ x,
      see map'.entries x = see map.entries x ∨ map.Protects start endAddr newProt x ∧
        see map'.entries x = (see map.entries x).map (Seen.protect setMax newProt) := by
  obtain ⟨-, -, map', calls, hm', hmap', -, hin, hout, -⟩ := h
  refine ⟨map', hm', hmap', fun x ↦ ?_⟩
  by_cases hx : map.Protects start endAddr newProt x
  · exact .inr ⟨hx, hin x hx⟩
  · exact .inl (hout x hx)

theorem copiedAt_iff (h : Protected w m map start endAddr setMax newProt result w')
    (hm : w.maps m = some map) (hmap : map.Wellformed)
    (hshares : ∀ e ∈ map.entries, Shares w.maps m e) (x : VmOffset) :
    CopiedAt w'.maps m x ↔ CopiedAt w.maps m x := by
  have hsame := h.2.1
  obtain ⟨map', hm', -, hsee⟩ := h.see_cases
  have hthrough : ∀ {s}, see map.entries x = some s → s.isAMap →
      (CowThrough w'.maps s ↔ CowThrough w.maps s) := by
    intro s hs hamap
    obtain ⟨e, he, -, -, rfl⟩ := hmap.inOrder.piecewise_eq_some.1 hs
    obtain ⟨n, -, hnm, hobject, -⟩ := hshares e he hamap
    refine hsame.cowThrough_iff fun n' hobject' ↦ ?_
    have heq : some (Ref.map n') = some (.map n) := hobject'.symm.trans hobject
    cases heq
    exact hnm
  have hiff : ∀ maps : Maps E O M, ∀ map₁ : VmMap E (Ref O M), maps m = some map₁ →
      (CopiedAt maps m x ↔ ∃ s, see map₁.entries x = some s ∧
        (s.copyOnWrite ∨ s.isAMap ∧ CowThrough maps s)) := by
    intro maps map₁ hmaps
    constructor
    · rintro ⟨map₂, s, hm₂, hs⟩
      obtain rfl : map₁ = map₂ := Option.some.inj (hmaps.symm.trans hm₂)
      exact ⟨s, hs⟩
    · rintro ⟨s, hs⟩
      exact ⟨map₁, s, hmaps, hs⟩
  rw [hiff _ _ hm', hiff _ _ hm]
  rcases hsee x with heq | ⟨-, heq⟩
  · rw [heq]
    refine exists_congr fun s ↦ and_congr_right fun hs ↦ or_congr_right ?_
    exact and_congr_right fun hamap ↦ hthrough hs hamap
  · rw [heq]
    cases hs : see map.entries x with
    | none => simp
    | some s =>
      have hcongr : (s.copyOnWrite ∨ s.isAMap ∧ CowThrough w'.maps s) ↔
          (s.copyOnWrite ∨ s.isAMap ∧ CowThrough w.maps s) :=
        or_congr_right (and_congr_right fun hamap ↦ hthrough hs hamap)
      constructor
      · rintro ⟨t, ht, hcopied⟩
        cases ht
        exact ⟨s, rfl, hcongr.1 hcopied⟩
      · rintro ⟨t, ht, hcopied⟩
        cases ht
        exact ⟨_, rfl, hcongr.2 hcopied⟩

/-- A protection that is granted is within the maximum of the entry. -/
theorem granted (hprotects : map.Protects start endAddr newProt x) {e : MapEntry E (Ref O M)}
    (he : e ∈ map.entries) (hlo : e.start ≤ x) (hhi : x < e.endAddr) :
    newProt &&& e.maxProtection = newProt := by
  obtain ⟨hnone, hstart, hend⟩ := hprotects
  have hmeets : map.Meets start endAddr e :=
    (max_le hlo hstart).trans_lt (lt_min hhi hend)
  unfold VmMap.firstRefused at hnone
  rw [List.find?_eq_none] at hnone
  by_contra hrefuses
  exact hnone e he (decide_eq_true ⟨hmeets, .inr hrefuses⟩)

theorem within (h : Protected w m map start endAddr setMax newProt result w')
    (hm : w.maps m = some map) (hmap : map.Wellformed)
    (hwithin : AllEntries (fun _ ↦ MapEntry.Within) w.maps) :
    AllEntries (fun _ ↦ MapEntry.Within) w'.maps := by
  obtain ⟨map', hm', hmap', hsee⟩ := h.see_cases
  intro n map₁ hn e he
  by_cases hnm : n = m
  · subst hnm
    obtain rfl : map' = map₁ := Option.some.inj (hm'.symm.trans hn)
    have hseen : see map'.entries e.start = some (e.seen e.start) :=
      hmap'.inOrder.piecewise_eq_some.2 ⟨e, he, le_rfl, hmap'.inOrder.nonempty e he, rfl⟩
    rcases hsee e.start with heq | ⟨hprotects, heq⟩
    · rw [heq] at hseen
      obtain ⟨f, hf, -, -, hfe⟩ := hmap.inOrder.piecewise_eq_some.1 hseen
      have hprot : f.protection = e.protection := congrArg (·.protection) hfe
      have hmax : f.maxProtection = e.maxProtection := congrArg (·.maxProtection) hfe
      unfold MapEntry.Within
      rw [← hprot, ← hmax]
      exact hwithin n map hm f hf
    · rw [heq] at hseen
      obtain ⟨s, hs, hse⟩ := Option.map_eq_some_iff.1 hseen
      obtain ⟨f, hf, hlo, hhi, rfl⟩ := hmap.inOrder.piecewise_eq_some.1 hs
      have hprot : newProtection setMax newProt f.protection = e.protection :=
        congrArg (·.protection) hse
      have hmax : (if setMax then newProt else f.maxProtection) = e.maxProtection :=
        congrArg (·.maxProtection) hse
      unfold MapEntry.Within
      rw [← hprot, ← hmax]
      unfold newProtection
      cases setMax with
      | true =>
        rw [if_pos rfl, if_pos rfl, Nat.and_assoc, Nat.and_comm f.protection, ← Nat.and_assoc,
          Nat.and_self]
      | false =>
        rw [if_neg Bool.false_ne_true, if_neg Bool.false_ne_true]
        exact granted hprotects hf hlo hhi
  · have hentries := h.2.1.entries_eq hnm
    rw [hn, Option.map_some, eq_comm, Option.map_eq_some_iff] at hentries
    obtain ⟨map₂, hn₂, hsame⟩ := hentries
    exact hwithin n map₂ hn₂ e (hsame ▸ he)

theorem protectionAt_eq (h : Protected w m map start endAddr setMax newProt result w')
    (hm : w.maps m = some map) {x : VmOffset} (hx : ¬ map.Protects start endAddr newProt x) :
    protectionAt w'.maps m x = protectionAt w.maps m x := by
  obtain ⟨-, -, map', calls, hm', -, -, -, hout, -⟩ := h
  unfold protectionAt
  rw [hm', hm, Option.bind_some, Option.bind_some, hout x hx]

end Protected

end Space

/-- `vmspace_protect` keeps what it has to, if no address that is copied on write could be written
before, other than those that lose the permission: their protection changes, and either the new one
does not allow to read and write, or copying on write is found in the entry that is asked. -/
theorem vmspace_protect_copied [DecidableEq E] [LinearOrder M] {env : Env E O M}
    (hcreate : VmMap.Fresh env.create) (hm : w.maps m = some map) (hmap : map.Wellformed)
    (hshares : ∀ e ∈ map.entries, Shares w.maps m e)
    (hwithin : AllEntries (fun _ ↦ MapEntry.Within) w.maps) (va sz : VmOffset) (setMax : Bool)
    (newProt : ℕ) (hok : vmspaceProtect env m va sz setMax newProt w = .ok (result, w'))
    (writable : VmOffset → Bool) :
    ∃ calls, w'.protects = w.protects ++ calls ∧
      (ProtectKeeps w w' m (pageRegion va sz).1 (pageRegion va sz).2 result
          (fun x ↦ writableAfter calls m x (writable x)) ↔
        ∀ x, CopiedAt w.maps m x → writable x →
          map.Protects (pageRegion va sz).1 (pageRegion va sz).2 newProt x ∧
            ∃ s, see map.entries x = some s ∧ TakesWrite w.maps setMax newProt
              (map.firstCow (pageRegion va sz).1 (pageRegion va sz).2) s) := by
  have hprotected :=
    ensures_vmspaceProtect hcreate hm hmap hshares va sz setMax newProt result w' hok
  generalize pageRegion va sz = pages at hprotected ⊢
  obtain ⟨start, endAddr⟩ := pages
  have hcopied := hprotected.copiedAt_iff hm hmap hshares
  have hresult := hprotected.1
  obtain ⟨-, -, map', calls, -, -, hprotects, -, -, hrevoked⟩ := id hprotected
  refine ⟨calls, hprotects, ?_⟩
  have hkeeps : ProtectKeeps w w' m start endAddr result
      (fun x ↦ writableAfter calls m x (writable x)) ↔
        ∀ x, CopiedAt w'.maps m x → writableAfter calls m x (writable x) = false :=
    ⟨ProtectKeeps.copied, fun h ↦ ⟨h, hprotected.within hm hmap hwithin, fun x hx ↦
      hprotected.protectionAt_eq hm fun hin ↦ hx hin.inside, fun hfailed x ↦
        hprotected.protectionAt_eq hm fun hin ↦ hfailed (hresult.2 hin.1)⟩⟩
  rw [hkeeps]
  refine forall_congr' fun x ↦ ?_
  rw [hcopied x, ← hrevoked x, ← Bool.not_eq_true, writableAfter_eq_true]
  exact imp_congr_right fun _ ↦ by tauto

/-! ## Two entries -/

/-- A page, and behind it one that is copied on write. -/
def copiedPages (copyOnWrite : Bool) : VmMap ℕ (Ref ℕ ℕ) where
  minOffset := 0
  maxOffset := 65536
  entries :=
    [{ newMemory [] with
        id := 0, start := 4096, endAddr := 8192, copyOnWrite, protection := 3, maxProtection := 7 },
      { newMemory [] with
        id := 1, start := 8192, endAddr := 12288, copyOnWrite := true, protection := 3
        maxProtection := 7 }]
  nentries := 2
  size := 8192
  isMainMap := true
  hint := none
  firstFree := none

theorem wellformed_copiedPages (copyOnWrite : Bool) : (copiedPages copyOnWrite).Wellformed := by
  refine ⟨⟨?_, ?_⟩, ?_, ?_, rfl, ?_, ?_⟩
  · simp [copiedPages]
  · simp [copiedPages]
  · simp [copiedPages]
  · simp [copiedPages]
  · exact VmMap.live_none
  · exact VmMap.live_none

/-- If both pages are copied on write, they lose the permission to be written. -/
theorem vmspace_protect_copied_both : ∃ w' calls,
    vmspaceProtect plainEnv 0 4096 8192 false 7 (worldOf (copiedPages true)) = .ok (.success, w') ∧
      w'.protects = calls ∧ ProtectKeeps (worldOf (copiedPages true)) w' 0 (pageRegion 4096 8192).1
        (pageRegion 4096 8192).2 .success (fun x ↦ writableAfter calls 0 x true) := by
  obtain ⟨w', hok⟩ : ∃ w', vmspaceProtect plainEnv 0 4096 8192 false 7
      (worldOf (copiedPages true)) = .ok (.success, w') := ⟨_, rfl⟩
  have hmaps : ∀ m map, (worldOf (copiedPages true)).maps m = some map →
    map = copiedPages true := by
    intro m map hm
    unfold worldOf at hm
    dsimp only at hm
    split_ifs at hm
    exact (Option.some.inj hm).symm
  have hentries : ∀ e ∈ (copiedPages true).entries,
      (copiedPages true).regionStart (pageRegion 4096 8192).1 (pageRegion 4096 8192).2 ≤ e.start ∧
        e.endAddr ≤ min (pageRegion 4096 8192).2 (copiedPages true).maxOffset ∧
          newProtection false 7 e.protection ≠ e.protection ∧ e.isAMap = false ∧ e.Within := by
    decide
  obtain ⟨calls, hcalls, hiff⟩ := vmspace_protect_copied newMemory_fresh rfl
    (wellformed_copiedPages true) (fun e he hamap ↦ by simp [(hentries e he).2.2.2.1] at hamap)
    (fun m map hm e he ↦ (hentries e (hmaps m map hm ▸ he)).2.2.2.2) 4096 8192 false 7 hok
    fun _ ↦ true
  refine ⟨w', calls, hok, hcalls, hiff.2 fun x hx _ ↦ ?_⟩
  obtain ⟨map, s, hm, hs, -⟩ := hx
  obtain rfl := hmaps 0 map hm
  obtain ⟨e, he, hlo, hhi, rfl⟩ := (wellformed_copiedPages true).inOrder.piecewise_eq_some.1 hs
  obtain ⟨hstart, hend, hchanged, hamap, -⟩ := hentries e he
  refine ⟨⟨by decide, hstart.trans hlo, hhi.trans_le hend⟩, e.seen x, hs, hchanged, .inr ?_⟩
  rw [if_neg (by simp [MapEntry.seen, hamap])]
  decide

/-- If only the second page is copied on write, it keeps the permission. -/
theorem vmspace_protect_leaves_write : (copiedPages false).Wellformed ∧ ∃ w' calls,
    vmspaceProtect plainEnv 0 4096 8192 false 7 (worldOf (copiedPages false)) = .ok (.success, w') ∧
      w'.protects = calls ∧ ¬ ProtectKeeps (worldOf (copiedPages false)) w' 0
        (pageRegion 4096 8192).1 (pageRegion 4096 8192).2 .success
          (fun x ↦ writableAfter calls 0 x true) := by
  refine ⟨wellformed_copiedPages false, _, _, rfl, rfl, fun hkeeps ↦ ?_⟩
  have hcopied := hkeeps.copied 8192 ⟨_, _, rfl, rfl, .inl rfl⟩
  exact absurd hcopied (by decide)

end Bsd386.Kern.Vm
