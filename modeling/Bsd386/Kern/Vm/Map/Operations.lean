import Bsd386.Kern.Vm.Map.Lists
import Mathlib.Tactic.Abel

/-!
# The operations on an address map

For each operation, what it does to the entry list and to the function the list stands for. An entry
is only ever split, joined with its neighbour, extended, inserted or removed.
-/

namespace Bsd386.Kern.Vm

open Ranges

variable {E O : Type}

/-! ## Splitting and joining -/

namespace MapEntry

/-- The part of an entry below an address, and the part from it on. -/
def front (e : MapEntry E O) (id : E) (address : VmOffset) : MapEntry E O :=
  { e with id, endAddr := address }

def back (e : MapEntry E O) (id : E) (address : VmOffset) : MapEntry E O :=
  { e with id, start := address, offset := e.offset + (address - e.start) }

theorem back_mapping (e : MapEntry E O) (id : E) (address x : VmOffset) :
    (e.back id address).mapping x = e.mapping x := by
  have hoffset : e.offset + (address - e.start) + (x - address) = e.offset + (x - e.start) := by
    abel
  unfold mapping back
  rw [hoffset]

end MapEntry

variable {e : MapEntry E O} {l l₁ l₂ : List (MapEntry E O)} {address : VmOffset}

theorem denote_split (i j : E) (hlo : e.start < address) (hhi : address < e.endAddr) :
    denote (e.front i address :: e.back j address :: l₂) = denote (e :: l₂) := by
  funext x
  exact piecewise_join l₂ x rfl rfl rfl hlo.le hhi.le rfl (e.back_mapping j address x)

theorem denote_append_congr (h : denote l = denote l₂) : denote (l₁ ++ l) = denote (l₁ ++ l₂) := by
  funext x
  rw [denote, denote, piecewise_append, piecewise_append]
  exact congrArg _ (congrFun h x)

namespace VmMap

variable {map : VmMap E O}

/-- The list stays in order when one entry is split. -/
theorem Wellformed.split (h : map.Wellformed) (hl : map.entries = l₁ ++ e :: l₂) {i j : E}
    (hlo : e.start < address) (hhi : address < e.endAddr)
    (hids : i = e.id ∧ j ∉ ids map.entries ∨ j = e.id ∧ i ∉ ids map.entries) :
    Wellformed { map with
      nentries := map.nentries + 1
      entries := l₁ ++ e.front i address :: e.back j address :: l₂ } := by
  have hinOrder := h.inOrder
  have hinside := h.inside
  have hnodup := h.nodup
  have hhint := h.hint_live
  have hfree := h.firstFree_live
  rw [hl] at hinOrder hinside hnodup hids hhint hfree
  have hsub : ids (l₁ ++ e :: l₂) ⊆ ids (l₁ ++ e.front i address :: e.back j address :: l₂) := by
    intro id hid
    simp only [ids, List.map_append, List.map_cons, List.mem_append, List.mem_cons] at hid ⊢
    have hfront : (e.front i address).id = i := rfl
    have hback : (e.back j address).id = j := rfl
    rw [hfront, hback]
    rcases hids with ⟨rfl, -⟩ | ⟨rfl, -⟩ <;> tauto
  obtain ⟨-, hel₂, hbelow⟩ := ordered_append.1 hinOrder
  have habove := (ordered_cons.1 hel₂).2.1
  refine ⟨?_, ?_, ?_, ?_, hhint.mono hsub, hfree.mono hsub⟩
  · refine Ordered.replace (s := [e]) (t := [e.front i address, e.back j address]) hinOrder ?_ ?_ ?_
    · exact ordered_cons.2 ⟨hlo, by simp [MapEntry.front, MapEntry.back],
        ordered_cons.2 ⟨hhi, by simp, .nil⟩⟩
    · intro r hr x hx
      have hre : r.endAddr ≤ e.start := hbelow r hr e (List.mem_cons_self ..)
      rcases List.mem_pair.1 hx with rfl | rfl
      · exact hre
      · exact hre.trans hlo.le
    · intro x hx r hr
      rcases List.mem_pair.1 hx with rfl | rfl
      · exact hhi.le.trans (habove r hr)
      · exact habove r hr
  · intro f hf
    obtain ⟨hmin, hmax⟩ := hinside e (by simp)
    simp only [List.mem_append, List.mem_cons] at hf
    rcases hf with hf | rfl | rfl | hf
    · exact hinside f (by simp [hf])
    · exact ⟨hmin, hhi.le.trans hmax⟩
    · exact ⟨hmin.trans hlo.le, hmax⟩
    · exact hinside f (by simp [hf])
  · have hperm : ∀ a b : E, (ids l₁ ++ a :: b :: ids l₂).Perm (b :: (ids l₁ ++ a :: ids l₂)) := by
      intro a b
      exact (List.perm_middle.trans (List.Perm.cons a List.perm_middle)).trans
        ((List.Perm.swap b a _).trans (List.Perm.cons b List.perm_middle.symm))
    have hmap : ids (l₁ ++ e.front i address :: e.back j address :: l₂) =
        ids l₁ ++ i :: j :: ids l₂ := by
      simp [ids, MapEntry.front, MapEntry.back]
    have hold : ids (l₁ ++ e :: l₂) = ids l₁ ++ e.id :: ids l₂ := by simp [ids]
    rw [hold] at hnodup hids
    change (ids (l₁ ++ e.front i address :: e.back j address :: l₂)).Nodup
    rw [hmap]
    rcases hids with ⟨rfl, hj⟩ | ⟨rfl, hi⟩
    · exact (hperm _ _).nodup_iff.2 (List.nodup_cons.2 ⟨hj, hnodup⟩)
    · have hswap : (ids l₁ ++ i :: e.id :: ids l₂).Perm (ids l₁ ++ e.id :: i :: ids l₂) :=
        (List.Perm.swap e.id i _).append_left _
      exact (hswap.trans (hperm _ _)).nodup_iff.2 (List.nodup_cons.2 ⟨hi, hnodup⟩)
  · have hlength := h.nentries_eq
    rw [hl] at hlength
    simp only [List.length_append, List.length_cons, hlength]
    omega

/-- `malloc` returns memory that is not in use. -/
def Fresh (create : Create E O) : Prop := ∀ used, (create used).id ∉ used

/-- A list is split at an address, and with it the entry around the address, if there is one. -/
def ClippedAt (address : VmOffset) (k₁ k₂ l₁ l₂ : List (MapEntry E O)) : Prop :=
  l₁ = k₁ ∧ l₂ = k₂ ∨ ∃ e rest id, k₂ = e :: rest ∧ e.start < address ∧ address < e.endAddr ∧
    l₁ = k₁ ++ [e.front id address] ∧ l₂ = e.back e.id address :: rest

/-- An entry, and the list behind it, are split at an address, if the entry is around it. -/
def CutAt (address : VmOffset) (e : MapEntry E O) (l₂ : List (MapEntry E O)) (m : MapEntry E O)
    (l : List (MapEntry E O)) : Prop :=
  m = e ∧ l = l₂ ∨ ∃ id, e.start < address ∧ address < e.endAddr ∧ m = e.front e.id address ∧
    l = e.back id address :: l₂

variable [DecidableEq E] {create : Create E O}

/-! ## Clipping -/

/-- After `vm_map_clip_start` the entry starts at the address, if it was around it. -/
theorem Wellformed.clipStart (h : map.Wellformed) (hl : map.entries = l₁ ++ e :: l₂)
    (hcreate : Fresh create) (hlo : e.start ≤ address) (hhi : address < e.endAddr) :
    ∃ l m n, map.clipStart create e.id address =
        .ok { map with nentries := n, entries := l ++ m :: l₂ } ∧
      Wellformed { map with nentries := n, entries := l ++ m :: l₂ } ∧ m.id = e.id ∧
        m.start = address ∧ (∀ f ∈ l, f.endAddr ≤ address) ∧
          EndsWithin (l ++ m :: l₂) map.entries ∧
            denote (l ++ m :: l₂) = denote (l₁ ++ e :: l₂) ∧
              ClippedAt address l₁ (e :: l₂) l (m :: l₂) := by
  have hentry := entry_split hl h.nodup
  have hbelow : ∀ f ∈ l₁, f.endAddr ≤ address := fun f hf ↦
    le_trans ((ordered_append.1 (hl ▸ h.inOrder)).2.2 f hf e (List.mem_cons_self ..)) hlo
  unfold VmMap.clipStart
  rw [hentry]
  rcases hlo.eq_or_lt with heq | hlt
  · refine ⟨l₁, e, map.nentries, ?_, ?_, rfl, heq, hbelow, hl ▸ .refl _, rfl, .inl ⟨rfl, rfl⟩⟩
    · change (if e.start < address then map.clipStartAt create e.id address else .ok map) = _
      rw [if_neg heq.not_lt, ← hl]
    · rw [← hl]
      exact h
  · have hnew : (map.entryCreate create).id ∉ ids map.entries := hcreate _
    have hsplit := h.split hl hlt hhi (.inr ⟨rfl, hnew⟩)
    refine ⟨l₁ ++ [e.front (map.entryCreate create).id address], e.back e.id address,
      map.nentries + 1, ?_, ?_, rfl, rfl, ?_, ?_, ?_,
      .inr ⟨e, l₂, _, rfl, hlt, hhi, rfl, rfl⟩⟩
    · change (if e.start < address then map.clipStartAt create e.id address else .ok map) = _
      rw [if_pos hlt]
      unfold clipStartAt
      rw [hentry, modify_split hl h.nodup]
      have hnodup : (ids (l₁ ++ e.back e.id address :: l₂)).Nodup := by
        have hold := h.nodup
        rw [hl] at hold
        simpa [ids, MapEntry.back] using hold
      have hprev : prev { map with entries := l₁ ++ e.back e.id address :: l₂ }
          (some (e.back e.id address).id) = lastId l₁ := prev_split rfl hnodup
      have hlink : link { map with entries := l₁ ++ e.back e.id address :: l₂ } (lastId l₁)
          (e.front (map.entryCreate create).id address) = _ := link_lastId rfl hnodup
      rw [← hprev] at hlink
      simp only [List.append_assoc, List.singleton_append]
      exact congrArg Except.ok hlink
    · simpa using hsplit
    · intro f hf
      rcases List.mem_append.1 hf with hf | hf
      · exact hbelow f hf
      · rw [List.mem_singleton.1 hf]
        exact le_rfl
    · intro f hf hid
      simp only [List.mem_append, List.mem_cons, List.not_mem_nil, or_false] at hf
      rcases hf with (hf | rfl) | rfl | hf
      · exact ⟨f, hl ▸ by simp [hf], rfl, le_rfl⟩
      · exact absurd hid hnew
      · exact ⟨e, hl ▸ by simp, rfl, le_rfl⟩
      · exact ⟨f, hl ▸ by simp [hf], rfl, le_rfl⟩
    · rw [List.append_assoc, List.singleton_append]
      exact denote_append_congr (denote_split _ _ hlt hhi)

/-- After `vm_map_clip_end` the entry ends at the address, if it started below it. -/
theorem Wellformed.clipEnd (h : map.Wellformed) (hl : map.entries = l₁ ++ e :: l₂)
    (hcreate : Fresh create) (hlo : e.start < address) :
    ∃ m l n, map.clipEnd create e.id address =
        .ok { map with nentries := n, entries := l₁ ++ m :: l } ∧
      Wellformed { map with nentries := n, entries := l₁ ++ m :: l } ∧ m.id = e.id ∧
        m.start = e.start ∧ m.endAddr = min address e.endAddr ∧
          (l = l₂ ∨ ∃ f, l = f :: l₂ ∧ address ≤ f.start) ∧
            (∀ x, m.mapping x = e.mapping x) ∧ denote (m :: l) = denote (e :: l₂) ∧
              CutAt address e l₂ m l := by
  have hentry := entry_split hl h.nodup
  unfold VmMap.clipEnd
  rw [hentry]
  rcases lt_or_ge address e.endAddr with hlt | hge
  · have hnew : (map.entryCreate create).id ∉ ids map.entries := hcreate _
    refine ⟨e.front e.id address, e.back (map.entryCreate create).id address :: l₂,
      map.nentries + 1, ?_, h.split hl hlo hlt (.inl ⟨rfl, hnew⟩), rfl, rfl,
      (min_eq_left hlt.le).symm, .inr ⟨_, rfl, le_rfl⟩, fun _ ↦ rfl, denote_split _ _ hlo hlt,
      .inr ⟨_, hlo, hlt, rfl, rfl⟩⟩
    change (if address < e.endAddr then map.clipEndAt create e.id address else .ok map) = _
    rw [if_pos hlt]
    unfold clipEndAt
    rw [hentry, modify_split hl h.nodup]
    have hnodup : (ids (l₁ ++ e.front e.id address :: l₂)).Nodup := by
      have hold := h.nodup
      rw [hl] at hold
      simpa [ids, MapEntry.front] using hold
    have hlink : link { map with entries := l₁ ++ e.front e.id address :: l₂ }
        (some (e.front e.id address).id) (e.back (map.entryCreate create).id address) = _ :=
      link_split rfl hnodup
    exact congrArg Except.ok hlink
  · refine ⟨e, l₂, map.nentries, ?_, ?_, rfl, rfl, (min_eq_right hge).symm, .inl rfl, fun _ ↦ rfl,
      rfl, .inl ⟨rfl, rfl⟩⟩
    · change (if address < e.endAddr then map.clipEndAt create e.id address else .ok map) = _
      rw [if_neg hge.not_gt, ← hl]
    · rw [← hl]
      exact h

/-- The bounds of a region, forced into those of the map. -/
def regionStart (map : VmMap E O) (start endAddr : VmOffset) : VmOffset :=
  min (max start map.minOffset) (min endAddr map.maxOffset)

theorem lockClipStart_of_found {start endAddr : VmOffset} {entry : E} {map' : VmMap E O}
    (h : map.vmMapLookupEntry (map.regionStart start endAddr) = .ok (true, some entry, map')) :
    map.lockClipStart create start endAddr =
      (map'.clipStart create entry (map.regionStart start endAddr)).map fun clipped ↦
        (map.regionStart start endAddr, min endAddr map.maxOffset, some entry, clipped) := by
  unfold regionStart at h ⊢
  unfold VmMap.lockClipStart
  simp only [h, bind, Except.bind, pure, Except.pure]
  cases map'.clipStart create entry (min (max start map.minOffset) (min endAddr map.maxOffset)) with
  | error => rfl
  | ok => rfl

theorem lockClipStart_of_not_found {start endAddr : VmOffset} {entry : Option E} {map' : VmMap E O}
    (h : map.vmMapLookupEntry (map.regionStart start endAddr) = .ok (false, entry, map')) :
    map.lockClipStart create start endAddr =
      .ok (map.regionStart start endAddr, min endAddr map.maxOffset, map'.next entry, map') := by
  unfold regionStart at h ⊢
  unfold VmMap.lockClipStart
  simp only [h]
  rfl

/-- `VM_MAP_LOCK_CLIP_START` splits the list at the start of the region, and changes nothing else.
-/
theorem Wellformed.lockClipStart (h : map.Wellformed) (hcreate : Fresh create)
    (start endAddr : VmOffset) :
    ∃ l₁ l₂ n hint, map.lockClipStart create start endAddr =
        .ok (map.regionStart start endAddr, min endAddr map.maxOffset, firstId l₂,
          { map with nentries := n, entries := l₁ ++ l₂, hint }) ∧
      Wellformed { map with nentries := n, entries := l₁ ++ l₂, hint } ∧
        (∀ f ∈ l₁, f.endAddr ≤ map.regionStart start endAddr) ∧
          (∀ f ∈ l₂, map.regionStart start endAddr ≤ f.start) ∧
            denote (l₁ ++ l₂) = denote map.entries ∧
              ∃ k₁ k₂, map.entries = k₁ ++ k₂ ∧
                (∀ f ∈ k₁, f.endAddr ≤ map.regionStart start endAddr) ∧
                  (∀ f ∈ k₂, map.regionStart start endAddr < f.endAddr) ∧
                    ClippedAt (map.regionStart start endAddr) k₁ k₂ l₁ l₂ := by
  rcases h.lookup (map.regionStart start endAddr) with
    ⟨l₁, e, l₂, hint, hl, hlo, hhi, hlookup, hlive⟩ | ⟨l₁, l₂, hl, hbelow, habove, hlookup⟩
  · have hhint : Wellformed { map with hint } :=
      ⟨h.inOrder, h.inside, h.nodup, h.nentries_eq, hlive, h.firstFree_live⟩
    obtain ⟨l, m, n, hclip, hmap, hid, hstart, hbefore, -, hdenote, hclipped⟩ :=
      hhint.clipStart hl hcreate hlo hhi
    obtain ⟨-, heq, hbelow⟩ := ordered_append.1 (hl ▸ h.inOrder)
    refine ⟨l, m :: l₂, n, hint, ?_, hmap, hbefore, fun f hf ↦ ?_, ?_, l₁, e :: l₂, hl,
      fun f hf ↦ (hbelow f hf e (List.mem_cons_self ..)).trans hlo, fun f hf ↦ ?_, hclipped⟩
    · rw [lockClipStart_of_found hlookup, hclip, firstId, List.head?_cons, Option.map_some, hid]
      rfl
    · have hnext := (ordered_cons.1 (ordered_append.1 hmap.inOrder).2.1)
      rcases List.mem_cons.1 hf with rfl | hf
      · exact hstart.ge
      · exact hstart.ge.trans (hnext.1.le.trans (hnext.2.1 f hf))
    · rw [hdenote, hl]
    · obtain ⟨hne, habove, -⟩ := ordered_cons.1 heq
      rcases List.mem_cons.1 hf with rfl | hf
      · exact hhi
      · exact hhi.trans_le ((habove f hf).trans (h.inOrder.nonempty f (hl ▸ by simp [hf])).le)
  · have hhint : Wellformed { map with hint := lastId l₁ } :=
      ⟨h.inOrder, h.inside, h.nodup, h.nentries_eq, hl ▸ live_lastId, h.firstFree_live⟩
    have hnext : next { map with hint := lastId l₁ } (lastId l₁) = firstId l₂ :=
      next_lastId hl h.nodup
    refine ⟨l₁, l₂, map.nentries, lastId l₁, ?_, ?_, hbelow, fun f hf ↦ (habove f hf).le, ?_, l₁,
      l₂, hl, hbelow, fun f hf ↦ (habove f hf).trans (h.inOrder.nonempty f (hl ▸ by simp [hf])),
      .inl ⟨rfl, rfl⟩⟩
    · rw [lockClipStart_of_not_found hlookup, hnext, ← hl]
    · rw [← hl]
      exact hhint
    · rw [hl]

/-! ## Regions -/

omit [DecidableEq E] in
theorem ids_set {f : MapEntry E O} (hid : f.id = e.id) :
    ids (l₁ ++ f :: l₂) = ids (l₁ ++ e :: l₂) := by
  simp [ids, hid]

omit [DecidableEq E] in
/-- Assigning to the other fields of an entry. -/
theorem Wellformed.set (h : map.Wellformed) (hl : map.entries = l₁ ++ e :: l₂) {f : MapEntry E O}
    (hid : f.id = e.id) (hstart : f.start = e.start) (hend : f.endAddr = e.endAddr) :
    Wellformed { map with entries := l₁ ++ f :: l₂ } := by
  have hinOrder := h.inOrder
  have hinside := h.inside
  have hnodup := h.nodup
  have hhint := h.hint_live
  have hfree := h.firstFree_live
  rw [hl] at hinOrder hinside hnodup hhint hfree
  have hsub : ids (l₁ ++ e :: l₂) ⊆ ids (l₁ ++ f :: l₂) := (ids_set hid).symm ▸ List.Subset.refl _
  obtain ⟨-, hel₂, hbelow⟩ := ordered_append.1 hinOrder
  obtain ⟨hne, habove, -⟩ := ordered_cons.1 hel₂
  refine ⟨?_, ?_, ids_set hid ▸ hnodup, ?_, hhint.mono hsub, hfree.mono hsub⟩
  · refine Ordered.replace (s := [e]) (t := [f]) hinOrder ?_ ?_ ?_
    · exact ordered_cons.2 ⟨hstart ▸ hend ▸ hne, by simp, .nil⟩
    · intro r hr x hx
      rw [List.mem_singleton.1 hx, hstart]
      exact hbelow r hr e (List.mem_cons_self ..)
    · intro x hx r hr
      rw [List.mem_singleton.1 hx, hend]
      exact habove r hr
  · intro x hx
    rcases List.mem_append.1 hx with hx | hx
    · exact hinside x (List.mem_append_left _ hx)
    · rcases List.mem_cons.1 hx with rfl | hx
      · rw [hstart, hend]
        exact hinside e (by simp)
      · exact hinside x (by simp [hx])
  · exact (hl ▸ h.nentries_eq).trans (by simp)

/-- The assignments leave an entry where it is. -/
def Keeps (edit : MapEntry E O → MapEntry E O) : Prop :=
  ∀ e, (edit e).id = e.id ∧ (edit e).start = e.start ∧ (edit e).endAddr = e.endAddr

/-- The assignments change what is mapped in the same way at every address. -/
def Acts (edit : MapEntry E O → MapEntry E O) (act : Mapping O → Mapping O) : Prop :=
  ∀ e x, (edit e).mapping x = act (e.mapping x)

variable {edit : MapEntry E O → MapEntry E O} {endAddr : VmOffset}

omit [DecidableEq E] in
theorem denote_cons (x : VmOffset) : denote (e :: l) x =
    if e.start ≤ x ∧ x < e.endAddr then some (e.mapping x) else denote l x := piecewise_cons e l x

omit [DecidableEq E] in
/-- The entries from some address on do not matter below it. -/
theorem denote_below {x : VmOffset} (hinOrder : InOrder (e :: l)) (hx : x < e.start) :
    denote (e :: l) x = none := by
  obtain ⟨hne, habove, -⟩ := ordered_cons.1 hinOrder
  refine piecewise_of_lt fun f hf ↦ ?_
  rcases List.mem_cons.1 hf with rfl | hf
  · exact hx
  · exact hx.trans (hne.trans_le (habove f hf))

omit [DecidableEq E] in
theorem countP_clipped {m : List (MapEntry E O)}
    (hm : m = l₂ ∨ ∃ f, m = f :: l₂ ∧ endAddr ≤ f.start) :
    m.countP (·.start < endAddr) = l₂.countP (·.start < endAddr) := by
  rcases hm with rfl | ⟨f, rfl, hf⟩
  · rfl
  · exact List.countP_cons_of_neg (by simpa using hf)

/-- The loop clips and assigns to the entries up to the end of the region. -/
theorem Wellformed.loopent (turns : ℕ) (h : map.Wellformed) (hl : map.entries = l₁ ++ l₂)
    (hcreate : Fresh create) (hkeeps : Keeps edit)
    (hturns : l₂.countP (·.start < endAddr) < turns) :
    ∃ l n, VmMap.loopent create edit endAddr turns (firstId l₂) map =
        .ok { map with nentries := n, entries := l₁ ++ l } ∧
      Wellformed { map with nentries := n, entries := l₁ ++ l } ∧
        (∀ x, endAddr ≤ x → denote l x = denote l₂ x) ∧
          (∀ x, denote l₂ x = none → denote l x = none) ∧
            ∀ act, Acts edit act → ∀ x < endAddr, denote l x = (denote l₂ x).map act := by
  induction turns generalizing map l₁ l₂ with
  | zero => exact absurd hturns (Nat.not_lt_zero _)
  | succ turns ih =>
    cases l₂ with
    | nil =>
      refine ⟨[], map.nentries, ?_, ?_, fun _ _ ↦ rfl, fun _ h ↦ h, fun _ _ _ _ ↦ rfl⟩
      · rw [← hl]
        rfl
      · rw [← hl]
        exact h
    | cons e rest =>
      have hunfold : VmMap.loopent create edit endAddr (turns + 1) (firstId (e :: rest)) map =
          if e.start < endAddr then do
            let map ← map.clipEnd create e.id endAddr
            let map := map.modify e.id edit
            VmMap.loopent create edit endAddr turns (map.next (some e.id)) map
          else .ok map := by
        rw [firstId, List.head?_cons, Option.map_some, VmMap.loopent, entry_split hl h.nodup]
        rfl
      rw [hunfold]
      have hinOrder : InOrder (e :: rest) := (ordered_append.1 (hl ▸ h.inOrder)).2.1
      split_ifs with hlt
      · obtain ⟨m, l, n, hclip, hmap, hid, hstart, hend, hrest, hmapping, hdenote, -⟩ :=
          h.clipEnd hl hcreate hlt
        obtain ⟨hid', hstart', hend'⟩ := hkeeps m
        have hset := hmap.set rfl hid' hstart' hend'
        have hmodify : modify { map with nentries := n, entries := l₁ ++ m :: l } m.id edit =
            { map with nentries := n, entries := l₁ ++ edit m :: l } :=
            modify_split rfl hmap.nodup edit
        have hnext : next { map with nentries := n, entries := l₁ ++ edit m :: l }
            (some (edit m).id) = firstId l := next_split rfl hset.nodup
        rw [hid', hid] at hnext
        rw [hid] at hmodify
        have hcount : l.countP (·.start < endAddr) < turns := by
          rw [countP_clipped hrest]
          rw [List.countP_cons_of_pos (by simpa using hlt)] at hturns
          exact Nat.lt_of_succ_lt_succ hturns
        have hassoc : l₁ ++ edit m :: l = (l₁ ++ [edit m]) ++ l := by simp
        obtain ⟨l', n', hloop, hmap', hafter, hnone, hact⟩ := ih hset hassoc hcount
        refine ⟨edit m :: l', n', ?_, ?_, fun x hx ↦ ?_, fun x hx ↦ ?_, fun act hacts x hx ↦ ?_⟩
        · rw [hclip]
          change VmMap.loopent create edit endAddr turns
            (next (modify { map with nentries := n, entries := l₁ ++ m :: l } e.id edit)
              (some e.id))
              (modify { map with nentries := n, entries := l₁ ++ m :: l } e.id edit) = _
          rw [hmodify, hnext, hloop]
          simp
        · simpa using hmap'
        · have hout : ¬ ((edit m).start ≤ x ∧ x < (edit m).endAddr) := fun hin ↦
            absurd hin.2 (not_lt.2 (hend'.trans_le (hend.trans_le ((min_le_left ..).trans hx))))
          have hout' : ¬ (m.start ≤ x ∧ x < m.endAddr) := hstart' ▸ hend' ▸ hout
          rw [denote_cons, if_neg hout, hafter x hx, ← congrFun hdenote x, denote_cons,
            if_neg hout']
        · rw [← congrFun hdenote x, denote_cons] at hx
          rw [denote_cons, hstart', hend']
          split_ifs at hx ⊢
          exact hnone x hx
        · rw [denote_cons, hact act hacts x hx, ← congrFun hdenote x, denote_cons, hstart', hend',
            hacts m x]
          split_ifs
          · rfl
          · rfl
      · have hout : ∀ x < endAddr, denote (e :: rest) x = none := fun x hx ↦
          denote_below hinOrder (hx.trans_le (not_lt.1 hlt))
        refine ⟨e :: rest, map.nentries, ?_, ?_, fun _ _ ↦ rfl, fun _ h ↦ h, fun act _ x hx ↦ ?_⟩
        · rw [← hl]
        · rw [← hl]
          exact h
        · rw [hout x hx]
          rfl

/-- The functions that clip a region and assign to its entries change nothing outside it, and
inside it what the assignments say. -/
theorem Wellformed.clipRegion (h : map.Wellformed) (hcreate : Fresh create) (hkeeps : Keeps edit)
    (start endAddr : VmOffset) :
    ∃ l n hint, map.clipRegion create edit start endAddr =
        .ok { map with nentries := n, entries := l, hint } ∧
      Wellformed { map with nentries := n, entries := l, hint } ∧
        (∀ x, x < map.regionStart start endAddr ∨ min endAddr map.maxOffset ≤ x →
          denote l x = denote map.entries x) ∧
        ∀ act, Acts edit act → ∀ x, map.regionStart start endAddr ≤ x →
          x < min endAddr map.maxOffset → denote l x = (denote map.entries x).map act := by
  obtain ⟨l₁, l₂, n, hint, hlock, hmap, hbelow, habove, hdenote, -⟩ :=
    h.lockClipStart hcreate start endAddr
  have hturns : l₂.countP (·.start < min endAddr map.maxOffset) < (l₁ ++ l₂).length + 1 := by
    have hcount := List.countP_le_length (p := (·.start < min endAddr map.maxOffset)) (l := l₂)
    rw [List.length_append]
    omega
  obtain ⟨l, n', hloop, hmap', hafter, hempty, hact⟩ := hmap.loopent _ rfl hcreate hkeeps hturns
  refine ⟨l₁ ++ l, n', hint, ?_, hmap', fun x hx ↦ ?_, fun act hacts x hlo hhi ↦ ?_⟩
  · unfold VmMap.clipRegion
    rw [hlock]
    exact hloop
  · rw [← hdenote, denote, denote, piecewise_append, piecewise_append]
    rcases hx with hx | hx
    · have hnone : denote l₂ x = none := piecewise_of_lt fun f hf ↦ hx.trans_le (habove f hf)
      exact congrArg _ ((hempty x hnone).trans hnone.symm)
    · exact congrArg _ (hafter x hx)
  · have hnone : denote l₁ x = none := piecewise_of_le fun f hf ↦ (hbelow f hf).trans hlo
    have hnone' : ∀ m, denote (l₁ ++ m) x = denote m x := by
      intro m
      rw [denote, piecewise_append]
      exact congrArg (Option.or · (denote m x)) hnone
    rw [← hdenote, hnone', hnone']
    exact hact act hacts x hhi

/-- `vm_map_submap` on a region that begins in an entry clips it, and changes nothing outside it. A
failed call changes nothing inside it either. -/
theorem Wellformed.vmMapSubmap (h : map.Wellformed) (hcreate : Fresh create)
    {start endAddr : VmOffset} (hmapped : denote map.entries start ≠ none) (hlt : start < endAddr)
    (hmax : endAddr ≤ map.maxOffset) (submap : O) :
    ∃ result l n hint, map.vmMapSubmap create start endAddr submap =
        .ok (result, { map with nentries := n, entries := l, hint }) ∧
      Wellformed { map with nentries := n, entries := l, hint } ∧
        (∀ x, ¬ (start ≤ x ∧ x < endAddr) → denote l x = denote map.entries x) ∧
          (result ≠ .success → denote l = denote map.entries) := by
  have hmin : map.minOffset ≤ start := by
    by_contra hbelow
    refine hmapped (piecewise_of_lt fun f hf ↦ ?_)
    exact (not_le.1 hbelow).trans_le (h.inside f hf).1
  have hstart : map.regionStart start endAddr = start := by
    unfold regionStart
    rw [max_eq_left hmin, min_eq_left hmax, min_eq_left hlt.le]
  obtain ⟨l₁, l₂, n, hint, hlock, hmap, hbelow, habove, hdenote, -⟩ :=
    h.lockClipStart hcreate start endAddr
  rw [hstart, min_eq_left hmax] at hlock
  rw [hstart] at hbelow habove
  have hsome : denote l₂ start ≠ none := by
    intro hnone
    rw [← hdenote, denote, piecewise_append, piecewise_of_le hbelow, Option.none_or] at hmapped
    exact hmapped hnone
  cases l₂ with
  | nil => exact absurd rfl hsome
  | cons e rest =>
    have hinOrder : InOrder (e :: rest) := (ordered_append.1 hmap.inOrder).2.1
    have hestart : e.start = start := by
      refine le_antisymm (not_lt.1 fun hgt ↦ hsome (denote_below hinOrder hgt)) ?_
      exact habove e (List.mem_cons_self ..)
    obtain ⟨m, l, n', hclip, hmap', hid, hmstart, hmend, -, -, hdenote', -⟩ :=
      hmap.clipEnd rfl hcreate (hestart.trans_lt hlt)
    have hentry : VmMap.entry { map with nentries := n', entries := l₁ ++ m :: l, hint } m.id =
        .ok m := entry_split rfl hmap'.nodup
    have hclipped : denote (l₁ ++ m :: l) = denote map.entries :=
      (denote_append_congr hdenote').trans hdenote
    have hunfold : map.vmMapSubmap create start endAddr submap =
        if m.start = start ∧ m.endAddr = endAddr ∧ ¬ m.isAMap ∧ m.object.isNone ∧
            ¬ m.copyOnWrite then
          .ok (.success, modify { map with nentries := n', entries := l₁ ++ m :: l, hint } m.id
            fun e ↦ { e with isAMap := false, isSubMap := true, object := some submap })
        else .ok (.invalidArgument,
          { map with nentries := n', entries := l₁ ++ m :: l, hint }) := by
      unfold VmMap.vmMapSubmap
      rw [hlock]
      simp only [firstId, List.head?_cons, Option.map_some, bind, Except.bind, hclip]
      rw [← hid, hentry]
      rfl
    rw [hunfold]
    split_ifs with hsubmap
    · have hset := hmap'.set (f := { m with
        isAMap := false, isSubMap := true, object := some submap }) rfl rfl rfl rfl
      refine ⟨.success, _, n', hint, ?_, hset, fun x hx ↦ ?_, fun hresult ↦ absurd rfl hresult⟩
      · have hmodify : modify { map with nentries := n', entries := l₁ ++ m :: l, hint } m.id
            (fun e ↦ { e with isAMap := false, isSubMap := true, object := some submap }) = _ :=
          modify_split rfl hmap'.nodup _
        exact congrArg (fun map ↦ Except.ok (KernReturn.success, map)) hmodify
      · have hout : ¬ (m.start ≤ x ∧ x < m.endAddr) := by
          rw [hsubmap.1, hsubmap.2.1]
          exact hx
        rw [← hclipped, denote, denote, piecewise_append, piecewise_append, piecewise_cons,
          piecewise_cons, if_neg hout, if_neg hout]
    · exact ⟨.invalidArgument, _, n', hint, rfl, hmap', fun x _ ↦ congrFun hclipped x,
        fun _ ↦ hclipped⟩

end VmMap

end Bsd386.Kern.Vm

/-!
# The entry around an address

What an address is mapped to, together with the flags of the entry around it. None of it depends on
the bounds of the entry, so splitting an entry changes nothing.
-/

namespace Bsd386.Kern.Vm

open Ranges VmMap

variable {E O : Type}

/-- What an address is mapped to, and the flags that say how. -/
structure Seen (O : Type) extends Mapping O where
  isAMap : Bool
  isSubMap : Bool
  copyOnWrite : Bool

/-- What an entry does with an address in it. -/
def MapEntry.seen (e : MapEntry E O) (address : VmOffset) : Seen O where
  toMapping := e.mapping address
  isAMap := e.isAMap
  isSubMap := e.isSubMap
  copyOnWrite := e.copyOnWrite

/-- What a list of entries does with the addresses. -/
abbrev see (l : List (MapEntry E O)) : VmOffset → Option (Seen O) :=
  piecewise (·.start) (·.endAddr) (fun e address ↦ e.seen address) l

variable {e m : MapEntry E O} {l l₁ l₂ k₁ k₂ : List (MapEntry E O)} {address : VmOffset}

theorem see_cons (x : VmOffset) : see (e :: l) x =
    if e.start ≤ x ∧ x < e.endAddr then some (e.seen x) else see l x := piecewise_cons e l x

/-- Nothing is seen below the first entry. -/
theorem see_below {x : VmOffset} (hinOrder : InOrder (e :: l)) (hx : x < e.start) :
    see (e :: l) x = none := by
  obtain ⟨hne, habove, -⟩ := ordered_cons.1 hinOrder
  refine piecewise_of_lt fun f hf ↦ ?_
  rcases List.mem_cons.1 hf with rfl | hf
  · exact hx
  · exact hx.trans (hne.trans_le (habove f hf))

theorem see_split (i j : E) (hlo : e.start < address) (hhi : address < e.endAddr) :
    see (e.front i address :: e.back j address :: l) = see (e :: l) := by
  funext x
  refine piecewise_join l x rfl rfl rfl hlo.le hhi.le rfl ?_
  unfold MapEntry.seen
  rw [e.back_mapping j address x]
  rfl

theorem see_append_congr (h : see l = see l₂) : see (l₁ ++ l) = see (l₁ ++ l₂) := by
  funext x
  rw [see, see, piecewise_append, piecewise_append]
  exact congrArg _ (congrFun h x)

theorem VmMap.ClippedAt.see_eq (h : ClippedAt address k₁ k₂ l₁ l₂) :
    see (l₁ ++ l₂) = see (k₁ ++ k₂) := by
  rcases h with ⟨rfl, rfl⟩ | ⟨e, rest, id, rfl, hlo, hhi, rfl, rfl⟩
  · rfl
  · rw [List.append_assoc, List.singleton_append]
    exact see_append_congr (see_split _ _ hlo hhi)

theorem VmMap.CutAt.see_eq (h : CutAt address e l₂ m l) : see (m :: l) = see (e :: l₂) := by
  rcases h with ⟨rfl, rfl⟩ | ⟨id, hlo, hhi, rfl, rfl⟩
  · rfl
  · exact see_split _ _ hlo hhi

end Bsd386.Kern.Vm
