import Mathlib.Data.List.Basic
import Mathlib.Order.Interval.Finset.Fin
import Bsd386.Kern.Vm.Map.Basic
import Bsd386.Lib.Ranges

/-!
# The entry list of an address map

The well-formedness of a map, the function from addresses to memory that it stands for, and what the
accesses to an entry and its neighbours mean once the list is split at that entry.
-/

namespace Bsd386.Kern.Vm

open Ranges

variable {E O : Type}

/-- What an address is mapped to. -/
structure Mapping (O : Type) where
  object : Option O
  offset : VmOffset
  protection : ℕ
  maxProtection : ℕ
  inheritance : ℕ
  wiredCount : ℤ
  needsCopy : Bool

/-- What an entry maps an address to. -/
def MapEntry.mapping (e : MapEntry E O) (address : VmOffset) : Mapping O where
  object := e.object
  offset := e.offset + (address - e.start)
  protection := e.protection
  maxProtection := e.maxProtection
  inheritance := e.inheritance
  wiredCount := e.wiredCount
  needsCopy := e.needsCopy

/-- The function a list of entries stands for. -/
abbrev denote (l : List (MapEntry E O)) : VmOffset → Option (Mapping O) :=
  piecewise (·.start) (·.endAddr) (fun e address ↦ e.mapping address) l

/-- The entries are in order and do not overlap. -/
abbrev InOrder (l : List (MapEntry E O)) : Prop := Ordered (·.start) (·.endAddr) l

/-- The addresses of the entries in memory. -/
abbrev ids (l : List (MapEntry E O)) : List E := l.map (·.id)

/-- The last entry of a list, or the header before it. -/
abbrev lastId (l : List (MapEntry E O)) : Option E := l.getLast?.map (·.id)

/-- The first entry of a list, or the header after it. -/
abbrev firstId (l : List (MapEntry E O)) : Option E := l.head?.map (·.id)

/-- The number of addresses in the entries of a list. -/
def extent (l : List (MapEntry E O)) : ℕ := (l.map fun e ↦ e.endAddr.val - e.start.val).sum

@[simp]
theorem extent_append (l m : List (MapEntry E O)) : extent (l ++ m) = extent l + extent m := by
  simp [extent]

@[simp]
theorem extent_cons (e : MapEntry E O) (l : List (MapEntry E O)) :
    extent (e :: l) = (e.endAddr.val - e.start.val) + extent l := by
  simp [extent]

theorem extent_eq_ncard {l : List (MapEntry E O)} (h : InOrder l) :
    extent l = (cover (·.start) (·.endAddr) l).ncard := by
  rw [h.ncard_cover]
  simp only [Fin.card_Ico]
  rfl

/-- Lists that map the same addresses have the same extent. -/
theorem extent_congr {l m : List (MapEntry E O)} (hl : InOrder l) (hm : InOrder m)
    (h : denote l = denote m) : extent l = extent m := by
  rw [extent_eq_ncard hl, extent_eq_ncard hm, cover_congr h]

theorem extent_le {l : List (MapEntry E O)} {min max : VmOffset} (h : InOrder l)
    (hinside : ∀ e ∈ l, min ≤ e.start ∧ e.endAddr ≤ max) : extent l ≤ max.val - min.val := by
  have hsub : cover (·.start) (·.endAddr) l ⊆ Finset.Ico min max := by
    rintro x ⟨e, he, hlo, hhi⟩
    exact Finset.mem_coe.2
      (Finset.mem_Ico.2 ⟨(hinside e he).1.trans hlo, hhi.trans_le (hinside e he).2⟩)
  calc extent l = (cover (·.start) (·.endAddr) l).ncard := extent_eq_ncard h
    _ ≤ (Finset.Ico min max : Set VmOffset).ncard := Set.ncard_le_ncard hsub (Finset.finite_toSet _)
    _ = max.val - min.val := by rw [Set.ncard_coe_finset, Fin.card_Ico]

namespace VmMap

/-- `size` is the number of addresses that are mapped. -/
def Counted (map : VmMap E O) : Prop := map.size.val = extent map.entries

/-- Below the end of the entry that `first_free` is at, every address is mapped. -/
def Packed (map : VmMap E O) : Prop :=
  ∀ e ∈ map.entries, map.firstFree = some e.id → ∀ x, map.minOffset ≤ x → x < e.endAddr →
    denote map.entries x ≠ none

/-- The pointer is to the header or to an entry of the list. -/
def Live (l : List (MapEntry E O)) (p : Option E) : Prop := ∀ id, p = some id → id ∈ ids l

/-- Well-formed maps. -/
structure Wellformed (map : VmMap E O) : Prop where
  inOrder : InOrder map.entries
  inside : ∀ e ∈ map.entries, map.minOffset ≤ e.start ∧ e.endAddr ≤ map.maxOffset
  nodup : (ids map.entries).Nodup
  nentries_eq : map.nentries = map.entries.length
  hint_live : Live map.entries map.hint
  firstFree_live : Live map.entries map.firstFree

variable {map : VmMap E O} {e new : MapEntry E O} {l l₁ l₂ : List (MapEntry E O)} {p : Option E}

theorem live_none : Live l none := fun _ h ↦ absurd h (by simp)

theorem live_some {id : E} (h : id ∈ ids l) : Live l (some id) :=
  fun _ hid ↦ Option.some.inj hid ▸ h

theorem Live.mono (h : Live l p) {l' : List (MapEntry E O)} (hsub : ids l ⊆ ids l') : Live l' p :=
  fun id hid ↦ hsub (h id hid)

theorem live_lastId : Live (l₁ ++ l₂) (lastId l₁) := by
  intro id hid
  obtain ⟨e, he, rfl⟩ := Option.map_eq_some_iff.1 hid
  exact List.mem_map_of_mem (List.mem_append_left _ (List.mem_of_getLast? he))

/-- The entries known from a list end no later than there. -/
def EndsWithin (l m : List (MapEntry E O)) : Prop :=
  ∀ f ∈ l, f.id ∈ ids m → ∃ g ∈ m, g.id = f.id ∧ f.endAddr ≤ g.endAddr

theorem EndsWithin.refl (l : List (MapEntry E O)) : EndsWithin l l :=
  fun f hf _ ↦ ⟨f, hf, rfl, le_rfl⟩

/-! ## One entry -/

variable [DecidableEq E]

omit [DecidableEq E] in
theorem ids_split (h : (ids (l₁ ++ e :: l₂)).Nodup) :
    (∀ f ∈ l₁, f.id ≠ e.id) ∧ ∀ f ∈ l₂, f.id ≠ e.id := by
  rw [ids, List.map_append, List.map_cons, List.nodup_append, List.nodup_cons] at h
  refine ⟨fun f hf hid ↦ ?_, fun f hf hid ↦ ?_⟩
  · exact h.2.2 f.id (List.mem_map_of_mem hf) e.id (List.mem_cons_self ..) hid
  · exact h.2.1.1 (hid ▸ List.mem_map_of_mem hf)

theorem entry_split (hl : map.entries = l₁ ++ e :: l₂) (hnodup : (ids map.entries).Nodup) :
    map.entry e.id = .ok e := by
  rw [hl] at hnodup
  have hfind : map.entries.find? (·.id = e.id) = some e := by
    rw [hl, List.find?_append, List.find?_eq_none.2, Option.none_or, List.find?_cons_of_pos]
    · simp
    · simpa using (ids_split hnodup).1
  unfold entry
  rw [hfind]

theorem dropWhile_split (hnodup : (ids (l₁ ++ e :: l₂)).Nodup) :
    (l₁ ++ e :: l₂).dropWhile (·.id ≠ e.id) = e :: l₂ := by
  rw [List.dropWhile_append_of_pos, List.dropWhile_cons_of_neg]
  · simp
  · simpa using (ids_split hnodup).1

theorem takeWhile_split (hnodup : (ids (l₁ ++ e :: l₂)).Nodup) :
    (l₁ ++ e :: l₂).takeWhile (·.id ≠ e.id) = l₁ := by
  rw [List.takeWhile_append_of_pos, List.takeWhile_cons_of_neg, List.append_nil]
  · simp
  · simpa using (ids_split hnodup).1

theorem next_split (hl : map.entries = l₁ ++ e :: l₂) (hnodup : (ids map.entries).Nodup) :
    map.next (some e.id) = firstId l₂ := by
  rw [hl] at hnodup
  unfold next
  simp only [hl]
  rw [dropWhile_split hnodup]
  rfl

theorem prev_split (hl : map.entries = l₁ ++ e :: l₂) (hnodup : (ids map.entries).Nodup) :
    map.prev (some e.id) = lastId l₁ := by
  rw [hl] at hnodup
  unfold prev
  simp only [hl]
  rw [takeWhile_split hnodup]

theorem modify_split (hl : map.entries = l₁ ++ e :: l₂) (hnodup : (ids map.entries).Nodup)
    (f : MapEntry E O → MapEntry E O) :
    map.modify e.id f = { map with entries := l₁ ++ f e :: l₂ } := by
  rw [hl] at hnodup
  obtain ⟨h₁, h₂⟩ := ids_split hnodup
  have hkeep : ∀ l : List (MapEntry E O), (∀ g ∈ l, g.id ≠ e.id) →
      l.map (fun g ↦ if g.id = e.id then f g else g) = l := by
    intro l hl
    rw [List.map_congr_left fun g hg ↦ if_neg (hl g hg), List.map_id']
  unfold modify
  rw [hl, List.map_append, List.map_cons, hkeep l₁ h₁, hkeep l₂ h₂, if_pos rfl]

theorem unlink_split (hl : map.entries = l₁ ++ e :: l₂) (hnodup : (ids map.entries).Nodup) :
    map.unlink e.id = { map with nentries := map.nentries - 1, entries := l₁ ++ l₂ } := by
  rw [hl] at hnodup
  obtain ⟨h₁, h₂⟩ := ids_split hnodup
  unfold unlink
  rw [hl, List.filter_append, List.filter_cons_of_neg, List.filter_eq_self.2, List.filter_eq_self.2]
  · simpa using h₂
  · simpa using h₁
  · simp

theorem link_split (hl : map.entries = l₁ ++ e :: l₂) (hnodup : (ids map.entries).Nodup) :
    map.link (some e.id) new =
      { map with nentries := map.nentries + 1, entries := l₁ ++ e :: new :: l₂ } := by
  rw [hl] at hnodup
  obtain ⟨h₁, h₂⟩ := ids_split hnodup
  have hkeep : ∀ l : List (MapEntry E O), (∀ g ∈ l, g.id ≠ e.id) →
      l.flatMap (fun g ↦ if g.id = e.id then [g, new] else [g]) = l := by
    intro l hl
    rw [List.flatMap_congr fun g hg ↦ if_neg (hl g hg), List.flatMap_singleton']
  unfold link
  simp only [hl, List.flatMap_append, List.flatMap_cons, hkeep l₁ h₁, hkeep l₂ h₂, if_true]
  rfl

/-! ## Positions

A position in the list is between two entries, and is known by the entry before it. -/

theorem next_lastId (hl : map.entries = l₁ ++ l₂) (hnodup : (ids map.entries).Nodup) :
    map.next (lastId l₁) = firstId l₂ := by
  rcases List.eq_nil_or_concat l₁ with rfl | ⟨l, e, rfl⟩
  · rw [List.nil_append] at hl
    rw [← hl]
    rfl
  · rw [List.concat_eq_append, List.append_assoc] at hl
    rw [lastId, List.concat_eq_append, List.getLast?_concat]
    exact next_split hl hnodup

theorem link_lastId (hl : map.entries = l₁ ++ l₂) (hnodup : (ids map.entries).Nodup) :
    map.link (lastId l₁) new =
      { map with nentries := map.nentries + 1, entries := l₁ ++ new :: l₂ } := by
  rcases List.eq_nil_or_concat l₁ with rfl | ⟨l, e, rfl⟩
  · rw [List.nil_append] at hl
    rw [List.nil_append, ← hl]
    rfl
  · rw [List.concat_eq_append, List.append_assoc] at hl
    rw [lastId, List.concat_eq_append, List.getLast?_concat, List.append_assoc]
    exact link_split hl hnodup

theorem prev_firstId (hl : map.entries = l₁ ++ l₂) (hnodup : (ids map.entries).Nodup) :
    map.prev (firstId l₂) = lastId l₁ := by
  cases l₂ with
  | nil =>
    rw [List.append_nil] at hl
    rw [← hl]
    rfl
  | cons e l₂ => exact prev_split hl hnodup

/-! ## Lookup -/

omit [DecidableEq E] in
/-- The walk stops at the entry around the address, or between two entries. -/
theorem lookupLoop_spec (address : VmOffset) (l₁ l₂ : List (MapEntry E O))
    (hbelow : ∀ e ∈ l₁, e.endAddr ≤ address) (hinOrder : InOrder (l₁ ++ l₂)) :
    (∃ m₁ e m₂, l₁ ++ l₂ = m₁ ++ e :: m₂ ∧ e.start ≤ address ∧ address < e.endAddr ∧
      lookupLoop address (lastId l₁) l₂ = (true, some e.id)) ∨
    ∃ m₁ m₂, l₁ ++ l₂ = m₁ ++ m₂ ∧ (∀ e ∈ m₁, e.endAddr ≤ address) ∧
      (∀ e ∈ m₂, address < e.start) ∧
        lookupLoop address (lastId l₁) l₂ = (false, lastId m₁) := by
  induction l₂ generalizing l₁ with
  | nil =>
    exact .inr ⟨l₁, [], rfl, hbelow, fun _ he ↦ absurd he List.not_mem_nil, rfl⟩
  | cons cur rest ih =>
    unfold lookupLoop
    split_ifs with hend hstart
    · exact .inl ⟨l₁, cur, rest, rfl, hstart, hend, rfl⟩
    · refine .inr ⟨l₁, cur :: rest, rfl, hbelow, fun e he ↦ ?_, rfl⟩
      have hstart' : address < cur.start := not_le.1 hstart
      obtain ⟨hcur, hrest, -⟩ := ordered_cons.1 (ordered_append.1 hinOrder).2.1
      rcases List.mem_cons.1 he with rfl | he
      · exact hstart'
      · exact hstart'.trans (hcur.trans_le (hrest e he))
    · have hassoc : l₁ ++ cur :: rest = (l₁ ++ [cur]) ++ rest := by simp
      have hlast : some cur.id = lastId (l₁ ++ [cur]) := by simp
      rw [hassoc, hlast]
      refine ih (l₁ ++ [cur]) (fun e he ↦ ?_) (hassoc ▸ hinOrder)
      rcases List.mem_append.1 he with he | he
      · exact hbelow e he
      · exact List.mem_singleton.1 he ▸ not_lt.1 hend

/-- `vm_map_lookup_entry` finds the entry around the address, or the one before it. -/
theorem Wellformed.lookup (h : map.Wellformed) (address : VmOffset) :
    (∃ l₁ e l₂ hint, map.entries = l₁ ++ e :: l₂ ∧ e.start ≤ address ∧ address < e.endAddr ∧
      map.vmMapLookupEntry address = .ok (true, some e.id, { map with hint }) ∧
        Live map.entries hint) ∨
    ∃ l₁ l₂, map.entries = l₁ ++ l₂ ∧ (∀ e ∈ l₁, e.endAddr ≤ address) ∧
      (∀ e ∈ l₂, address < e.start) ∧
        map.vmMapLookupEntry address = .ok (false, lastId l₁, { map with hint := lastId l₁ }) := by
  -- The walk begins behind entries that end below the address.
  have hwalk : ∀ l₁ l₂, map.entries = l₁ ++ l₂ → (∀ e ∈ l₁, e.endAddr ≤ address) →
      map.vmMapLookupEntry address = .ok ((lookupLoop address (lastId l₁) l₂).1,
        (lookupLoop address (lastId l₁) l₂).2,
        { map with hint := (lookupLoop address (lastId l₁) l₂).2 }) →
      (∃ l₁ e l₂ hint, map.entries = l₁ ++ e :: l₂ ∧ e.start ≤ address ∧ address < e.endAddr ∧
        map.vmMapLookupEntry address = .ok (true, some e.id, { map with hint }) ∧
          Live map.entries hint) ∨
      ∃ l₁ l₂, map.entries = l₁ ++ l₂ ∧ (∀ e ∈ l₁, e.endAddr ≤ address) ∧
        (∀ e ∈ l₂, address < e.start) ∧
          map.vmMapLookupEntry address = .ok (false, lastId l₁,
            { map with hint := lastId l₁ }) := by
    intro l₁ l₂ hl hbelow hlookup
    rcases lookupLoop_spec address l₁ l₂ hbelow (hl ▸ h.inOrder) with
      ⟨m₁, e, m₂, hm, hstart, hend, hloop⟩ | ⟨m₁, m₂, hm, hbefore, hafter, hloop⟩
    · rw [hloop] at hlookup
      have hlive : Live map.entries (some e.id) :=
        live_some (List.mem_map_of_mem (hl.trans hm ▸ by simp))
      exact .inl ⟨m₁, e, m₂, some e.id, hl.trans hm, hstart, hend, hlookup, hlive⟩
    · rw [hloop] at hlookup
      exact .inr ⟨m₁, m₂, hl.trans hm, hbefore, hafter, hlookup⟩
  obtain ⟨l₁, l₂, hl, hfrom⟩ : ∃ l₁ l₂, map.entries = l₁ ++ l₂ ∧ map.fromHint = .ok l₂ ∧
      (l₂ = [] → l₁ = [] ∧ map.hint = none) := by
    unfold fromHint
    cases hhint : map.hint with
    | none => exact ⟨[], map.entries, rfl, rfl, fun _ ↦ ⟨rfl, rfl⟩⟩
    | some id =>
      obtain ⟨cur, hcur, rfl⟩ := List.mem_map.1 (h.hint_live id hhint)
      obtain ⟨l₁, l₂, hl⟩ := List.append_of_mem hcur
      refine ⟨l₁, cur :: l₂, hl, ?_, fun hnil ↦ absurd hnil (by simp)⟩
      have hnodup := h.nodup
      rw [hl] at hnodup
      simp only [hl]
      rw [dropWhile_split hnodup]
  cases l₂ with
  | nil =>
    obtain ⟨rfl, hhint⟩ := hfrom.2 rfl
    refine .inr ⟨[], [], hl, by simp, by simp, ?_⟩
    unfold vmMapLookupEntry
    rw [hfrom.1]
    exact congrArg (fun hint ↦ Except.ok (false, none, { map with hint })) hhint
  | cons cur rest =>
    have hlookup : map.vmMapLookupEntry address =
        if cur.start ≤ address then
          if address < cur.endAddr then .ok (true, some cur.id, map)
          else .ok ((lookupLoop address (map.prev (some cur.id)) (cur :: rest)).1,
            (lookupLoop address (map.prev (some cur.id)) (cur :: rest)).2,
            { map with hint := (lookupLoop address (map.prev (some cur.id)) (cur :: rest)).2 })
        else .ok ((lookupLoop address none map.entries).1, (lookupLoop address none map.entries).2,
            { map with hint := (lookupLoop address none map.entries).2 }) := by
      unfold vmMapLookupEntry
      rw [hfrom.1]
      split_ifs with hstart hend
      · simp [bind, Except.bind, pure, Except.pure, hstart, hend]
      · simp [bind, Except.bind, pure, Except.pure, hstart, hend]
      · simp [bind, Except.bind, pure, Except.pure, hstart]
    split_ifs at hlookup with hstart hend
    · exact .inl ⟨l₁, cur, rest, map.hint, hl, hstart, hend, hlookup, h.hint_live⟩
    · rw [prev_split hl h.nodup] at hlookup
      refine hwalk l₁ (cur :: rest) hl (fun e he ↦ ?_) hlookup
      have hcur : cur.start ≤ address := hstart
      exact ((ordered_append.1 (hl ▸ h.inOrder)).2.2 e he cur (List.mem_cons_self ..)).trans hcur
    · exact hwalk [] map.entries rfl (by simp) hlookup

end VmMap

end Bsd386.Kern.Vm
