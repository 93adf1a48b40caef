import Bsd386.Kern.Vm.Map.Refinement

/-!
# First fit

`vm_map_find` looks for the lowest room of some length from an address on. It walks over the entries
from the one around or before that address; from the bottom of the map it trusts `first_free` and
begins behind that entry. This is right as long as everything below the end of that entry is mapped.
Deletion and simplification keep it so. Insertion does not: the header, where `first_free` begins,
has `max_offset` for its end, so that any entry behind it seems to meet it.
-/

namespace Bsd386.Kern.Vm.VmMap

open Ranges

variable {E O : Type} [DecidableEq E]

/-- The loop of `vm_map_find`: the entry before the room and its address, if there is any. -/
def findLoop (map : VmMap E O) (length : VmOffset) :
    ℕ → Option E → VmOffset → Except Fault (Option (Option E × VmOffset))
  | 0, _, _ => .error .endless
  | turns + 1, entry, start => do
    if map.maxOffset < start + length ∨ start + length < start then return none
    match map.next entry with
    | none => return some (entry, start)
    | some next =>
      if start + length ≤ (← map.startOf (some next)) then return some (entry, start)
      findLoop map length turns (some next) (← map.endOf (some next))

/-- The beginning of `vm_map_find`: the entry to search from, and the address behind it. -/
def findFrom (map : VmMap E O) (start : VmOffset) :
    Except Fault (Option E × VmOffset × VmMap E O) := do
  if start = map.minOffset then
    match map.firstFree with
    | none => return (none, start, map)
    | some id => return (some id, ← map.endOf (some id), map)
  else
    match ← map.vmMapLookupEntry start with
    | (true, entry, map) => return (entry, ← map.endOf entry, map)
    | (_, entry, map) => return (entry, start, map)

/-- `vm_map_find`: the result, and `*addr` afterwards. -/
def vmMapFind (map : VmMap E O) (addr length : VmOffset) :
    Except Fault (KernReturn × VmOffset × VmMap E O) := do
  let start := max addr map.minOffset
  if map.maxOffset < start then return (.noSpace, addr, map)
  let (entry, start, map) ← map.findFrom start
  match ← map.findLoop length (map.entries.length + 1) entry start with
  | none => return (.noSpace, addr, map)
  | some (entry, start) => return (.success, start, { map with hint := entry })

/-! ## Room -/

omit [DecidableEq E] in
/-- Nothing is mapped in the range of this length from an address on, and it ends inside the map. -/
def Room (map : VmMap E O) (length address : VmOffset) : Prop :=
  address.val + length.val ≤ map.maxOffset.val ∧
    ∀ x : VmOffset, address ≤ x → x.val < address.val + length.val → denote map.entries x = none

/-- `vm_map_find` returns the lowest room from the address on, and fails if there is none. -/
def FirstFit (map : VmMap E O) (addr length : VmOffset) : Prop :=
  (∃ found hint, map.vmMapFind addr length = .ok (.success, found, { map with hint }) ∧
    IsLeast {x | max addr map.minOffset ≤ x ∧ map.Room length x} found) ∨
  ∃ hint, map.vmMapFind addr length = .ok (.noSpace, addr, { map with hint }) ∧
    ∀ x, max addr map.minOffset ≤ x → ¬ map.Room length x

variable {map : VmMap E O} {l₁ l₂ : List (MapEntry E O)} {start length : VmOffset}

theorem over_iff {limit : VmOffset} :
    (limit < start + length ∨ start + length < start) ↔ limit.val < start.val + length.val := by
  rw [Fin.lt_def, Fin.lt_def, Fin.val_add]
  omega

/-- Between the start of the search and the next entry there is room, or none before its end. -/
theorem Wellformed.findLoop (h : map.Wellformed) (turns : ℕ) (hl : map.entries = l₁ ++ l₂)
    (habove : ∀ f ∈ l₂, start ≤ f.start) (hbelow : ∀ f ∈ l₁, f.endAddr ≤ start)
    (hturns : l₂.length < turns) :
    (∃ entry found, map.findLoop length turns (lastId l₁) start = .ok (some (entry, found)) ∧
      IsLeast {x | start ≤ x ∧ map.Room length x} found) ∨
    map.findLoop length turns (lastId l₁) start = .ok none ∧
      ∀ x, start ≤ x → ¬ map.Room length x := by
  induction turns generalizing l₁ l₂ start with
  | zero => exact absurd hturns (Nat.not_lt_zero _)
  | succ turns ih =>
    unfold VmMap.findLoop
    by_cases hover : map.maxOffset < start + length ∨ start + length < start
    · rw [if_pos hover]
      refine .inr ⟨rfl, fun x hx hroom ↦ ?_⟩
      have hle : map.maxOffset.val < start.val + length.val := over_iff.1 hover
      have hfits := hroom.1
      rw [Fin.le_def] at hx
      omega
    rw [if_neg hover, next_lastId hl h.nodup]
    have hfits : start.val + length.val ≤ map.maxOffset.val :=
      not_lt.1 fun hlt ↦ hover (over_iff.2 hlt)
    have hend : (start + length).val = start.val + length.val := by
      rw [Fin.val_add]
      omega
    have hgap : (∀ f ∈ l₂, start + length ≤ f.start) →
        IsLeast {x | start ≤ x ∧ map.Room length x} start := by
      refine fun hafter ↦ ⟨⟨le_rfl, hfits, fun x hlo hhi ↦ ?_⟩, fun x hx ↦ hx.1⟩
      refine piecewise_eq_none.2 fun f hf hfx ↦ ?_
      rcases List.mem_append.1 (hl ▸ hf) with hf | hf
      · exact (hbelow f hf).trans hlo
      · exact absurd (((hafter f hf).trans hfx)) (not_le.2 (Fin.lt_def.2 (hend ▸ hhi)))
    cases l₂ with
    | nil => exact .inl ⟨_, _, rfl, hgap fun f hf ↦ absurd hf List.not_mem_nil⟩
    | cons f rest =>
      have hf := entry_split hl h.nodup
      have hstart : map.startOf (some f.id) = .ok f.start :=
        congrArg (Except.map fun e : MapEntry E O ↦ e.start) hf
      have hendOf : map.endOf (some f.id) = .ok f.endAddr :=
        congrArg (Except.map fun e : MapEntry E O ↦ e.endAddr) hf
      obtain ⟨hne, hafter, -⟩ := ordered_cons.1 (ordered_append.1 (hl ▸ h.inOrder)).2.1
      simp only [firstId, List.head?_cons, Option.map_some, hstart, hendOf, bind, Except.bind]
      by_cases hroom : start + length ≤ f.start
      · rw [if_pos hroom]
        refine .inl ⟨_, _, rfl, hgap fun g hg ↦ ?_⟩
        rcases List.mem_cons.1 hg with rfl | hg
        · exact hroom
        · exact hroom.trans (hne.le.trans (hafter g hg))
      rw [if_neg hroom]
      have hl' : map.entries = (l₁ ++ [f]) ++ rest := by simpa using hl
      have hlast : lastId (l₁ ++ [f]) = some f.id := by simp
      have hskip : ∀ x, start ≤ x → map.Room length x → f.endAddr ≤ x := by
        intro x hx hroomx
        have hlt : f.start.val < start.val + length.val := hend ▸ Fin.lt_def.1 (not_le.1 hroom)
        have hle : start.val ≤ f.start.val := Fin.le_def.1 (habove f (List.mem_cons_self ..))
        by_contra hxend
        have hmapped : ∀ y, f.start ≤ y → y < f.endAddr → denote map.entries y ≠ none :=
          fun y hlo hhi ↦ mem_cover_iff.1 ⟨f, hl ▸ by simp, hlo, hhi⟩
        rw [Fin.le_def] at hx
        rcases le_total x f.start with hxf | hxf
        · exact hmapped f.start le_rfl hne (hroomx.2 f.start hxf (by omega))
        · exact hmapped x hxf (not_le.1 hxend) (hroomx.2 x le_rfl (by omega))
      have hrec := ih hl' hafter (fun g hg ↦ ?_) (Nat.lt_of_succ_lt_succ hturns)
      · rw [hlast] at hrec
        rcases hrec with ⟨entry, found, hok, hleast⟩ | ⟨hok, hnone⟩
        · refine .inl ⟨entry, found, hok, ⟨?_, hleast.1.2⟩, fun x hx ↦ ?_⟩
          · exact (habove f (List.mem_cons_self ..)).trans (hne.le.trans hleast.1.1)
          · exact hleast.2 ⟨hskip x hx.1 hx.2, hx.2⟩
        · exact .inr ⟨hok, fun x hx hroomx ↦ hnone x (hskip x hx hroomx) hroomx⟩
      · rcases List.mem_append.1 hg with hg | hg
        · exact (hbelow g hg).trans ((habove f (List.mem_cons_self ..)).trans hne.le)
        · rw [List.mem_singleton.1 hg]

omit [DecidableEq E] in
/-- There is no room where something is mapped. -/
theorem not_room {x : VmOffset} (hlength : 0 < length.val) (hx : denote map.entries x ≠ none) :
    ¬ map.Room length x :=
  fun hroom ↦ hx (hroom.2 x le_rfl (Nat.lt_add_of_pos_right hlength))

/-- The search begins behind entries that leave no room. -/
theorem Wellformed.findFrom (h : map.Wellformed) (hpacked : map.Packed)
    (hlength : 0 < length.val ∨ denote map.entries start = none) :
    ∃ l₁ l₂ hint behind, map.findFrom start = .ok (lastId l₁, behind, { map with hint }) ∧
      Live map.entries hint ∧ map.entries = l₁ ++ l₂ ∧ (∀ f ∈ l₂, behind ≤ f.start) ∧
        (∀ f ∈ l₁, f.endAddr ≤ behind) ∧ start ≤ behind ∧
          ∀ x, start ≤ x → x < behind → ¬ map.Room length x := by
  -- Behind an entry, when everything up to its end is mapped.
  have hbehind : ∀ l₁ e l₂ hint, map.entries = l₁ ++ e :: l₂ → start < e.endAddr →
      (∀ x, start ≤ x → x < e.endAddr → denote map.entries x ≠ none) → Live map.entries hint →
        map.findFrom start = .ok (some e.id, e.endAddr, { map with hint }) →
          ∃ l₁ l₂ hint behind, map.findFrom start = .ok (lastId l₁, behind, { map with hint }) ∧
            Live map.entries hint ∧ map.entries = l₁ ++ l₂ ∧ (∀ f ∈ l₂, behind ≤ f.start) ∧
              (∀ f ∈ l₁, f.endAddr ≤ behind) ∧ start ≤ behind ∧
                ∀ x, start ≤ x → x < behind → ¬ map.Room length x := by
    intro l₁ e l₂ hint hl hlt hmapped hlive hok
    obtain ⟨-, hel₂, hbefore⟩ := ordered_append.1 (hl ▸ h.inOrder)
    obtain ⟨hne, hafter, -⟩ := ordered_cons.1 hel₂
    have hpos : 0 < length.val := hlength.resolve_right (hmapped start le_rfl hlt)
    have hlast : lastId (l₁ ++ [e]) = some e.id := by simp
    refine ⟨l₁ ++ [e], l₂, hint, e.endAddr, hlast ▸ hok, hlive, by simpa using hl, hafter,
      fun f hf ↦ ?_, hlt.le, fun x hx hxend ↦ not_room hpos (hmapped x hx hxend)⟩
    rcases List.mem_append.1 hf with hf | hf
    · exact (hbefore f hf e (List.mem_cons_self ..)).trans hne.le
    · rw [List.mem_singleton.1 hf]
  by_cases hbottom : start = map.minOffset
  · rcases Option.eq_none_or_eq_some map.firstFree with hfirst | ⟨id, hfirst⟩
    · refine ⟨[], map.entries, map.hint, start, ?_, h.hint_live, rfl, fun f hf ↦ ?_,
        fun f hf ↦ absurd hf List.not_mem_nil, le_rfl, fun x hx hlt ↦ absurd hlt hx.not_gt⟩
      · unfold VmMap.findFrom
        rw [if_pos hbottom, hfirst]
        exact congrArg (fun firstFree ↦ Except.ok (none, start, { map with firstFree })) hfirst
      · exact hbottom ▸ (h.inside f hf).1
    · obtain ⟨e, he, rfl⟩ := List.mem_map.1 (h.firstFree_live id hfirst)
      obtain ⟨l₁, l₂, hl⟩ := List.append_of_mem he
      have hend : map.endOf (some e.id) = .ok e.endAddr :=
        congrArg (Except.map fun e : MapEntry E O ↦ e.endAddr) (entry_split hl h.nodup)
      have hlt : start < e.endAddr :=
        hbottom ▸ (h.inside e he).1.trans_lt (h.inOrder.nonempty e he)
      refine hbehind l₁ e l₂ map.hint hl hlt (fun x hx hxend ↦ ?_) h.hint_live ?_
      · exact hpacked e he hfirst x (hbottom ▸ hx) hxend
      · unfold VmMap.findFrom
        rw [if_pos hbottom, hfirst]
        simp only [bind, Except.bind, hend]
        exact congrArg (fun firstFree ↦ Except.ok (some e.id, e.endAddr, { map with firstFree }))
          hfirst
  · rcases h.lookup start with
      ⟨l₁, e, l₂, hint, hl, hlo, hhi, hlookup, hlive⟩ | ⟨l₁, l₂, hl, hbelow, habove, hlookup⟩
    · have hend : endOf { map with hint } (some e.id) = .ok e.endAddr :=
        congrArg (Except.map fun e : MapEntry E O ↦ e.endAddr) (entry_split hl h.nodup)
      refine hbehind l₁ e l₂ hint hl hhi (fun x hx hxend ↦ ?_) hlive ?_
      · exact mem_cover_iff.1 ⟨e, hl ▸ by simp, hlo.trans hx, hxend⟩
      · unfold VmMap.findFrom
        rw [if_neg hbottom, hlookup]
        simp only [bind, Except.bind, hend]
        rfl
    · refine ⟨l₁, l₂, lastId l₁, start, ?_, hl ▸ live_lastId, hl, fun f hf ↦ (habove f hf).le,
        hbelow, le_rfl, fun x hx hlt ↦ absurd hlt hx.not_gt⟩
      unfold VmMap.findFrom
      rw [if_neg hbottom, hlookup]
      rfl

/-- `vm_map_find` finds the first fit if `first_free` is in order, except that for no memory at all
it does not accept an address inside an entry. -/
theorem Wellformed.firstFit (h : map.Wellformed) (hpacked : map.Packed) {addr : VmOffset}
    (hlength : 0 < length.val ∨ denote map.entries (max addr map.minOffset) = none) :
    map.FirstFit addr length := by
  unfold FirstFit VmMap.vmMapFind
  by_cases hlimit : map.maxOffset < max addr map.minOffset
  · refine .inr ⟨map.hint, if_pos hlimit, fun x hx hroom ↦ ?_⟩
    have hfits := hroom.1
    have hlt := Fin.lt_def.1 (hlimit.trans_le hx)
    omega
  simp only [if_neg hlimit]
  obtain ⟨l₁, l₂, hint, behind, hfrom, hlive, hl, habove, hbelow, hle, hskip⟩ :=
    h.findFrom hpacked hlength
  have hhint : Wellformed { map with hint } :=
    ⟨h.inOrder, h.inside, h.nodup, h.nentries_eq, hlive, h.firstFree_live⟩
  have hturns : l₂.length < (l₁ ++ l₂).length + 1 := by
    rw [List.length_append]
    omega
  have hbehind : ∀ x, max addr map.minOffset ≤ x → map.Room length x → behind ≤ x :=
    fun x hx hroom ↦ not_lt.1 fun hlt ↦ hskip x hx hlt hroom
  rw [hfrom]
  simp only [bind, Except.bind, hl]
  rcases hhint.findLoop _ hl habove hbelow hturns with ⟨entry, found, hok, hleast⟩ | ⟨hok, hnone⟩
  · refine .inl ⟨found, entry, ?_, ⟨hle.trans hleast.1.1, hleast.1.2⟩, fun x hx ↦ ?_⟩
    · simp only [hl] at hok
      rw [hok]
      rfl
    · exact hleast.2 ⟨hbehind x hx.1 hx.2, hx.2⟩
  · refine .inr ⟨hint, ?_, fun x hx hroom ↦ hnone x (hbehind x hx hroom) hroom⟩
    simp only [hl] at hok
    rw [hok]
    rfl

/-! ## Runs -/

variable [DecidableEq O] {min max : VmOffset}

/-- The operations that insert and remove entries. -/
def Call.Builds : Call E O → Prop
  | .insert .. | .delete .. | .simplify _ => True
  | .clipStart .. | .clipRegion .. | .submap .. => False

omit [DecidableEq E] [DecidableEq O] in
/-- The call inserts an entry below all others, above the bottom of the map, while `first_free` is
the header. -/
def Call.Jumps (map : VmMap E O) : Call E O → Prop
  | .insert _ _ _ _ start endAddr =>
    map.firstFree = none ∧ (∀ f ∈ map.entries, endAddr ≤ f.start) ∧ map.minOffset < start ∧
      start < endAddr ∧ endAddr ≤ map.maxOffset
  | _ => False

/-- The maps that calls of a kind build from an empty one. -/
inductive Built (allowed : VmMap E O → Call E O → Prop) (min max : VmOffset) : VmMap E O → Prop
  | init : Built allowed min max (vmMapInit min max)
  | call {map map' result} (call : Call E O) : Built allowed min max map → call.Builds →
      call.Allowed map → allowed map call → call.run map = .ok (result, map') →
        Built allowed min max map'

/-- No call of the run jumps. -/
abbrev Orderly (map : VmMap E O) (call : Call E O) : Prop := ¬ call.Jumps map

/-- A call that does not jump leaves `first_free` in order. -/
theorem Packed.call (hpacked : map.Packed) (h : map.Wellformed) {call : Call E O}
    (hbuilds : call.Builds) (hallowed : call.Allowed map) (horderly : Orderly map call)
    {result : KernReturn} {map' : VmMap E O} (hrun : call.run map = .ok (result, map')) :
    map'.Packed := by
  cases call with
  | insert create coalesce object offset start endAddr =>
    refine (h.vmMapInsert_kept hallowed hrun).2 hpacked fun hfree hlowest hlt hmax ↦ ?_
    exact not_lt.1 fun hmin ↦ horderly ⟨hfree, hlowest, hmin, hlt, hmax⟩
  | delete create start endAddr =>
    obtain ⟨l, n, size, hint, firstFree, hok, -, -, hkept, -⟩ :=
      h.vmMapDelete hallowed start endAddr
    have hmap := congrArg (Except.map fun map : VmMap E O ↦ (KernReturn.success, map)) hok
    obtain ⟨-, rfl⟩ := Prod.ext_iff.1 (Except.ok.inj (hrun.symm.trans hmap))
    exact hkept hpacked
  | simplify start =>
    obtain ⟨l, n, hint, firstFree, hok, -, hkept, -⟩ := h.vmMapSimplify start
    have hmap := congrArg (Except.map fun map : VmMap E O ↦ (KernReturn.success, map)) hok
    obtain ⟨-, rfl⟩ := Prod.ext_iff.1 (Except.ok.inj (hrun.symm.trans hmap))
    exact hkept hpacked
  | clipStart | clipRegion | submap => exact hbuilds.elim

theorem Built.packed (h : Built Orderly min max map) : map.Wellformed ∧ map.Packed := by
  induction h with
  | init =>
    exact ⟨wellformed_init min max, fun e he ↦ absurd he List.not_mem_nil⟩
  | call call _ hbuilds hallowed horderly hrun ih =>
    obtain ⟨result, map', hok, hmap', -⟩ := ih.1.call hallowed
    obtain ⟨-, rfl⟩ := Prod.ext_iff.1 (Except.ok.inj (hrun.symm.trans hok))
    exact ⟨hmap', ih.2.call ih.1 hbuilds hallowed horderly hrun⟩

/-- In a map that no jump has been made in, `vm_map_find` finds the first fit. -/
theorem find_first_fit (h : Built Orderly min max map) (addr length : VmOffset)
    (hlength : 0 < length.val ∨ denote map.entries (Max.max addr map.minOffset) = none) :
    map.FirstFit addr length :=
  h.packed.1.firstFit h.packed.2 hlength

/-- Behind two pages at the bottom of the map there is room for a third. -/
theorem find_first_fit_behind : ∃ map : VmMap ℕ ℕ, Built Orderly 0 65536 map ∧
    map.entries.length = 1 ∧ map.FirstFit 0 4096 := by
  let insert : Call ℕ ℕ := .insert above (fun _ _ _ _ _ _ ↦ true) none 0 0 8192
  obtain ⟨map, hok, hlength⟩ : ∃ map : VmMap ℕ ℕ,
      insert.run (vmMapInit 0 65536) = .ok (.success, map) ∧ map.entries.length = 1 :=
    ⟨_, rfl, rfl⟩
  have horderly : Orderly (vmMapInit 0 65536) insert := fun hjumps ↦
    absurd hjumps.2.2.1 (by decide)
  have hbuilt : Built Orderly 0 65536 map := .call insert .init trivial above_fresh horderly hok
  exact ⟨map, hbuilt, hlength, find_first_fit hbuilt 0 4096 (.inl (by decide))⟩

/-- An entry above two free pages hides them. -/
theorem jump_hides_room : ∃ map : VmMap ℕ ℕ, Built (fun _ _ ↦ True) 0 65536 map ∧
    ¬ map.FirstFit 0 4096 := by
  let insert : Call ℕ ℕ := .insert above (fun _ _ _ _ _ _ ↦ true) none 0 8192 12288
  obtain ⟨map, hok, hentries, hmax, hmin, hfind⟩ : ∃ map : VmMap ℕ ℕ,
      insert.run (vmMapInit 0 65536) = .ok (.success, map) ∧
        (∀ e ∈ map.entries, e.start = 8192) ∧ map.maxOffset = 65536 ∧ map.minOffset = 0 ∧
          (map.vmMapFind 0 4096).map (·.2.1) = .ok 12288 := ⟨_, rfl, by decide, rfl, rfl, rfl⟩
  refine ⟨map, .call insert .init trivial above_fresh trivial hok, ?_⟩
  have hroom : map.Room 4096 0 := by
    refine ⟨by rw [hmax]; decide, fun x _ hx ↦ piecewise_of_lt fun e he ↦ ?_⟩
    rw [hentries e he]
    exact Fin.lt_def.2 (lt_trans hx (by decide))
  have hlow : Max.max 0 map.minOffset ≤ 0 := by
    rw [hmin]
    decide
  rintro (⟨found, hint, hfound, hleast⟩ | ⟨hint, -, hnone⟩)
  · rw [hfound] at hfind
    have hfound' : found = 12288 := Except.ok.inj hfind
    exact absurd (hleast.2 ⟨hlow, hroom⟩) (by rw [hfound']; decide)
  · exact hnone 0 hlow hroom

end Bsd386.Kern.Vm.VmMap
