import Mathlib.Algebra.Order.BigOperators.Group.List
import Mathlib.Algebra.Order.Group.Nat
import Bsd386.Kern.Vm.Map.Updates

/-!
# Address maps refine partial functions

The operations are read as operations on the function from addresses to memory. Every map that can
be built from an empty one is well formed, and on it every operation returns and has the effect its
name says. What the functions for protection, inheritance and wiring assign to the entries of a
region is left open; they share how they split the entries.
-/

namespace Bsd386.Kern.Vm.VmMap

variable {E O : Type} [DecidableEq E] [DecidableEq O]

/-! ## Calls -/

/-- An operation on a map: besides `vm_map_insert`, `vm_map_delete` and `vm_map_simplify`, the
functions that clip a region, which may give up once its start is clipped, and `vm_map_submap`. -/
inductive Call (E O : Type)
  | insert (create : Create E O) (coalesce : Coalesce O) (object : Option O)
    (offset start endAddr : VmOffset)
  | delete (create : Create E O) (start endAddr : VmOffset)
  | simplify (start : VmOffset)
  | clipStart (create : Create E O) (start endAddr : VmOffset)
  | clipRegion (create : Create E O) (edit : MapEntry E O → MapEntry E O)
    (start endAddr : VmOffset)
  | submap (create : Create E O) (start endAddr : VmOffset) (inner : O)

/-- The result of a call, and the map after it. -/
def Call.run (map : VmMap E O) : Call E O → Except Fault (KernReturn × VmMap E O)
  | .insert create coalesce object offset start endAddr =>
    map.vmMapInsert create coalesce object offset start endAddr
  | .delete create start endAddr =>
    (map.vmMapDelete create start endAddr).map fun map ↦ (.success, map)
  | .simplify start => (map.vmMapSimplify start).map fun map ↦ (.success, map)
  | .clipStart create start endAddr =>
    (map.lockClipStart create start endAddr).map fun clipped ↦ (.success, clipped.2.2.2)
  | .clipRegion create edit start endAddr =>
    (map.clipRegion create edit start endAddr).map fun map ↦ (.success, map)
  | .submap create start endAddr inner => map.vmMapSubmap create start endAddr inner

/-- What `malloc` and the callers promise. The one caller of `vm_map_submap` has just inserted the
region. -/
def Call.Allowed (map : VmMap E O) : Call E O → Prop
  | .insert create _ _ _ _ _ => Fresh create
  | .delete create _ _ => Fresh create
  | .simplify _ => True
  | .clipStart create _ _ => Fresh create
  | .clipRegion create edit _ _ => Fresh create ∧ Keeps edit
  | .submap create start endAddr _ =>
    Fresh create ∧ denote map.entries start ≠ none ∧ start < endAddr ∧ endAddr ≤ map.maxOffset

/-- What a call does to the function of the map. -/
def Call.Effect (map : VmMap E O) (result : KernReturn) (map' : VmMap E O) : Call E O → Prop
  | .insert _ _ object offset start endAddr =>
    (result = .success ∧ map.Added object offset start endAddr map'.entries) ∨
      (result ≠ .success ∧ map' = { map with hint := map'.hint })
  | .delete _ start endAddr => ∀ x, denote map'.entries x =
      if start ≤ x ∧ x < endAddr then none else denote map.entries x
  | .simplify _ => denote map'.entries = denote map.entries
  | .clipStart _ _ _ => denote map'.entries = denote map.entries
  | .clipRegion _ edit start endAddr =>
    (∀ x, x < map.regionStart start endAddr ∨ min endAddr map.maxOffset ≤ x →
      denote map'.entries x = denote map.entries x) ∧
    (∀ act, Acts edit act → ∀ x, map.regionStart start endAddr ≤ x →
      x < min endAddr map.maxOffset → denote map'.entries x = (denote map.entries x).map act) ∧
    (edit = id → denote map'.entries = denote map.entries)
  | .submap _ start endAddr _ =>
    (∀ x, ¬ (start ≤ x ∧ x < endAddr) → denote map'.entries x = denote map.entries x) ∧
      (result ≠ .success → denote map'.entries = denote map.entries)

variable {map map' : VmMap E O}

/-- An allowed call returns, keeps the map well formed and its bounds, and has its effect. -/
theorem Wellformed.call (h : map.Wellformed) {call : Call E O} (hallowed : call.Allowed map) :
    ∃ result map', call.run map = .ok (result, map') ∧ map'.Wellformed ∧
      map'.minOffset = map.minOffset ∧ map'.maxOffset = map.maxOffset ∧
        map'.isMainMap = map.isMainMap ∧ call.Effect map result map' := by
  cases call with
  | insert create coalesce object offset start endAddr =>
    obtain ⟨result, l, n, size, hint, firstFree, hok, hmap, hcase⟩ :=
      h.vmMapInsert hallowed coalesce object offset start endAddr
    refine ⟨result, _, hok, hmap, rfl, rfl, rfl, hcase.imp id ?_⟩
    rintro ⟨hresult, rfl, rfl, rfl, rfl⟩
    exact ⟨hresult, rfl⟩
  | delete create start endAddr =>
    obtain ⟨l, n, size, hint, firstFree, hok, hmap, -, -, hdenote⟩ :=
      h.vmMapDelete hallowed start endAddr
    exact ⟨.success, _, congrArg (Except.map fun map ↦ (KernReturn.success, map)) hok, hmap, rfl,
      rfl, rfl, hdenote⟩
  | simplify start =>
    obtain ⟨l, n, hint, firstFree, hok, hmap, -, hdenote⟩ := h.vmMapSimplify start
    exact ⟨.success, _, congrArg (Except.map fun map ↦ (KernReturn.success, map)) hok, hmap, rfl,
      rfl, rfl, hdenote⟩
  | clipStart create start endAddr =>
    obtain ⟨l₁, l₂, n, hint, hok, hmap, -, -, hdenote, -⟩ := h.lockClipStart hallowed start endAddr
    exact ⟨.success, _,
      congrArg (Except.map fun clipped : VmOffset × VmOffset × Option E × VmMap E O
      ↦ (KernReturn.success, clipped.2.2.2)) hok, hmap, rfl, rfl, rfl, hdenote⟩
  | clipRegion create edit start endAddr =>
    obtain ⟨l, n, hint, hok, hmap, houtside, hinside⟩ :=
      h.clipRegion hallowed.1 hallowed.2 start endAddr
    refine ⟨.success, _, congrArg (Except.map fun map ↦ (KernReturn.success, map)) hok, hmap, rfl,
      rfl, rfl, houtside, hinside, fun hedit ↦ ?_⟩
    funext x
    by_cases hx : map.regionStart start endAddr ≤ x ∧ x < min endAddr map.maxOffset
    · have hid := hinside id (fun e y ↦ by rw [hedit]; rfl) x hx.1 hx.2
      rwa [Option.map_id] at hid
    · exact houtside x (by rwa [not_and_or, not_le, not_lt] at hx)
  | submap create start endAddr inner =>
    obtain ⟨hcreate, hmapped, hlt, hmax⟩ := hallowed
    obtain ⟨result, l, n, hint, hok, hmap, heffect⟩ :=
      h.vmMapSubmap hcreate hmapped hlt hmax inner
    exact ⟨result, _, hok, hmap, rfl, rfl, rfl, heffect⟩

/-! ## Runs -/

/-- The maps that allowed calls make of an empty one. -/
inductive Reachable (min max : VmOffset) : VmMap E O → Prop
  | init : Reachable min max (vmMapInit min max)
  | call {map map' result} (call : Call E O) : Reachable min max map → call.Allowed map →
      call.run map = .ok (result, map') → Reachable min max map'

variable {min max : VmOffset}

omit [DecidableEq E] [DecidableEq O] in
theorem wellformed_init (min max : VmOffset) : (vmMapInit min max : VmMap E O).Wellformed :=
  ⟨.nil, fun _ he ↦ absurd he List.not_mem_nil, List.nodup_nil, rfl, live_none, live_none⟩

theorem Reachable.wellformed (h : Reachable min max map) : map.Wellformed ∧
    map.minOffset = min ∧ map.maxOffset = max ∧ map.isMainMap := by
  induction h with
  | init => exact ⟨wellformed_init min max, rfl, rfl, rfl⟩
  | call call _ hallowed hrun ih =>
    obtain ⟨hmap, hmin, hmax, hmain⟩ := ih
    obtain ⟨result, map', hok, hmap', hmin', hmax', hmain', -⟩ := hmap.call hallowed
    obtain ⟨-, rfl⟩ := Prod.ext_iff.1 (Except.ok.inj (hrun.symm.trans hok))
    exact ⟨hmap', hmin'.trans hmin, hmax'.trans hmax, hmain'.trans hmain⟩

/-- Every reachable map is a well-formed main map, and every call on it returns and has its effect
on the function of the map. -/
theorem vmMap_refinement (h : Reachable min max map) :
    (map.Wellformed ∧ map.minOffset = min ∧ map.maxOffset = max ∧ map.isMainMap) ∧
      ∀ call : Call E O, call.Allowed map →
        ∃ result map', call.run map = .ok (result, map') ∧ call.Effect map result map' := by
  refine ⟨h.wellformed, fun call hallowed ↦ ?_⟩
  obtain ⟨result, map', hok, -, -, -, -, heffect⟩ := h.wellformed.1.call hallowed
  exact ⟨result, map', hok, heffect⟩

/-! ## One entry -/

/-- Memory for an entry that is above all in use. -/
def above (used : List ℕ) : MapEntry ℕ ℕ where
  id := used.sum + 1
  start := 0
  endAddr := 0
  object := none
  offset := 0
  isAMap := false
  isSubMap := false
  copyOnWrite := false
  needsCopy := false
  protection := 0
  maxProtection := 0
  inheritance := 0
  wiredCount := 0

theorem above_fresh : Fresh above := fun _ hmem ↦
  absurd (List.single_le_sum (fun _ _ ↦ Nat.zero_le _) _ hmem) (Nat.not_succ_le_self _)

/-- After two pages of anonymous memory have been inserted, the second can be deleted. -/
theorem vmMap_refinement_deleted : ∃ map map' : VmMap ℕ ℕ, Reachable 0 65536 map ∧
    map.entries.length = 1 ∧ (Call.delete above 8192 12288).run map = .ok (.success, map') ∧
      ∀ x, denote map'.entries x =
        if 8192 ≤ x ∧ x < 12288 then none else denote map.entries x := by
  let insert : Call ℕ ℕ := .insert above (fun _ _ _ _ _ _ ↦ true) none 0 4096 12288
  obtain ⟨map, hok, hlength⟩ : ∃ map : VmMap ℕ ℕ,
      insert.run (vmMapInit 0 65536) = .ok (.success, map) ∧ map.entries.length = 1 := ⟨_, rfl, rfl⟩
  have hreachable : Reachable 0 65536 map := .call insert .init above_fresh hok
  obtain ⟨result, map', hrun, heffect⟩ :=
    (vmMap_refinement hreachable).2 (.delete above 8192 12288) above_fresh
  have hresult : result = .success := by
    obtain ⟨l, n, size, hint, firstFree, hdelete, -⟩ :=
      hreachable.wellformed.1.vmMapDelete above_fresh 8192 12288
    have hsuccess := congrArg (Except.map fun map : VmMap ℕ ℕ ↦ (KernReturn.success, map)) hdelete
    exact (Prod.ext_iff.1 (Except.ok.inj (hrun.symm.trans hsuccess))).1
  exact ⟨map, map', hreachable, hlength, hresult ▸ hrun, heffect⟩

end Bsd386.Kern.Vm.VmMap
