import Bsd386.Kern.Vm.Map.Refinement
import Bsd386.Kern.Vm.Space.CopyLocks
import Bsd386.Kern.Vm.Space.Regions

/-!
# Map locks are given back

Each function on an address space leaves the locks of all maps as it has found them, with two
exceptions: `vmspace_protect` returns from a submap without unlocking, and `vmspace_notpageable`
clears recursion that its caller has set. The process must hold no lock shared before the call.
-/

namespace Bsd386.Kern.Vm

open Space

variable {E O M : Type}

/-- A call of one of the functions that lock a map. For `vm_map_copy` the map is the destination. -/
inductive LockCall (M : Type)
  | submap (start endAddr : VmOffset) (subMap : M)
  | protect (va sz : VmOffset) (setMax : Bool) (newProt : ℕ)
  | inheritance (va sz : VmOffset) (newInheritance : ℕ)
  | pageable (va sz : VmOffset)
  | notpageable (turns : ℕ) (va sz : VmOffset)
  | allocate (va sz : VmOffset) (anywhere : Bool)
  | delete (va sz : VmOffset)
  | activate (turns : ℕ) (va sz : VmOffset)
  | copy (turns : ℕ) (srcMap : M) (dstAddr len srcAddr : VmOffset) (dstAlloc srcDestroy : Bool)

namespace LockCall

/-- The call, without its result. -/
def run [DecidableEq E] [DecidableEq O] [LinearOrder M] (env : Env E O M) (m : M) :
    LockCall M → Space E O M Unit
  | submap start endAddr subMap => do let _ ← vmMapSubmap env m start endAddr subMap
  | protect va sz setMax newProt => do let _ ← vmspaceProtect env m va sz setMax newProt
  | inheritance va sz newInheritance => do let _ ← vmspaceInherit env m va sz newInheritance
  | pageable va sz => vmspacePageable env m va sz
  | notpageable turns va sz => vmspaceNotpageable env turns m va sz
  | allocate va sz anywhere => do let _ ← vmspaceAllocate env m va sz anywhere
  | delete va sz => vmspaceDelete env m va sz
  | activate turns va sz => do let _ ← vmspaceActivate env turns m va sz
  | copy turns srcMap dstAddr len srcAddr dstAlloc srcDestroy => do
    let _ ← vmMapCopy env turns m srcMap dstAddr len srcAddr dstAlloc srcDestroy

/-- The calls after which the locks are as before. -/
def GivesBack (w : World E O M) (m : M) : LockCall M → Prop
  | protect va sz _ newProt => ∀ map, w.maps m = some map →
    ¬ map.MeetsSubMap (pageRegion va sz).1 (pageRegion va sz).2 newProt
  | notpageable .. => ¬ ((w.held m).recursive = true ∧ (w.held m).depth = 0)
  | _ => True

end LockCall

variable [DecidableEq E] [DecidableEq O] [LinearOrder M] {w : World E O M}

omit [DecidableEq E] [DecidableEq O] [LinearOrder M] in
theorem ensures_unit {α : Type} {x : Space E O M α} {Q : World E O M → Prop}
    (hx : Ensures x (fun _ ↦ Q) w) : Ensures (do let _ ← x) (fun _ ↦ Q) w :=
  Ensures.bind hx fun _ _ h ↦ Ensures.pure_iff.2 h

/-- What a call does to the locks. -/
theorem LockCall.ensures_held {env : Env E O M} (hcreate : VmMap.Fresh env.create)
    (hcopies : env.CopiesObjects) (hmaps : ∀ m map, w.maps m = some map → map.Wellformed)
    (hstraight : AllEntries Straight w.maps) (hplain : ∀ m, (w.held m).Plain) (m : M)
    (call : LockCall M) :
    Ensures (call.run env m) (fun _ w' ↦ w'.held = w.held ↔ call.GivesBack w m) w := by
  have hquiet : ∀ {α : Type} {J : Maps E O M → Prop} {x : Space E O M α},
      Takes J w.held x (fun _ ↦ w.held) → J w.maps →
        Ensures x (fun _ w' ↦ w'.held = w.held ↔ True) w :=
    fun hx hJ ↦ (hx w hJ rfl).mono fun _ _ hw' ↦ iff_of_true hw'.2 trivial
  cases call with
  | submap start endAddr subMap =>
    exact ensures_unit (hquiet (takes_vmMapSubmap env (hplain m) start endAddr subMap) trivial)
  | inheritance va sz newInheritance =>
    exact ensures_unit (hquiet (takes_vmspaceInherit env (hplain m) va sz newInheritance) trivial)
  | pageable va sz => exact hquiet (takes_vmspacePageable env (hplain m) va sz) trivial
  | allocate va sz anywhere =>
    exact ensures_unit (hquiet (takes_vmspaceAllocate env (hplain m) va sz anywhere) trivial)
  | delete va sz => exact hquiet (takes_vmspaceDelete env (hplain m) va sz) trivial
  | activate turns va sz =>
    exact ensures_unit (hquiet (takes_vmspaceActivate env hplain turns va sz) hstraight)
  | copy turns srcMap dstAddr len srcAddr dstAlloc srcDestroy =>
    exact ensures_unit (hquiet (takes_vmMapCopy hcopies turns m srcMap dstAddr len srcAddr dstAlloc
      srcDestroy hplain) hstraight)
  | notpageable turns va sz =>
    refine (takes_vmspaceNotpageable env hplain turns va sz w hstraight rfl).mono fun _ w' hw' ↦ ?_
    have hsame : setHold w.held m (w.held m).unwired = w.held ↔ (w.held m).unwired = w.held m := by
      constructor
      · intro heq
        exact (setHold_same w.held m _).symm.trans (congrFun heq m)
      · intro heq
        rw [heq, setHold_self]
    rw [hw'.2, hsame]
    exact Hold.unwired_eq_iff (hplain m)
  | protect va sz setMax newProt =>
    refine ensures_unit ?_
    rcases Option.eq_none_or_eq_some (w.maps m) with hnone | ⟨map, hm⟩
    · have hfails : ∀ start endAddr, Ensures (lockClipStart env m start endAddr)
        (fun _ _ ↦ False) w := by
        intro start endAddr
        refine Ensures.bind (ensures_onHold m _ w) fun _ w₁ hlock ↦ ?_
        obtain ⟨hold, -, rfl⟩ := hlock
        exact Ensures.bind (ensures_getMap m _) fun map _ hmap ↦
          absurd (hnone.symm.trans hmap.1) (by simp)
      exact Ensures.bind (hfails _ _) fun _ _ hfalse ↦ absurd hfalse id
    · refine (ensures_vmspaceProtect_held hcreate hm (hmaps m map hm) hplain va sz setMax
        newProt).mono fun _ w' hw' ↦ hw'.trans ⟨fun hnot map' hm' ↦ ?_, fun hall ↦ hall map hm⟩
      obtain rfl : map = map' := Option.some.inj (hm.symm.trans hm')
      exact hnot

/-- A call changes no lock exactly if it gives back what it takes. A lookup that fails keeps no
lock, and one that succeeds keeps those that `vm_map_lookup_done` releases. -/
theorem map_locks_balanced {env : Env E O M} (hcreate : VmMap.Fresh env.create)
    (hcopies : env.CopiesObjects) (hmaps : ∀ m map, w.maps m = some map → map.Wellformed)
    (hstraight : AllEntries Straight w.maps) (hplain : ∀ m, (w.held m).Plain) :
    (∀ m (call : LockCall M) w', call.run env m w = .ok ((), w') →
      (w'.held = w.held ↔ call.GivesBack w m)) ∧
    ∀ turns m vaddr faultType found w', vmMapLookup env turns m vaddr faultType w =
      .ok (found, w') →
      (∀ result, found = .error result → w'.held = w.held) ∧
        ∀ f, found = .ok f →
          vmMapLookupDone f.map f.entry w' = .ok ((), { w' with held := w.held }) := by
  refine ⟨fun m call w' hok ↦ ?_, fun turns m vaddr faultType found w' hok ↦ ?_⟩
  · exact LockCall.ensures_held hcreate hcopies hmaps hstraight hplain m call () w' hok
  · have hlooked := ensures_vmMapLookup env (fun m ↦ (hplain m).2) turns m vaddr faultType w
      hstraight
      rfl found w' hok
    refine ⟨fun result hresult ↦ ?_, fun f hfound ↦ ?_⟩
    · subst hresult
      exact hlooked.2
    · subst hfound
      exact Retains.done hlooked.2

/-! ## A submap -/

/-- Memory for an entry that is above all in use. -/
def newMemory (used : List ℕ) : MapEntry ℕ (Ref ℕ ℕ) :=
  { VmMap.above used with object := none }

theorem newMemory_fresh : VmMap.Fresh newMemory := fun used ↦ VmMap.above_fresh used

/-- Nothing is shared, and every object is the first. -/
def plainEnv : Env ℕ ℕ ℕ where
  create := newMemory
  coalesce := fun _ _ _ _ _ _ ↦ false
  mapCreate := fun _ ↦ 9
  objectAllocate := fun _ ↦ 0
  objectCopy := fun _ _ offset ↦ (some (.object 0), offset, false)
  uninitialised := .success

/-- Two pages, of an object or of the submap 1. -/
def twoPages (object : Ref ℕ ℕ) (isSubMap : Bool) : VmMap ℕ (Ref ℕ ℕ) where
  minOffset := 0
  maxOffset := 65536
  entries := [{ newMemory [] with
    start := 4096, endAddr := 12288, object := some object, isSubMap
    protection := 7, maxProtection := 7, inheritance := 1 }]
  nentries := 1
  size := 8192
  isMainMap := true
  hint := none
  firstFree := none

/-- A world with this map alone. -/
def worldOf (map : VmMap ℕ (Ref ℕ ℕ)) : World ℕ ℕ ℕ where
  maps := fun m ↦ if m = 0 then some map else none
  held := fun _ ↦ .free
  choices := []
  protects := []

theorem wellformed_twoPages (object : Ref ℕ ℕ) (isSubMap : Bool) :
    (twoPages object isSubMap).Wellformed := by
  refine ⟨⟨?_, ?_⟩, ?_, ?_, rfl, ?_, ?_⟩
  · simp [twoPages]
  · simp [twoPages]
  · simp [twoPages]
  · simp [twoPages]
  · exact VmMap.live_none
  · exact VmMap.live_none

/-- The protection of two pages of an object is changed, and the map is unlocked again. -/
theorem map_locks_balanced_protected : ∃ w', (LockCall.protect 4096 8192 false 1).run plainEnv 0
      (worldOf (twoPages (.object 0) false)) = .ok ((), w') ∧
    w'.held = (worldOf (twoPages (.object 0) false)).held := by
  obtain ⟨w', hok⟩ : ∃ w', (LockCall.protect 4096 8192 false 1).run plainEnv 0
      (worldOf (twoPages (.object 0) false)) = .ok ((), w') := ⟨_, rfl⟩
  have hmaps : ∀ m map, (worldOf (twoPages (.object 0) false)).maps m = some map →
      map = twoPages (.object 0) false := by
    intro m map hm
    unfold worldOf at hm
    dsimp only at hm
    split_ifs at hm
    exact (Option.some.inj hm).symm
  have hstraight : AllEntries Straight (worldOf (twoPages (.object 0) false)).maps := by
    intro m map hm e he
    rw [hmaps m map hm] at he
    rw [List.mem_singleton.1 he]
    exact fun heq ↦ by cases heq
  refine ⟨w', hok, ?_⟩
  have hiff := (map_locks_balanced newMemory_fresh (fun _ _ _ _ heq ↦ by cases heq)
    (fun m map hm ↦ hmaps m map hm ▸ wellformed_twoPages _ _) hstraight
    (fun _ ↦ ⟨rfl, fun _ ↦ rfl⟩)).1 0 (.protect 4096 8192 false 1) w' hok
  refine hiff.2 fun map hm ↦ ?_
  rw [hmaps 0 map hm]
  rintro ⟨e, he, -⟩
  have hnone : (twoPages (.object 0) false).firstRefused (pageRegion 4096 8192).1
      (pageRegion 4096 8192).2 1 = none := by decide
  exact absurd (hnone.symm.trans he) (by simp)

/-- On a submap `vmspace_protect` fails, and the map stays locked. -/
theorem vmspaceProtect_keeps_lock : ∃ w', vmspaceProtect plainEnv 0 4096 8192 false 1
      (worldOf (twoPages (.map 1) true)) = .ok (.invalidArgument, w') ∧
    w'.held 0 ≠ (worldOf (twoPages (.map 1) true)).held 0 :=
  ⟨_, rfl, by decide⟩

end Bsd386.Kern.Vm

/-!
# A virtual copy that fails

`vm_map_copy` makes its checks before it changes a map, so a call that fails would have no effect.
But `src_destroy` is obeyed at the end of all calls but those that overflow, whether they have
succeeded or not.
-/

namespace Bsd386.Kern.Vm

variable {E O M : Type}

/-- What the addresses of a map are mapped to. -/
def contents (maps : Maps E O M) (m : M) : Option (VmOffset → Option (Mapping (Ref O M))) :=
  (maps m).map fun map ↦ denote map.entries

/-- The later maps are well formed, and map every address as before. -/
def SameContents (before after : Maps E O M) : Prop :=
  (∀ m map, after m = some map → map.Wellformed) ∧ contents after = contents before

theorem SameContents.putMap [DecidableEq M] {before after : Maps E O M}
    (h : SameContents before after) {m : M} {map map' : VmMap E (Ref O M)}
    (hm : after m = some map) (hmap' : map'.Wellformed)
    (hdenote : denote map'.entries = denote map.entries) :
    SameContents before (putMap after m map') := by
  refine ⟨fun n map'' hn ↦ ?_, ?_⟩
  · unfold Vm.putMap at hn
    split_ifs at hn
    · cases hn
      exact hmap'
    · exact h.1 n map'' hn
  · rw [← h.2]
    funext n
    unfold contents Vm.putMap
    split_ifs with hnm
    · rw [hnm, hm, Option.map_some, Option.map_some, hdenote]
    · rfl

/-- Nothing is mapped in the source of a copy. -/
def SourceEmpty (maps : Maps E O M) (srcMap : M) (srcAddr len : VmOffset) : Prop :=
  ∀ map, maps srcMap = some map → ∀ x, srcAddr ≤ x → x < srcAddr + len → denote map.entries x = none

open Space

namespace Space

variable [DecidableEq E] [LinearOrder M] {w : World E O M} {before : Maps E O M}

theorem quiet_checkProtection_contents (m : M) (start endAddr : VmOffset) (protection : ℕ) :
    Quiet (SameContents before)
      (onMap m fun map ↦ map.vmMapCheckProtection start endAddr protection :
        Space E O M Bool) := by
  refine quiet_onMap fun maps map granted map' hsame hm hok ↦ ?_
  have h := hsame.1 m map hm
  obtain ⟨granted', hint, hcheck, hlive, -⟩ := h.vmMapCheckProtection start endAddr protection
  obtain ⟨-, rfl⟩ := Prod.ext_iff.1 (Except.ok.inj (hcheck.symm.trans hok))
  exact hsame.putMap hm ⟨h.inOrder, h.inside, h.nodup, h.nentries_eq, hlive, h.firstFree_live⟩ rfl

/-- The checks change nothing if they fail. -/
theorem ensures_copyChecks_failed {env : Env E O M} (hcreate : VmMap.Fresh env.create)
    {dstMap srcMap : M} (dstAddr dstEnd srcAddr srcEnd : VmOffset) (dstAlloc : Bool)
    (hsame : SameContents before w.maps) :
    Ensures (copyChecks env dstMap srcMap dstAddr dstEnd srcAddr srcEnd dstAlloc)
      (fun result w' ↦ result ≠ .success → SameContents before w'.maps) w := by
  have hfails : ∀ {w : World E O M} (result : KernReturn), SameContents before w.maps →
      Ensures (pure result : Space E O M KernReturn)
        (fun result w' ↦ result ≠ .success → SameContents before w'.maps) w :=
    fun _ h ↦ Ensures.pure_iff.2 fun _ ↦ h
  have hcheck := fun m start endAddr protection (w : World E O M)
      (hsame : SameContents before w.maps) ↦
    quiet_checkProtection_contents m start endAddr protection w.held w hsame rfl
  refine Ensures.bind (quiet_getMap srcMap w.held w hsame rfl) fun src w₁ h₁ ↦
    Ensures.bind (quiet_getMap dstMap w₁.held w₁ h₁.1 rfl) fun dst w₂ h₂ ↦
      Ensures.ite_iff.2 ⟨fun _ ↦ ?_, fun _ ↦ hfails _ h₂.1⟩
  refine Ensures.bind (hcheck srcMap srcAddr srcEnd vmProtRead w₂ h₂.1) fun granted w₃ h₃ ↦
    Ensures.ite_iff.2 ⟨fun _ ↦ Ensures.ite_iff.2 ⟨fun _ ↦ ?_, fun _ ↦ ?_⟩, fun _ ↦ hfails _ h₃.1⟩
  · refine (ensures_onMap dstMap _ w₃).mono fun result w₄ hinsert hresult ↦ ?_
    obtain ⟨map, map', hm, hok, rfl⟩ := hinsert
    obtain ⟨result', l, n, size, hint, firstFree, hinsert, hmap', hcase⟩ :=
      (h₃.1.1 dstMap map hm).vmMapInsert hcreate env.coalesce none 0 dstAddr dstEnd
    obtain ⟨rfl, rfl⟩ := Prod.ext_iff.1 (Except.ok.inj (hinsert.symm.trans hok))
    rcases hcase with hsuccess | ⟨-, rfl, -⟩
    · exact absurd hsuccess.1 hresult
    · exact h₃.1.putMap hm hmap' rfl
  · exact Ensures.bind (hcheck dstMap dstAddr dstEnd vmProtWrite w₃ h₃.1) fun granted w₄ h₄ ↦
      Ensures.ite_iff.2 ⟨fun _ ↦ hfails _ h₄.1, fun _ ↦ hfails _ h₄.1⟩

omit [DecidableEq E] in
theorem ensures_unlockBoth_maps (dstMap srcMap : M) (w : World E O M) :
    Ensures (unlockBoth dstMap srcMap) (fun _ w' ↦ w'.maps = w.maps) w := by
  have hunlock : ∀ (m : M) (w : World E O M),
      Ensures (vmMapUnlock m) (fun _ w' ↦ w'.maps = w.maps) w := by
    intro m w
    refine (ensures_onHold m _ w).mono fun _ w' hw' ↦ ?_
    obtain ⟨h, -, rfl⟩ := hw'
    rfl
  refine Ensures.bind (hunlock srcMap w) fun _ w₁ h₁ ↦ Ensures.ite_iff.2 ⟨fun _ ↦ ?_, fun _ ↦ ?_⟩
  · exact (hunlock dstMap w₁).mono fun _ w₂ h₂ ↦ h₂.trans h₁
  · exact Ensures.pure_iff.2 h₁

theorem ensures_copyReturn_result (env : Env E O M) (dstMap srcMap : M)
    (srcAddr srcEnd : VmOffset) (srcDestroy : Bool) (result : KernReturn) (w : World E O M) :
    Ensures (copyReturn env dstMap srcMap srcAddr srcEnd srcDestroy result)
      (fun result' _ ↦ result' = result) w := by
  have hend : ∀ w : World E O M, Ensures (do
      unlockBoth dstMap srcMap
      return result) (fun result' _ ↦ result' = result) w := fun w ↦
    Ensures.bind .any fun _ _ _ ↦ Ensures.pure_iff.2 rfl
  exact Ensures.ite_iff.2 ⟨fun _ ↦ Ensures.bind .any fun _ w₁ _ ↦ hend w₁, fun _ ↦ hend w⟩

/-- The end of a copy has an effect exactly if there is something to destroy in the source. -/
theorem ensures_copyReturn_contents {env : Env E O M} (hcreate : VmMap.Fresh env.create)
    (dstMap srcMap : M) (srcAddr len : VmOffset) (srcDestroy : Bool) (result : KernReturn)
    (hsame : SameContents before w.maps) :
    Ensures (copyReturn env dstMap srcMap srcAddr (srcAddr + len) srcDestroy result)
      (fun _ w' ↦ (∀ m, m ≠ srcMap → contents w'.maps m = contents before m) ∧
        (contents w'.maps srcMap = contents before srcMap ↔
          srcDestroy = false ∨ SourceEmpty before srcMap srcAddr len)) w := by
  have hend : ∀ w : World E O M, Ensures (do
      unlockBoth dstMap srcMap
      return result) (fun _ w' ↦ w'.maps = w.maps) w := fun w ↦
    Ensures.bind (ensures_unlockBoth_maps dstMap srcMap w) fun _ w' hw' ↦ Ensures.pure_iff.2 hw'
  refine Ensures.ite_iff.2 ⟨fun hdestroy ↦ ?_, fun hkeep ↦ ?_⟩
  · refine Ensures.bind (ensures_onMap srcMap _ w) fun _ w₁ hdelete ↦ ?_
    obtain ⟨map, map', hm, hok, rfl⟩ := hdelete
    obtain ⟨map₁, hok₁, hok⟩ := exists_of_bind_ok hok
    cases hok
    obtain ⟨l, n, size, hint, firstFree, hdelete, -, -, -, hdenote⟩ :=
      (hsame.1 srcMap map hm).vmMapDelete hcreate srcAddr (srcAddr + len)
    obtain rfl := Except.ok.inj (hdelete.symm.trans hok₁)
    obtain ⟨old, hold, hcontents⟩ : ∃ old, before srcMap = some old ∧
        denote old.entries = denote map.entries := by
      have hsrc : contents before srcMap = some (denote map.entries) := by
        rw [← hsame.2, contents, hm, Option.map_some]
      exact Option.map_eq_some_iff.1 hsrc
    refine (hend _).mono fun _ w₂ hw₂ ↦ ?_
    rw [hw₂]
    refine ⟨fun m hne ↦ ?_, ?_⟩
    · rw [← hsame.2]
      exact congrArg (Option.map _) (if_neg hne)
    · have hsrc : contents (putMap w.maps srcMap { map with
          nentries := n, entries := l, size, hint, firstFree }) srcMap = some (denote l) :=
        congrArg (Option.map _) (if_pos rfl)
      have hbefore : contents before srcMap = some (denote old.entries) :=
        congrArg (Option.map _) hold
      rw [hsrc, hbefore, hcontents, Option.some_inj]
      constructor
      · refine fun heq ↦ .inr fun old' hold' x hlo hhi ↦ ?_
        obtain rfl : old = old' := Option.some.inj (hold.symm.trans hold')
        rw [hcontents, ← congrFun heq x, hdenote x, if_pos ⟨hlo, hhi⟩]
      · rintro (hfalse | hempty)
        · exact absurd (hfalse.symm.trans hdestroy) (by simp)
        · funext x
          rw [hdenote x]
          split_ifs with hx
          · rw [← hcontents]
            exact (hempty old hold x hx.1 hx.2).symm
          · rfl
  · refine (hend w).mono fun _ w' hw' ↦ ?_
    rw [hw', hsame.2]
    exact ⟨fun _ _ ↦ rfl, iff_of_true rfl (.inl (Bool.eq_false_iff.2 hkeep))⟩

end Space

variable [DecidableEq E] [LinearOrder M] {w : World E O M}

/-- The calls of `vm_map_copy` that have no effect when they fail. -/
def HarmlessFailure (w : World E O M) (srcMap : M) (dstAddr len srcAddr : VmOffset)
    (srcDestroy : Bool) : Prop :=
  (dstAddr + len < dstAddr ∨ srcAddr + len < srcAddr) ∨ srcDestroy = false ∨
    SourceEmpty w.maps srcMap srcAddr len

/-- A call of `vm_map_copy` that fails leaves both maps as they were exactly if it overflows or has
nothing to destroy. -/
theorem vm_map_copy_failed {env : Env E O M} (hcreate : VmMap.Fresh env.create)
    (hmaps : ∀ m map, w.maps m = some map → map.Wellformed) {turns : ℕ} {dstMap srcMap : M}
    {dstAddr len srcAddr : VmOffset} {dstAlloc srcDestroy : Bool} {result : KernReturn}
    {w' : World E O M}
    (hok : vmMapCopy env turns dstMap srcMap dstAddr len srcAddr dstAlloc srcDestroy w =
      .ok (result, w')) (hfailed : result ≠ .success) :
    (contents w'.maps dstMap = contents w.maps dstMap ∧
      contents w'.maps srcMap = contents w.maps srcMap) ↔
        HarmlessFailure w srcMap dstAddr len srcAddr srcDestroy := by
  have hspec : Ensures (vmMapCopy env turns dstMap srcMap dstAddr len srcAddr dstAlloc srcDestroy)
      (fun result w' ↦ result ≠ .success → ((contents w'.maps dstMap = contents w.maps dstMap ∧
        contents w'.maps srcMap = contents w.maps srcMap) ↔
          HarmlessFailure w srcMap dstAddr len srcAddr srcDestroy)) w := by
    cases turns with
    | zero =>
      unfold vmMapCopy
      exact Ensures.throw_iff.2 trivial
    | succ turns =>
      unfold vmMapCopy
      refine Ensures.ite_iff.2 ⟨fun hoverflow ↦ Ensures.pure_iff.2 fun _ ↦
        iff_of_true ⟨rfl, rfl⟩ (.inl hoverflow), fun hfits ↦ ?_⟩
      have hsame : SameContents w.maps w.maps := ⟨hmaps, rfl⟩
      refine Ensures.bind (takes_lockBoth dstMap srcMap w hsame rfl) fun _ w₁ h₁ ↦
        Ensures.bind (ensures_copyChecks_failed hcreate _ _ _ _ _ h₁.1) fun result w₂ h₂ ↦
          Ensures.ite_iff.2 ⟨fun hne ↦ ?_, fun _ ↦ Ensures.bind .any fun _ w₃ _ ↦ ?_⟩
      · refine (ensures_copyReturn_contents hcreate dstMap srcMap srcAddr len srcDestroy result
          (h₂ hne)).mono fun _ w₃ h₃ _ ↦ ?_
        obtain ⟨hothers, hsrc⟩ := h₃
        unfold HarmlessFailure
        rw [← hsrc]
        constructor
        · exact fun hboth ↦ .inr hboth.2
        · rintro (hoverflow | hsrc)
          · exact absurd hoverflow hfits
          · refine ⟨?_, hsrc⟩
            by_cases hdst : dstMap = srcMap
            · rw [hdst, hsrc]
            · exact hothers dstMap hdst
      · exact (ensures_copyReturn_result env dstMap srcMap _ _ _ _ w₃).mono
          fun _ _ heq hne ↦ absurd heq hne
  exact hspec result w' hok hfailed

/-- Two pages in the map 0, and nothing in the map 1. -/
def pagesAndNothing : World ℕ ℕ ℕ :=
  { worldOf (twoPages (.object 0) false) with
    maps := fun m ↦
      if m = 0 then some (twoPages (.object 0) false)
      else if m = 1 then some (vmMapInit 0 65536)
      else none }

/-- The pages cannot be copied to where nothing is mapped. Nothing happens. -/
theorem vm_map_copy_failed_kept : ∃ w',
    vmMapCopy plainEnv 8 1 0 4096 8192 4096 false false pagesAndNothing =
      .ok (.protectionFailure, w') ∧
    contents w'.maps 1 = contents pagesAndNothing.maps 1 ∧
      contents w'.maps 0 = contents pagesAndNothing.maps 0 := by
  obtain ⟨w', hok⟩ : ∃ w', vmMapCopy plainEnv 8 1 0 4096 8192 4096 false false pagesAndNothing =
      .ok (.protectionFailure, w') := ⟨_, rfl⟩
  have hmaps : ∀ m map, pagesAndNothing.maps m = some map → map.Wellformed := by
    intro m map hm
    unfold pagesAndNothing at hm
    dsimp only at hm
    split_ifs at hm
    · rw [← Option.some.inj hm]
      exact wellformed_twoPages _ _
    · rw [← Option.some.inj hm]
      exact VmMap.wellformed_init _ _
  exact ⟨w', hok, (vm_map_copy_failed newMemory_fresh hmaps hok (by decide)).2 (.inr (.inl rfl))⟩

/-- With `src_destroy` the call fails in the same way, and the pages are gone. -/
theorem vmMapCopy_destroys : ∃ w',
    vmMapCopy plainEnv 8 1 0 4096 8192 4096 false true pagesAndNothing =
      .ok (.protectionFailure, w') ∧
    contents w'.maps 0 ≠ contents pagesAndNothing.maps 0 := by
  refine ⟨_, rfl, fun heq ↦ ?_⟩
  have hmapped := congrArg (fun c ↦ (c.bind fun f ↦ f 4096).isSome) heq
  exact absurd hmapped (by decide)

end Bsd386.Kern.Vm
