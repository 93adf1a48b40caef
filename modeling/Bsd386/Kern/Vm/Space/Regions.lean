import Bsd386.Kern.Vm.Space.Balance
import Mathlib.Data.List.Find

/-!
# Locks of the functions on a region

The functions that lock a map, work on the entries of a region of it, and unlock it again.
-/

namespace Bsd386.Kern.Vm

variable {E O M : Type} {h : Hold}

namespace Hold

theorem Plain.addWrite (hplain : h.Plain) : h.addWrite.Plain := by
  obtain ⟨reads, writes, depth, recursive⟩ := h
  obtain ⟨rfl, hdepth⟩ := hplain
  cases recursive with
  | false => exact ⟨rfl, hdepth⟩
  | true => exact ⟨rfl, fun hfalse ↦ by cases hfalse⟩

theorem Plain.recursed (hplain : h.Plain) : Plain { h with recursive := true } :=
  ⟨hplain.1, fun hfalse ↦ by cases hfalse⟩

/-- The holds while `vmspace_notpageable` wires pages: shared and recursive. -/
def wiring (h : Hold) : Hold := { h.addRead with recursive := true }

theorem lockWriteToRead_recursed (hplain : h.Plain) :
    lockWriteToRead { h.addWrite with recursive := true } = h.wiring := by
  obtain ⟨reads, writes, depth, recursive⟩ := h
  obtain ⟨rfl, hdepth⟩ := hplain
  cases recursive with
  | false =>
    simp [addWrite, addRead, lockWriteToRead, releaseWrite, wiring, show depth = 0 from hdepth rfl]
  | true => simp [addWrite, addRead, lockWriteToRead, releaseWrite, wiring]

/-- Recursion that was there before is lost, unless it has been used. -/
def unwired (h : Hold) : Hold := if h.depth = 0 then { h with recursive := false } else h

theorem lockClearRecursive_wiring (hplain : h.Plain) {h' : Hold}
    (hok : h.wiring.lockClearRecursive = .ok h') : h' = h.unwired.addRead := by
  obtain ⟨reads, writes, depth, recursive⟩ := h
  obtain ⟨rfl, hzero⟩ := hplain
  by_cases hdepth : depth = 0
  · simpa [lockClearRecursive, wiring, addRead, unwired, hdepth] using hok.symm
  · cases recursive with
    | false => exact absurd (hzero rfl) hdepth
    | true => simpa [lockClearRecursive, wiring, addRead, unwired, hdepth] using hok.symm

theorem unwired_eq_iff (hplain : h.Plain) :
    h.unwired = h ↔ ¬ (h.recursive = true ∧ h.depth = 0) := by
  obtain ⟨reads, writes, depth, recursive⟩ := h
  unfold unwired
  by_cases hdepth : depth = 0
  · simp [hdepth]
  · simp [hdepth]

end Hold

namespace Space

variable [DecidableEq E] [LinearOrder M] {α : Type} {J : Maps E O M → Prop} {H : M → Hold}
  {p : M → MapEntry E (Ref O M) → Prop}

omit [DecidableEq E] in
theorem plain_locked (hplain : ∀ n, (H n).Plain) (m n : M) : (locked H m n).Plain := by
  unfold locked setHold
  split_ifs
  · exact (hplain m).addWrite
  · exact hplain n

omit [DecidableEq E] in
theorem plain_recursed (hplain : ∀ n, (H n).Plain) (m n : M) : (recursed H m n).Plain := by
  unfold recursed setHold
  split_ifs
  · exact (hplain m).recursed
  · exact hplain n

/-- Nothing is asked of the maps. -/
abbrev anyMaps : Maps E O M → Prop := fun _ ↦ True

omit [DecidableEq E] in
theorem quiet_onMap_any {m : M}
    {g : VmMap E (Ref O M) → Except Fault (α × VmMap E (Ref O M))} :
    Quiet anyMaps (onMap m g) :=
  quiet_onMap fun _ _ _ _ _ _ _ ↦ trivial

theorem quiet_modifyEntry_any (m : M) (id : E)
    (edit : MapEntry E (Ref O M) → MapEntry E (Ref O M)) :
    Quiet anyMaps (modifyEntry m id edit : Space E O M Unit) :=
  quiet_modifyEntry_of fun _ _ _ _ ↦ trivial

theorem takes_lockClipStart_any (env : Env E O M) (m : M) (start endAddr : VmOffset) :
    Takes anyMaps H (lockClipStart env m start endAddr) fun _ ↦ locked H m :=
  Takes.bind (takes_vmMapLock m) fun _ ↦ quiet_onMap_any _

theorem takes_lockClipStart (env : Env E O M) {m : M} (hq : Uniform (p m))
    (start endAddr : VmOffset) :
    Takes (AllEntries p) H (lockClipStart env m start endAddr) fun _ ↦ locked H m := by
  refine Takes.bind (takes_vmMapLock m) fun _ ↦ quiet_onMap (fun maps map a map' hp hm hok ↦ ?_) _
  obtain ⟨b, hclip, hok⟩ := exists_of_bind_ok hok
  cases hok
  exact hp.putMap ((hp m map hm).lockClipStart hq hclip)

variable {m : M}

theorem takes_vmMapSubmap (env : Env E O M) (hplain : (H m).Plain) (start endAddr : VmOffset)
    (submap : M) :
    Takes anyMaps H (vmMapSubmap env m start endAddr submap) fun _ ↦ H :=
  Takes.bind (takes_vmMapLock m) fun _ ↦ Takes.bind (quiet_onMap_any _) fun _ ↦
    Takes.bind (takes_vmMapUnlock hplain) fun _ ↦ Takes.pure rfl

theorem takes_vmspaceInherit (env : Env E O M) (hplain : (H m).Plain) (va sz : VmOffset)
    (newInheritance : ℕ) :
    Takes anyMaps H (vmspaceInherit env m va sz newInheritance) fun _ ↦ H := by
  refine Takes.ite (fun _ ↦ ?_) fun _ ↦ Takes.pure rfl
  refine Takes.bind (takes_lockClipStart_any env m _ _) fun region ↦
    Takes.bind (quiet_turnsOf m _) fun turns ↦ Takes.bind (Takes.loopent m _ (fun id ↦ ?_) _ _)
      fun _ ↦ Takes.bind (takes_vmMapUnlock hplain) fun _ ↦ Takes.pure rfl
  exact Takes.bind (quiet_onMap_any _) fun _ ↦ Takes.bind (quiet_modifyEntry_any m id _ _)
    fun _ ↦ Takes.pure rfl

theorem takes_vmspaceDelete (env : Env E O M) (hplain : (H m).Plain) (va sz : VmOffset) :
    Takes anyMaps H (vmspaceDelete env m va sz) fun _ ↦ H :=
  Takes.bind (takes_vmMapLock m) fun _ ↦ Takes.bind (quiet_onMap_any _) fun _ ↦
    takes_vmMapUnlock hplain

theorem takes_vmspaceAllocate (env : Env E O M) (hplain : (H m).Plain) (va sz : VmOffset)
    (anywhere : Bool) :
    Takes anyMaps H (vmspaceAllocate env m va sz anywhere) fun _ ↦ H := by
  have hinsert : ∀ va : VmOffset, Takes anyMaps (locked H m) (do
      let result ← onMap m fun map ↦
        map.vmMapInsert env.create env.coalesce none 0 va (roundPage (va + sz - oneByte))
      vmMapUnlock m
      return (result, va) : Space E O M (KernReturn × VmOffset)) fun _ ↦ H := fun va ↦
    Takes.bind (quiet_onMap_any _) fun _ ↦ Takes.bind (takes_vmMapUnlock hplain) fun _ ↦
      Takes.pure rfl
  refine Takes.bind (quiet_choose H) fun _ ↦ Takes.ite (fun _ ↦ Takes.pure rfl) fun _ ↦
    Takes.ite (fun _ ↦ Takes.pure rfl) fun _ ↦ Takes.bind (takes_vmMapLock m) fun _ ↦
      Takes.ite (fun _ ↦ ?_) fun _ ↦ hinsert _
  refine Takes.bind (quiet_getMap m _) fun _ ↦ Takes.bind (quiet_onMap_any _) fun result ↦
    Takes.ite (fun _ ↦ ?_) fun _ ↦ hinsert _
  exact Takes.bind (takes_vmMapUnlock hplain) fun _ ↦ Takes.pure rfl

theorem takes_vmspacePageable [DecidableEq O] (env : Env E O M) (hplain : (H m).Plain)
    (va sz : VmOffset) :
    Takes anyMaps H (vmspacePageable env m va sz) fun _ ↦ H := by
  refine Takes.bind (takes_lockClipStart_any env m _ _) fun region ↦
    Takes.bind (quiet_turnsOf m _) fun turns ↦ Takes.bind (Takes.loopent m _ (fun id ↦ ?_) _ _)
      fun wired ↦ ?_
  · exact Takes.bind (quiet_entryOf m id _) fun _ ↦ Takes.pure rfl
  · have hend : Takes anyMaps (locked H m) (do
        vmMapSimplify m region.1
        vmMapUnlock m : Space E O M Unit) fun _ ↦ H :=
      Takes.bind (quiet_onMap_any _) fun _ ↦ takes_vmMapUnlock hplain
    cases wired with
    | some _ => exact hend
    | none =>
      refine Takes.bind (takes_lockSetRecursive m) fun _ ↦ Takes.bind (quiet_turnsOf m _) fun _ ↦
        Takes.bind (Takes.loopent m _ (fun id ↦ ?_) _ _) fun _ ↦
          Takes.bind (takes_lockClearRecursive (exclusive_locked hplain)) fun _ ↦ hend
      refine Takes.bind (quiet_onMap_any _) fun _ ↦ Takes.bind (quiet_modifyEntry_any m id _ _)
        fun _ ↦ Takes.bind (quiet_entryOf m id _) fun _ ↦ Takes.ite (fun _ ↦ ?_) fun _ ↦
          Takes.pure rfl
      exact Takes.bind (quiet_mayPanic _ _) fun _ ↦ Takes.pure rfl

/-! ## Regions whose pages are faulted in -/

theorem quiet_wireEntry (env : Env E O M) (m : M) (endAddr : VmOffset) (id : E) :
    Quiet (AllEntries Straight) (wireEntry env m endAddr id) := by
  have hobject : ∀ e : MapEntry E (Ref O M), ∀ (o : O) offset needsCopy,
      Straight m { e with object := some (.object o), offset, needsCopy } := by
    intro e o offset needsCopy heq
    cases heq
  refine Quiet.bind (quiet_vmMapClipEnd env (uniform_straight m) id endAddr) fun _ ↦
    Quiet.bind (quiet_modifyEntry id fun e he ↦ he) fun _ ↦
      Quiet.bind (quiet_entryOf m id) fun e ↦ Quiet.ite (fun _ ↦ ?_) fun _ ↦ Quiet.pure _
  refine Quiet.ite (fun _ ↦ ?_) fun _ ↦ Quiet.ite (fun _ ↦ ?_) fun _ ↦ Quiet.pure _
  · exact Quiet.bind (quiet_shadowEntry env id fun e o _ ↦ hobject e o 0 false) fun _ ↦ Quiet.pure _
  · exact Quiet.bind (quiet_allocateEntry env id fun e o _ ↦ hobject e o 0 e.needsCopy) fun _ ↦
      Quiet.pure _

variable [DecidableEq O]

/-- The lock of the map is as before, unless the process had set recursion before. -/
theorem takes_vmspaceNotpageable (env : Env E O M) (hplain : ∀ n, (H n).Plain) (turns : ℕ)
    (va sz : VmOffset) :
    Takes (AllEntries Straight) H (vmspaceNotpageable env turns m va sz)
      fun _ ↦ setHold H m (H m).unwired := by
  have hdepth : ∀ n, (setHold H m (H m).wiring n).recursive = false →
      (setHold H m (H m).wiring n).depth = 0 := by
    intro n
    unfold setHold
    split_ifs
    · intro hfalse
      cases hfalse
    · exact (hplain n).2
  have hread : Takes (AllEntries Straight) (recursed (locked H m) m)
      (lockWriteToRead m : Space E O M Unit) fun _ ↦ setHold H m (H m).wiring := by
    refine Takes.onHold fun a h hok ↦ ?_
    cases hok
    rw [recursed, locked, setHold_same, setHold_same, setHold_setHold, setHold_setHold,
      Hold.lockWriteToRead_recursed (hplain m)]
  have hclear : Takes (AllEntries Straight) (setHold H m (H m).wiring)
      (lockClearRecursive m : Space E O M Unit) fun _ ↦ shared (setHold H m (H m).unwired) m := by
    refine Takes.onHold fun a h hok ↦ ?_
    obtain ⟨h', hclear, hok⟩ := exists_of_bind_ok hok
    cases hok
    rw [setHold_same] at hclear
    rw [shared, setHold_same, setHold_setHold, setHold_setHold,
      Hold.lockClearRecursive_wiring (hplain m) hclear]
  refine Takes.bind (takes_lockClipStart env (uniform_straight m) _ _) fun region ↦
    Takes.bind (quiet_turnsOf m _) fun _ ↦
      Takes.bind (Takes.loopent m _ (fun id ↦ quiet_wireEntry env m _ id _) _ _) fun _ ↦
        Takes.bind (takes_lockSetRecursive m) fun _ ↦ Takes.bind hread fun _ ↦
          Takes.bind (quiet_turnsOf m _) fun _ ↦
            Takes.bind (Takes.loopent m _ (fun id ↦ ?_) _ _) fun _ ↦ Takes.bind hclear fun _ ↦
              Takes.bind (quiet_vmMapSimplify (uniform_straight m) _ _) fun _ ↦
                takes_vmMapUnlockRead m
  exact Takes.bind (quiet_entryOf m id _) fun e ↦ Takes.ite
    (fun _ ↦ Takes.bind (takes_vmFaultWire env hdepth m _ turns _) fun _ ↦ Takes.pure rfl)
    fun _ ↦ Takes.pure rfl

theorem takes_vmspaceActivate (env : Env E O M) (hplain : ∀ n, (H n).Plain) (turns : ℕ)
    (va sz : VmOffset) :
    Takes (AllEntries Straight) H (vmspaceActivate env turns m va sz) fun _ ↦ H := by
  have hdepth := fun n ↦ (plain_recursed (plain_locked hplain m) m n).2
  refine Takes.bind (takes_lockClipStart env (uniform_straight m) _ _) fun region ↦
    Takes.bind (takes_lockSetRecursive m) fun _ ↦ ?_
  have hrest : ∀ last : KernReturn, Takes (AllEntries Straight) (recursed (locked H m) m) (do
      let body := fun id ↦ do
        vmMapClipEnd env m id region.2.1
        let e ← entryOf m id
        activatePages env m e.maxProtection e.endAddr turns e.start
      let result ← loopent m region.2.1 body (← turnsOf m) region.2.2
      lockClearRecursive m
      vmMapUnlock m
      return result.getD last : Space E O M KernReturn) fun _ ↦ H := by
    intro last
    refine Takes.bind (quiet_turnsOf m _) fun _ ↦ Takes.bind (Takes.loopent m _ (fun id ↦ ?_) _ _)
      fun _ ↦ Takes.bind (takes_lockClearRecursive (exclusive_locked (hplain m))) fun _ ↦
        Takes.bind (takes_vmMapUnlock (hplain m)) fun _ ↦ Takes.pure rfl
    exact Takes.bind (quiet_vmMapClipEnd env (uniform_straight m) id _ _) fun _ ↦
      Takes.bind (quiet_entryOf m id _) fun e ↦ takes_activatePages env hdepth m _ _ turns _
  obtain ⟨start, endAddr, entry⟩ := region
  cases entry with
  | none => exact Takes.bind (Takes.pure rfl) hrest
  | some id =>
    exact Takes.bind (quiet_entryOf m id _) fun e ↦ Takes.bind (Takes.pure rfl) hrest

end Space

end Bsd386.Kern.Vm

/-!
# The checks of a protection change

`vmspace_protect` looks at the entries of the region before it changes one. It refuses a region with
a submap in it, or with an entry whose maximum protection is less than the new protection, whichever
comes first. After a submap it returns without unlocking the map.
-/

namespace Bsd386.Kern.Vm

variable {E O M : Type}

theorem find_takeWhile {α : Type} {p q : α → Bool} {l : List α}
    (hp : l.Pairwise fun a b ↦ p b → p a) :
    (l.takeWhile p).find? q = l.find? fun a ↦ p a && q a := by
  induction l with
  | nil => rfl
  | cons a l ih =>
    obtain ⟨ha, hl⟩ := List.pairwise_cons.1 hp
    by_cases hpa : p a
    · rw [List.takeWhile_cons_of_pos hpa, List.find?_cons, List.find?_cons, ih hl, hpa,
        Bool.true_and]
    · have hnone : l.find? (fun b ↦ p b && q b) = none := by
        rw [List.find?_eq_none]
        intro b hb hpb
        exact hpa (ha b hb (Bool.and_eq_true_iff.1 hpb).1)
      rw [List.takeWhile_cons_of_neg hpa, List.find?_cons_of_neg (by simp [hpa]), hnone]
      rfl

theorem map_find_cons {α β : Type} {p : α → Bool} {f : α → β} {a b : α} {l : List α}
    (hp : p a = p b) (hf : f a = f b) : ((a :: l).find? p).map f = ((b :: l).find? p).map f := by
  rw [List.find?_cons, List.find?_cons, hp]
  cases p b with
  | true => exact congrArg some hf
  | false => rfl

/-- The entry is a submap, or the protection is more than its maximum. -/
def MapEntry.Refuses (e : MapEntry E O) (newProt : ℕ) : Prop :=
  e.isSubMap ∨ newProt &&& e.maxProtection ≠ newProt

instance (e : MapEntry E O) (newProt : ℕ) : Decidable (e.Refuses newProt) :=
  inferInstanceAs (Decidable (_ ∨ _))

namespace VmMap

/-- The entry has addresses in the region. -/
def Meets (map : VmMap E O) (start endAddr : VmOffset) (e : MapEntry E O) : Prop :=
  max e.start (map.regionStart start endAddr) < min e.endAddr (min endAddr map.maxOffset)

instance (map : VmMap E O) (start endAddr : VmOffset) (e : MapEntry E O) :
    Decidable (map.Meets start endAddr e) :=
  inferInstanceAs (Decidable (_ < _))

/-- The first entry of the region that refuses the protection. -/
def firstRefused (map : VmMap E O) (start endAddr : VmOffset) (newProt : ℕ) :
    Option (MapEntry E O) :=
  map.entries.find? fun e ↦ map.Meets start endAddr e ∧ e.Refuses newProt

/-- The region has a submap in it, and nothing that is refused before. -/
def MeetsSubMap (map : VmMap E O) (start endAddr : VmOffset) (newProt : ℕ) : Prop :=
  ∃ e, map.firstRefused start endAddr newProt = some e ∧ e.isSubMap

variable {map : VmMap E O} {l₁ l₂ k₁ k₂ : List (MapEntry E O)} {start endAddr : VmOffset}

/-- The first entry of the region with some property, before and after the region is clipped. -/
theorem find_clipped {β : Type} {q : MapEntry E O → Prop} [DecidablePred q] {g : MapEntry E O → β}
    (hk : map.entries = k₁ ++ k₂) (hbelow : ∀ f ∈ k₁, f.endAddr ≤ map.regionStart start endAddr)
    (hclipped : ClippedAt (map.regionStart start endAddr) k₁ k₂ l₁ l₂)
    (hinOrder : InOrder l₂) (hstart : ∀ f ∈ l₂, map.regionStart start endAddr ≤ f.start)
    (hq : ∀ (e : MapEntry E O) address, q (e.back e.id address) ↔ q e)
    (hg : ∀ (e : MapEntry E O) address, g (e.back e.id address) = g e) :
    ((l₂.takeWhile (·.start < min endAddr map.maxOffset)).find? fun e ↦ q e).map g =
      (map.entries.find? fun e ↦ map.Meets start endAddr e ∧ q e).map g := by
  have hfront : k₁.find? (fun e ↦ map.Meets start endAddr e ∧ q e) = none := by
    rw [List.find?_eq_none]
    intro e he hmeets
    have hlt : map.Meets start endAddr e := (of_decide_eq_true hmeets).1
    exact absurd (hlt.trans_le ((min_le_left ..).trans (hbelow e he))) (not_lt.2 (le_max_right ..))
  have hordered : l₂.Pairwise fun e f ↦ decide (f.start < min endAddr map.maxOffset) →
      decide (e.start < min endAddr map.maxOffset) := by
    refine hinOrder.pairwise.imp_of_mem fun {e f} he _ hle hf ↦ ?_
    exact decide_eq_true ((hinOrder.nonempty e he).trans_le hle |>.trans (of_decide_eq_true hf))
  have hmeets : ∀ f : MapEntry E O, map.regionStart start endAddr ≤ f.start → f.start < f.endAddr →
      (map.Meets start endAddr f ↔ f.start < min endAddr map.maxOffset) := by
    intro f hle hlt
    unfold Meets
    rw [max_eq_left hle, lt_min_iff]
    exact ⟨fun hf ↦ hf.2, fun hf ↦ ⟨hlt, hf⟩⟩
  have hrest : ∀ l : List (MapEntry E O), (∀ f ∈ l, map.regionStart start endAddr ≤ f.start) →
      InOrder l → l.find? (fun f ↦ f.start < min endAddr map.maxOffset && q f) =
        l.find? fun f ↦ map.Meets start endAddr f ∧ q f := by
    intro l hl hlorder
    refine List.find?_congr fun f hf ↦ ?_
    rw [Bool.decide_and, decide_eq_decide.2 (hmeets f (hl f hf) (hlorder.nonempty f hf))]
  rw [find_takeWhile hordered, hrest l₂ hstart hinOrder, hk, List.find?_append, hfront,
    Option.none_or]
  rcases hclipped with ⟨-, rfl⟩ | ⟨e, rest, id, rfl, hlo, hhi, -, rfl⟩
  · rfl
  · have hmeets' : map.Meets start endAddr e ↔
        map.Meets start endAddr (e.back e.id (map.regionStart start endAddr)) := by
      unfold Meets MapEntry.back
      rw [max_eq_right hlo.le, max_self]
    exact map_find_cons (decide_eq_decide.2 (and_congr hmeets'.symm (hq e _))) (hg e _)

/-- The first refused entry of the region before and after it is clipped. -/
theorem firstRefused_clipped (hk : map.entries = k₁ ++ k₂)
    (hbelow : ∀ f ∈ k₁, f.endAddr ≤ map.regionStart start endAddr)
    (hclipped : ClippedAt (map.regionStart start endAddr) k₁ k₂ l₁ l₂)
    (hinOrder : InOrder l₂) (hstart : ∀ f ∈ l₂, map.regionStart start endAddr ≤ f.start)
    (newProt : ℕ) :
    ((l₂.takeWhile (·.start < min endAddr map.maxOffset)).find? (·.Refuses newProt)).map
        (·.isSubMap) =
      (map.firstRefused start endAddr newProt).map (·.isSubMap) :=
  find_clipped hk hbelow hclipped hinOrder hstart (fun _ _ ↦ Iff.rfl) fun _ _ ↦ rfl

end VmMap

namespace Space

variable [DecidableEq E] [LinearOrder M] {α : Type} {Q : α → World E O M → Prop} {w : World E O M}
  {m : M} {map : VmMap E (Ref O M)}

omit [DecidableEq E] in
theorem ensures_onHold (m : M) (g : Hold → Except Fault (α × Hold)) (w : World E O M) :
    Ensures (onHold m g)
      (fun a w' ↦ ∃ h, g (w.held m) = .ok (a, h) ∧ w' = { w with held := setHold w.held m h })
        w := by
  unfold onHold
  rw [Ensures.bind_iff, Ensures.get_iff, Ensures.bind_iff, Ensures.lift_iff]
  rintro ⟨a, h⟩ hok
  rw [Ensures.bind_iff, Ensures.modify_iff, Ensures.pure_iff]
  exact ⟨h, hok, rfl⟩

omit [DecidableEq E] in
theorem ensures_onMap (m : M) (g : VmMap E (Ref O M) → Except Fault (α × VmMap E (Ref O M)))
    (w : World E O M) :
    Ensures (onMap m g) (fun a w' ↦ ∃ map map', w.maps m = some map ∧ g map = .ok (a, map') ∧
      w' = { w with maps := putMap w.maps m map' }) w := by
  refine Ensures.bind (ensures_getMap m w) fun map w₁ hmap ↦ ?_
  obtain ⟨hm, rfl⟩ := hmap
  rw [Ensures.bind_iff, Ensures.lift_iff]
  rintro ⟨a, map'⟩ hok
  exact Ensures.bind_iff.2 (Ensures.modify_iff.2 (Ensures.pure_iff.2 ⟨map, map', hm, hok, rfl⟩))

/-- `VM_MAP_LOCK_CLIP_START` locks the map and clips it. -/
theorem ensures_lockClipStart {env : Env E O M} (hcreate : VmMap.Fresh env.create)
    (hm : w.maps m = some map) (h : map.Wellformed) (start endAddr : VmOffset) :
    Ensures (lockClipStart env m start endAddr) (fun region w' ↦ ∃ k₁ k₂ l₁ l₂ n hint,
      region = (map.regionStart start endAddr, min endAddr map.maxOffset, firstId l₂) ∧
        w' = { w with
          maps := putMap w.maps m { map with nentries := n, entries := l₁ ++ l₂, hint }
          held := locked w.held m } ∧
        VmMap.Wellformed { map with nentries := n, entries := l₁ ++ l₂, hint } ∧
          (∀ f ∈ l₂, map.regionStart start endAddr ≤ f.start) ∧ map.entries = k₁ ++ k₂ ∧
            (∀ f ∈ k₁, f.endAddr ≤ map.regionStart start endAddr) ∧
              VmMap.ClippedAt (map.regionStart start endAddr) k₁ k₂ l₁ l₂) w := by
  refine Ensures.bind (ensures_onHold m _ w) fun _ w₁ hlock ↦ ?_
  obtain ⟨hold, hok, rfl⟩ := hlock
  obtain ⟨hold', hlock, hok⟩ := exists_of_bind_ok hok
  cases hok
  refine (ensures_onMap m _ _).mono fun region w₂ hclip ↦ ?_
  obtain ⟨map₁, map', hm₁, hok, rfl⟩ := hclip
  obtain rfl : map = map₁ := Option.some.inj (hm.symm.trans hm₁)
  obtain ⟨l₁, l₂, n, hint, hclip, hmap, -, habove, -, k₁, k₂, hk, hbelow, -, hclipped⟩ :=
    h.lockClipStart hcreate start endAddr
  rw [hclip] at hok
  cases hok
  refine ⟨k₁, k₂, l₁, l₂, n, hint, rfl, ?_, hmap, habove, hk, hbelow, hclipped⟩
  rw [Hold.lockWrite_ok hlock]
  rfl

omit [LinearOrder M] in
theorem ensures_nextOf (hm : w.maps m = some map) (entry : Option E) :
    Ensures (nextOf m entry) (fun next w' ↦ next = map.next entry ∧ w' = w) w := by
  refine Ensures.bind (ensures_getMap m w) fun map₁ w₁ hmap ↦ ?_
  obtain ⟨hm₁, rfl⟩ := hmap
  obtain rfl : map = map₁ := Option.some.inj (hm.symm.trans hm₁)
  exact Ensures.pure_iff.2 ⟨rfl, rfl⟩

omit [DecidableEq E] [LinearOrder M] in
theorem ensures_turnsOf (hm : w.maps m = some map) :
    Ensures (turnsOf m) (fun turns w' ↦ turns = map.entries.length + 1 ∧ w' = w) w := by
  refine Ensures.bind (ensures_getMap m w) fun map₁ w₁ hmap ↦ ?_
  obtain ⟨hm₁, rfl⟩ := hmap
  obtain rfl : map = map₁ := Option.some.inj (hm.symm.trans hm₁)
  exact Ensures.pure_iff.2 ⟨rfl, rfl⟩

/-- How the first loop of `vmspace_protect` ends, given the first entry that is refused. -/
def Checked (m : M) (w : World E O M) (refused : Option (MapEntry E (Ref O M)))
    (result : Option KernReturn) (w' : World E O M) : Prop :=
  (refused = none → result = none ∧ w' = w) ∧
    ∀ e, refused = some e →
      (e.isSubMap → result = some .invalidArgument ∧ w' = w) ∧
        (¬ e.isSubMap → result = some .protectionFailure ∧
          w' = { w with held := setHold w.held m (w.held m).lockDone })

theorem ensures_checkProtect (hm : w.maps m = some map) {e : MapEntry E (Ref O M)}
    (hentry : map.entry e.id = .ok e) (newProt : ℕ) :
    Ensures (checkProtect m newProt e.id)
      (fun result w' ↦ (e.Refuses newProt → Checked m w (some e) result w') ∧
        (¬ e.Refuses newProt → result = none ∧ w' = w)) w := by
  refine Ensures.bind (ensures_entryOf m e.id w) fun current w₁ hcurrent ↦ ?_
  obtain ⟨⟨map₁, hm₁, hcurrent⟩, rfl⟩ := hcurrent
  obtain rfl : map = map₁ := Option.some.inj (hm.symm.trans hm₁)
  obtain rfl : e = current := Except.ok.inj (hentry.symm.trans hcurrent)
  have hchecked : ∀ {result w'}, (e.isSubMap → result = some .invalidArgument ∧ w' = w₁) ∧
      (¬ e.isSubMap → result = some .protectionFailure ∧
        w' = { w₁ with held := setHold w₁.held m (w₁.held m).lockDone }) →
        Checked m w₁ (some e) result w' := by
    refine fun hcase ↦ ⟨fun hnone ↦ (by cases hnone), fun f hf ↦ ?_⟩
    cases hf
    exact hcase
  refine Ensures.ite_iff.2 ⟨fun hsub ↦ Ensures.pure_iff.2 ⟨fun _ ↦ hchecked
    ⟨fun _ ↦ ⟨rfl, rfl⟩, fun hnot ↦ absurd hsub hnot⟩, fun hnot ↦ absurd (.inl hsub) hnot⟩,
    fun hsub ↦ Ensures.ite_iff.2 ⟨fun hprot ↦ ?_, fun hprot ↦ ?_⟩⟩
  · refine Ensures.bind (ensures_onHold m _ w₁) fun _ w₂ hunlock ↦ ?_
    obtain ⟨hold, hok, rfl⟩ := hunlock
    cases hok
    exact Ensures.pure_iff.2 ⟨fun _ ↦ hchecked ⟨fun hyes ↦ absurd hyes hsub, fun _ ↦ ⟨rfl, rfl⟩⟩,
      fun hnot ↦ absurd (.inr hprot) hnot⟩
  · exact Ensures.pure_iff.2 ⟨fun hrefuses ↦ absurd hrefuses (not_or.2 ⟨hsub, hprot⟩),
      fun _ ↦ ⟨rfl, rfl⟩⟩

/-- The first loop finds the first entry that is refused. -/
theorem ensures_checkLoop (hm : w.maps m = some map) (h : map.Wellformed)
    {l₁ l₂ : List (MapEntry E (Ref O M))} (hl : map.entries = l₁ ++ l₂) (newProt : ℕ)
    (endAddr : VmOffset) (turns : ℕ) :
    Ensures (loopent m endAddr (checkProtect m newProt) turns (firstId l₂))
      (Checked m w ((l₂.takeWhile (·.start < endAddr)).find? (·.Refuses newProt))) w := by
  have hdone : ∀ w : World E O M, Checked m w none none w := fun w ↦
    ⟨fun _ ↦ ⟨rfl, rfl⟩, fun e he ↦ by cases he⟩
  induction turns generalizing l₁ l₂ with
  | zero =>
    unfold loopent
    exact Ensures.throw_iff.2 trivial
  | succ turns ih =>
    cases l₂ with
    | nil => exact Ensures.pure_iff.2 (hdone w)
    | cons e rest =>
      have hentry := VmMap.entry_split hl h.nodup
      refine Ensures.bind (ensures_entryOf m e.id w) fun current w₁ hcurrent ↦ ?_
      obtain ⟨⟨map₁, hm₁, hcurrent⟩, rfl⟩ := hcurrent
      obtain rfl : map = map₁ := Option.some.inj (hm.symm.trans hm₁)
      obtain rfl : e = current := Except.ok.inj (hentry.symm.trans hcurrent)
      refine Ensures.ite_iff.2 ⟨fun hlt ↦ ?_, fun hge ↦ ?_⟩
      · have htake : (e :: rest).takeWhile (·.start < endAddr) =
            e :: rest.takeWhile (·.start < endAddr) :=
          List.takeWhile_cons_of_pos (decide_eq_true hlt)
        rw [htake]
        refine Ensures.bind (ensures_checkProtect hm hentry newProt) fun result w₂ hcheck ↦ ?_
        by_cases hrefuses : e.Refuses newProt
        · have hfind : (e :: rest.takeWhile (·.start < endAddr)).find? (·.Refuses newProt) =
              some e := List.find?_cons_of_pos (decide_eq_true hrefuses)
          rw [hfind]
          have hchecked := hcheck.1 hrefuses
          cases result with
          | some r => exact Ensures.pure_iff.2 hchecked
          | none =>
            have hcase := hchecked.2 e rfl
            by_cases hsub : e.isSubMap
            · exact absurd (hcase.1 hsub).1 (by simp)
            · exact absurd (hcase.2 hsub).1 (by simp)
        · have hfind : (e :: rest.takeWhile (·.start < endAddr)).find? (·.Refuses newProt) =
              (rest.takeWhile (·.start < endAddr)).find? (·.Refuses newProt) :=
            List.find?_cons_of_neg (by simpa using hrefuses)
          rw [hfind]
          obtain ⟨rfl, rfl⟩ := hcheck.2 hrefuses
          have hassoc : map.entries = (l₁ ++ [e]) ++ rest := by simpa using hl
          refine Ensures.bind (ensures_nextOf hm (some e.id)) fun next w₃ hnext ↦ ?_
          obtain ⟨rfl, rfl⟩ := hnext
          rw [VmMap.next_split hl h.nodup]
          exact ih hassoc
      · have htake : (e :: rest).takeWhile (·.start < endAddr) = [] :=
          List.takeWhile_cons_of_neg (by simpa using hge)
        rw [htake]
        exact Ensures.pure_iff.2 (hdone w₁)

/-! ## Locks -/

variable {H : M → Hold}

omit [LinearOrder M] in
theorem quiet_protectShared (m : M) (current : MapEntry E (Ref O M)) (shareMap : M)
    (shareEnd : VmOffset) (prot turns : ℕ) (entry : Option E) :
    Quiet anyMaps
      (protectShared m current shareMap shareEnd prot turns entry : Space E O M Unit) := by
  induction turns generalizing entry with
  | zero =>
    unfold protectShared
    exact Quiet.throw _
  | succ turns ih =>
    cases entry with
    | none => exact Quiet.pure _
    | some id =>
      exact Quiet.bind (quiet_entryOf shareMap id) fun _ ↦ Quiet.ite
        (fun _ ↦ Quiet.bind (quiet_pmapProtect m _ _ _) fun _ ↦
          Quiet.bind (quiet_nextOf shareMap _) fun _ ↦ ih _) fun _ ↦ Quiet.pure _

theorem takes_protectEntry (env : Env E O M) (hplain : ∀ n, (H n).Plain) (m : M) (setMax : Bool)
    (newProt : ℕ) (endAddr : VmOffset) (first id : E) :
    Takes anyMaps H (protectEntry env m setMax newProt endAddr first id) fun _ ↦ H := by
  have hpages : ∀ current : MapEntry E (Ref O M),
      Takes anyMaps H (protectPages m first current current.protection) fun _ ↦ H := by
    intro current
    refine Takes.ite (fun _ ↦ ?_) fun _ ↦ Takes.bind (quiet_entryOf m first H) fun _ ↦
      quiet_pmapProtect m _ _ _ H
    exact Takes.bind (quiet_innerMap current H) fun s ↦ Takes.bind (takes_vmMapLock s) fun _ ↦
      Takes.bind (quiet_onMap_any _) fun _ ↦ Takes.bind (quiet_turnsOf s _) fun _ ↦
        Takes.bind (quiet_protectShared m current s _ _ _ _ _) fun _ ↦
          takes_vmMapUnlock (hplain s)
  refine Takes.bind (quiet_onMap_any H) fun _ ↦ Takes.bind (quiet_entryOf m id H) fun old ↦
    Takes.bind (quiet_modifyEntry_any m id _ H) fun _ ↦ Takes.bind (quiet_entryOf m id H)
      fun current ↦ Takes.ite (fun _ ↦ ?_) fun _ ↦ Takes.pure rfl
  exact Takes.bind (hpages current) fun _ ↦ Takes.pure rfl

omit [DecidableEq E] in
theorem locked_ne (H : M → Hold) (m : M) : locked H m ≠ H := by
  intro heq
  have hheld : (H m).addWrite = H m := (setHold_same H m _).symm.trans (congrFun heq m)
  unfold Hold.addWrite at hheld
  split_ifs at hheld
  · have hdepth := congrArg Hold.depth hheld
    simp at hdepth
  · have hwrites := congrArg Hold.writes hheld
    simp at hwrites

/-- `vmspace_protect` keeps the lock if it meets a submap, and gives it back otherwise. -/
theorem ensures_vmspaceProtect_held {env : Env E O M} (hcreate : VmMap.Fresh env.create)
    (hm : w.maps m = some map) (h : map.Wellformed) (hplain : ∀ n, (w.held n).Plain)
    (va sz : VmOffset) (setMax : Bool) (newProt : ℕ) :
    Ensures (vmspaceProtect env m va sz setMax newProt) (fun _ w' ↦ w'.held = w.held ↔
      ¬ map.MeetsSubMap (pageRegion va sz).1 (pageRegion va sz).2 newProt) w := by
  unfold vmspaceProtect
  generalize pageRegion va sz = pages
  obtain ⟨start, endAddr⟩ := pages
  refine Ensures.bind (ensures_lockClipStart hcreate hm h start endAddr) fun region w₁ hregion ↦ ?_
  obtain ⟨k₁, k₂, l₁, l₂, n, hint, rfl, rfl, hmap, habove, hk, hbelow, hclipped⟩ := hregion
  have hinOrder : InOrder l₂ := (Ranges.ordered_append.1 hmap.inOrder).2.1
  have hfirst := VmMap.firstRefused_clipped hk hbelow hclipped hinOrder habove newProt
  refine Ensures.bind (ensures_turnsOf (if_pos rfl)) fun turns w₂ hturns ↦ ?_
  obtain ⟨-, rfl⟩ := hturns
  refine Ensures.bind (ensures_checkLoop (if_pos rfl) hmap rfl newProt _ turns)
    fun result w₃ hchecked ↦ ?_
  rcases Option.eq_none_or_eq_some ((l₂.takeWhile
    (·.start < min endAddr map.maxOffset)).find? (·.Refuses newProt)) with hnone | ⟨e, he⟩
  · obtain ⟨rfl, rfl⟩ := hchecked.1 hnone
    have hnot : ¬ map.MeetsSubMap start endAddr newProt := by
      rintro ⟨e, he, -⟩
      rw [hnone, he] at hfirst
      cases hfirst
    have hend : Takes anyMaps (locked w.held m) (do
        vmMapUnlock m
        return .success : Space E O M KernReturn) fun _ ↦ w.held :=
      Takes.bind (takes_vmMapUnlock (hplain m)) fun _ ↦ Takes.pure rfl
    refine Ensures.mono (Q := fun _ (w' : World E O M) ↦ True ∧ w'.held = w.held) ?_
      fun _ _ hw' ↦ iff_of_true hw'.2 hnot
    cases l₂ with
    | nil => exact hend _ trivial rfl
    | cons first rest =>
      have hloop : Takes anyMaps (locked w.held m) (do
          let _ ← loopent m (min endAddr map.maxOffset)
            (protectEntry env m setMax newProt (min endAddr map.maxOffset) first.id) (← turnsOf m)
            (some first.id)
          vmMapUnlock m
          return .success : Space E O M KernReturn) fun _ ↦ w.held :=
        Takes.bind (quiet_turnsOf m _) fun _ ↦ Takes.bind
          (Takes.loopent m _ (fun id ↦ takes_protectEntry env (plain_locked hplain m) m setMax
            newProt
            _ first.id id) _ _) fun _ ↦ hend
      exact hloop _ trivial rfl
  · have hcase := hchecked.2 e he
    rw [he] at hfirst
    obtain ⟨f, hf, hsame⟩ := Option.map_eq_some_iff.1 hfirst.symm
    by_cases hsub : e.isSubMap
    · obtain ⟨rfl, rfl⟩ := hcase.1 hsub
      refine Ensures.pure_iff.2 (iff_of_false (locked_ne w.held m) (not_not.2 ⟨f, hf, ?_⟩))
      exact hsame.trans hsub
    · obtain ⟨rfl, rfl⟩ := hcase.2 hsub
      refine Ensures.pure_iff.2 (iff_of_true ?_ ?_)
      · change setHold (locked w.held m) m (locked w.held m m).lockDone = w.held
        rw [locked, setHold_same, setHold_setHold, Hold.lockDone_addWrite (hplain m), setHold_self]
      · rintro ⟨g, hg, hgsub⟩
        obtain rfl : f = g := Option.some.inj (hf.symm.trans hg)
        exact hsub (hsame.symm.trans hgsub)

end Space

end Bsd386.Kern.Vm
