import Bsd386.Kern.Vm.Space.Regions

/-!
# Locks of a virtual copy

`vm_map_copy` locks two maps, which may be the same, and calls itself for the share maps that it
meets. A map that is not a share map is made recursive for the call.
-/

namespace Bsd386.Kern.Vm

variable {E O M : Type}

/-- `vm_object_copy` gives the destination an object. -/
def Env.CopiesObjects (env : Env E O M) : Prop :=
  ∀ w object offset m, (env.objectCopy w object offset).1 ≠ some (.map m)

namespace Space

variable [DecidableEq E] [LinearOrder M] {α : Type} {J : Maps E O M → Prop}
  {H : M → Hold}

/-! ## The entries -/

omit [LinearOrder M] in
theorem Takes.bind_entryOf {p : M → MapEntry E (Ref O M) → Prop} {m : M} {id : E}
    {f : MapEntry E (Ref O M) → Space E O M α} {H' : α → M → Hold}
    (hf : ∀ e, p m e → Takes (AllEntries p) H (f e) H') :
    Takes (AllEntries p) H (entryOf m id >>= f) H' := by
  intro w hp hw
  refine Ensures.bind (ensures_entryOf m id w) fun e w' he ↦ ?_
  obtain ⟨⟨map, hm, he⟩, rfl⟩ := he
  exact hf e ((hp m map hm).entry he) w' hp hw

theorem quiet_vmMapDelete (env : Env E O M) (m : M) (start endAddr : VmOffset) :
    Quiet (AllEntries Straight)
      (onMap m fun map ↦ do return ((), ← map.vmMapDelete env.create start endAddr)) := by
  refine quiet_onMap fun maps map a map' hp hm hok ↦ hp.putMap ?_
  obtain ⟨map₁, hdelete, hok⟩ := exists_of_bind_ok hok
  cases hok
  exact (hp m map hm).vmMapDelete (uniform_straight m) hdelete

theorem quiet_vmMapInsert (env : Env E O M) (m : M) (start endAddr : VmOffset) :
    Quiet (AllEntries Straight)
      (onMap m fun map ↦ map.vmMapInsert env.create env.coalesce none 0 start endAddr) := by
  refine quiet_onMap fun maps map result map' hp hm hok ↦ hp.putMap ?_
  refine (hp m map hm).vmMapInsert (uniform_straight m) (fun map memory ↦ ?_) hok
  unfold Straight VmMap.newEntry
  split_ifs
  · exact fun heq ↦ by cases heq
  · exact fun heq ↦ by cases heq

theorem quiet_vmMapCheckProtection (m : M) (start endAddr : VmOffset) (protection : ℕ) :
    Quiet (AllEntries Straight)
      (onMap m fun map ↦ map.vmMapCheckProtection start endAddr protection :
        Space E O M Bool) := by
  refine quiet_onMap fun maps map result map' hp hm hok ↦ hp.putMap ?_
  obtain ⟨⟨found, entry, map₁⟩, hlookup, hok⟩ := exists_of_bind_ok hok
  have hmap₁ := VmMap.every_of_entries (hp m map hm) (VmMap.entries_of_lookup hlookup)
  cases found with
  | false =>
    cases hok
    exact hmap₁
  | true =>
    obtain ⟨result', -, hok⟩ := exists_of_bind_ok hok
    cases hok
    exact hmap₁

/-- The assignments that `vm_map_copy_entry` makes to the two entries. -/
structure CopyEdits (env : Env E O M) (P : M → (MapEntry E (Ref O M) → MapEntry E (Ref O M)) → Prop)
    (srcMap dstMap : M) : Prop where
  recycle : P dstMap fun e ↦ { e with wiredCount := 0 }
  allocate : ∀ o, P dstMap fun e ↦ { e with object := some (.object o), offset := 0 }
  copy : ∀ w object offset, P dstMap fun e ↦
    { e with object := (env.objectCopy w object offset).1, offset := (env.objectCopy w object offset).2.1 }
  source : ∀ needsCopy, P srcMap fun e ↦
    { e with needsCopy := e.needsCopy || needsCopy, copyOnWrite := true }
  destination : P dstMap fun e ↦ { e with needsCopy := true, copyOnWrite := true }

/-- The copy of an entry leaves the locks alone, and keeps what its assignments keep. -/
theorem quiet_vmMapCopyEntry_of {env : Env E O M} {srcMap dstMap : M}
    {P : M → (MapEntry E (Ref O M) → MapEntry E (Ref O M)) → Prop}
    (hedits : CopyEdits env P srcMap dstMap)
    (hmodify : ∀ m id edit, P m edit → Quiet J (modifyEntry m id edit : Space E O M Unit))
    (srcEntry dstEntry : E) :
    Quiet J (vmMapCopyEntry env srcMap dstMap srcEntry dstEntry) := by
  have hrecycle : Quiet J (vmMapEntryRecycle dstMap dstEntry : Space E O M Unit) :=
    Quiet.bind (quiet_entryOf dstMap dstEntry) fun _ ↦ Quiet.ite
      (fun _ ↦ Quiet.bind (quiet_mayPanic _) fun _ ↦ hmodify _ dstEntry _ hedits.recycle)
      fun _ ↦ Quiet.pure _
  have hwired : Quiet J (vmFaultCopyEntry env dstMap dstEntry) :=
    Quiet.bind (Quiet.bind Quiet.read fun _ ↦ hmodify _ dstEntry _ (hedits.allocate _)) fun _ ↦
      quiet_mayPanic _
  have hobject : ∀ src : MapEntry E (Ref O M), Quiet J (do
      let copied := env.objectCopy (← get) src.object src.offset
      modifyEntry dstMap dstEntry fun e ↦ { e with object := copied.1, offset := copied.2.1 }
      modifyEntry srcMap srcEntry fun e ↦
        { e with needsCopy := e.needsCopy || copied.2.2, copyOnWrite := true }
      modifyEntry dstMap dstEntry fun e ↦ { e with needsCopy := true, copyOnWrite := true }
      : Space E O M Unit) := fun src ↦
    Quiet.bind Quiet.read fun w ↦
      Quiet.bind (hmodify _ dstEntry _ (hedits.copy w src.object src.offset)) fun _ ↦
        Quiet.bind (hmodify _ srcEntry _ (hedits.source _)) fun _ ↦
          hmodify _ dstEntry _ hedits.destination
  have hprotected : ∀ (src : MapEntry E (Ref O M)) (su : Bool), Quiet J (do
      if ¬ src.needsCopy ∧ su then
        pmapProtect srcMap src.start src.endAddr (dropWrite src.protection)
      let copied := env.objectCopy (← get) src.object src.offset
      modifyEntry dstMap dstEntry fun e ↦ { e with object := copied.1, offset := copied.2.1 }
      modifyEntry srcMap srcEntry fun e ↦
        { e with needsCopy := e.needsCopy || copied.2.2, copyOnWrite := true }
      modifyEntry dstMap dstEntry fun e ↦ { e with needsCopy := true, copyOnWrite := true }
      : Space E O M Unit) := fun src su ↦
    Quiet.ite (fun _ ↦ Quiet.bind (quiet_pmapProtect srcMap _ _ _) fun _ ↦ hobject src) fun _ ↦
      hobject src
  refine Quiet.bind (quiet_entryOf srcMap srcEntry) fun _ ↦
    Quiet.bind (quiet_entryOf dstMap dstEntry)
    fun _ ↦ Quiet.ite (fun _ ↦ Quiet.throw _) fun _ ↦ Quiet.bind hrecycle fun _ ↦
      Quiet.bind (quiet_entryOf srcMap srcEntry) fun src ↦ Quiet.ite (fun _ ↦ hwired) fun _ ↦ ?_
  exact Quiet.bind (quiet_getMap srcMap) fun map ↦ Quiet.ite
    (fun _ ↦ Quiet.bind (Quiet.pure true) (hprotected src))
    fun _ ↦ Quiet.bind quiet_choose (hprotected src)

theorem quiet_vmMapCopyEntry {env : Env E O M} (henv : env.CopiesObjects) (srcMap dstMap : M)
    (srcEntry dstEntry : E) :
    Quiet (AllEntries Straight) (vmMapCopyEntry env srcMap dstMap srcEntry dstEntry) := by
  refine quiet_vmMapCopyEntry_of (P := fun m edit ↦ ∀ e, Straight m e → Straight m (edit e))
    ⟨fun _ he ↦ he, fun o e _ heq ↦ ?_, fun w object offset _ _ ↦ henv w object offset dstMap,
      fun _ _ he ↦ he, fun _ he ↦ he⟩ (fun m id edit hedit ↦ quiet_modifyEntry id hedit) srcEntry
        dstEntry
  cases heq

theorem quiet_clipStartAny (env : Env E O M) (m : M) (entry : Option E) (start : VmOffset) :
    Quiet (AllEntries Straight) (clipStartAny env m entry start) := by
  cases entry with
  | none =>
    exact Quiet.bind (quiet_getMap m) fun _ ↦ Quiet.ite (fun _ ↦ Quiet.throw _) fun _ ↦ Quiet.pure _
  | some id =>
    refine quiet_onMap fun maps map a map' hp hm hok ↦ hp.putMap ?_
    obtain ⟨map₁, hclip, hok⟩ := exists_of_bind_ok hok
    cases hok
    exact (hp m map hm).clipStart (uniform_straight m) hclip

theorem quiet_clipEndAny (env : Env E O M) (m : M) (entry : Option E) (endAddr : VmOffset) :
    Quiet (AllEntries Straight) (clipEndAny env m entry endAddr) := by
  cases entry with
  | none => exact Quiet.throw _
  | some id =>
    exact Quiet.bind (quiet_vmMapClipEnd env (uniform_straight m) id endAddr) fun _ ↦ Quiet.pure _

/-! ## The locks of both maps -/

/-- The exclusive holds of two maps, which may be the same. -/
def lockedBoth (H : M → Hold) (dstMap srcMap : M) : M → Hold :=
  if srcMap = dstMap then locked H srcMap else locked (locked H dstMap) srcMap

omit [DecidableEq E] in
theorem setHold_comm (H : M → Hold) {m n : M} (hne : m ≠ n) (h h' : Hold) :
    setHold (setHold H m h) n h' = setHold (setHold H n h') m h := by
  funext k
  unfold setHold
  by_cases hm : k = m
  · rw [if_neg (hm ▸ hne), if_pos hm, if_pos hm]
  · rw [if_neg hm, if_neg hm]

omit [DecidableEq E] in
theorem locked_comm (H : M → Hold) {m n : M} (hne : m ≠ n) :
    locked (locked H m) n = locked (locked H n) m := by
  have hn : locked H m n = H n := setHold_other H hne.symm _
  have hm : locked H n m = H m := setHold_other H hne _
  calc locked (locked H m) n
      = setHold (setHold H m (H m).addWrite) n (H n).addWrite :=
        congrArg (fun h : Hold ↦ setHold (locked H m) n h.addWrite) hn
    _ = setHold (setHold H n (H n).addWrite) m (H m).addWrite := setHold_comm H hne _ _
    _ = locked (locked H n) m := 
        (congrArg (fun h : Hold ↦ setHold (locked H n) m h.addWrite) hm).symm

omit [DecidableEq E] in
theorem plain_lockedBoth (hplain : ∀ n, (H n).Plain) (dstMap srcMap n : M) :
    (lockedBoth H dstMap srcMap n).Plain := by
  unfold lockedBoth
  split_ifs
  · exact plain_locked hplain srcMap n
  · exact plain_locked (plain_locked hplain dstMap) srcMap n

omit [DecidableEq E] in
theorem exclusive_lockedBoth (hplain : ∀ n, (H n).Plain) (dstMap srcMap : M) :
    (lockedBoth H dstMap srcMap dstMap).Exclusive ∧
      (lockedBoth H dstMap srcMap srcMap).Exclusive := by
  unfold lockedBoth
  split_ifs with hsame
  · rw [← hsame]
    exact ⟨exclusive_locked (hplain srcMap), exclusive_locked (hplain srcMap)⟩
  · refine ⟨?_, exclusive_locked (plain_locked hplain dstMap srcMap)⟩
    have hdst : locked (locked H dstMap) srcMap dstMap = locked H dstMap dstMap :=
      setHold_other _ (Ne.symm hsame) _
    rw [hdst]
    exact exclusive_locked (hplain dstMap)

omit [DecidableEq E] in
theorem takes_lockBoth (dstMap srcMap : M) :
    Takes J H (lockBoth dstMap srcMap : Space E O M Unit) fun _ ↦ lockedBoth H dstMap srcMap := by
  unfold lockedBoth
  refine Takes.ite (fun hsame ↦ ?_) fun hne ↦ Takes.ite (fun _ ↦ ?_) fun _ ↦ ?_
  · rw [if_pos hsame]
    exact takes_vmMapLock srcMap
  · rw [if_neg hne, locked_comm H (Ne.symm hne)]
    exact Takes.bind (takes_vmMapLock srcMap) fun _ ↦ takes_vmMapLock dstMap
  · rw [if_neg hne]
    exact Takes.bind (takes_vmMapLock dstMap) fun _ ↦ takes_vmMapLock srcMap

omit [DecidableEq E] in
theorem takes_unlockBoth (hplain : ∀ n, (H n).Plain) (dstMap srcMap : M) :
    Takes J (lockedBoth H dstMap srcMap) (unlockBoth dstMap srcMap : Space E O M Unit)
      fun _ ↦ H := by
  unfold lockedBoth
  by_cases hsame : srcMap = dstMap
  · rw [if_pos hsame]
    exact Takes.bind (takes_vmMapUnlock (hplain srcMap)) fun _ ↦
      Takes.ite (fun hne ↦ absurd hsame hne) fun _ ↦ Takes.pure rfl
  · rw [if_neg hsame]
    exact Takes.bind (takes_vmMapUnlock (plain_locked hplain dstMap srcMap)) fun _ ↦
      Takes.ite (fun _ ↦ takes_vmMapUnlock (hplain dstMap)) fun heq ↦ absurd hsame heq

/-! ## The recursive calls -/

/-- The holds after a map has been made recursive, if it has to be. -/
def recursedIf (c : Prop) [Decidable c] (H : M → Hold) (m : M) : M → Hold :=
  if c then recursed H m else H

omit [DecidableEq E] in
theorem plain_recursedIf (hplain : ∀ n, (H n).Plain) (c : Prop) [Decidable c] (m n : M) :
    (recursedIf c H m n).Plain := by
  unfold recursedIf
  split_ifs
  · exact plain_recursed hplain m n
  · exact hplain n

omit [DecidableEq E] in
/-- Clearing recursion again changes nothing, if the process does not fail. -/
theorem takes_lockClearRecursive_again {m : M} (hexclusive : (H m).Exclusive) :
    Takes J H (lockClearRecursive m : Space E O M Unit) fun _ ↦ H := by
  refine Takes.onHold fun a h hok ↦ ?_
  obtain ⟨h', hclear, hok⟩ := exists_of_bind_ok hok
  cases hok
  obtain ⟨h₀, -, hheld⟩ := hexclusive
  rw [hheld] at hclear
  rw [Hold.lockClearRecursive_addWrite hclear, ← hheld, setHold_self]

omit [DecidableEq E] in
theorem takes_clearBoth (dstMap srcMap newDstMap newSrcMap : M)
    (hexclusive : (H dstMap).Exclusive ∧ (H srcMap).Exclusive) :
    Takes J (recursedIf (dstMap = newDstMap) (recursedIf (srcMap = newSrcMap) H srcMap) dstMap)
      (do
        if dstMap = newDstMap then lockClearRecursive dstMap
        if srcMap = newSrcMap then lockClearRecursive srcMap : Space E O M Unit) fun _ ↦ H := by
  have hsrc : Takes J (recursedIf (srcMap = newSrcMap) H srcMap)
      (if srcMap = newSrcMap then lockClearRecursive srcMap else pure () : Space E O M Unit)
      fun _ ↦ H := by
    unfold recursedIf
    split_ifs
    · exact takes_lockClearRecursive hexclusive.2
    · exact Takes.pure rfl
  by_cases hdst : dstMap = newDstMap
  swap
  · have hnone : recursedIf (dstMap = newDstMap) (recursedIf (srcMap = newSrcMap) H srcMap) dstMap =
        recursedIf (srcMap = newSrcMap) H srcMap := if_neg hdst
    rw [hnone, if_neg hdst]
    exact hsrc
  have hrecursed : recursedIf (dstMap = newDstMap) (recursedIf (srcMap = newSrcMap) H srcMap)
      dstMap = recursed (recursedIf (srcMap = newSrcMap) H srcMap) dstMap := if_pos hdst
  rw [hrecursed, if_pos hdst]
  by_cases hsame : srcMap = newSrcMap ∧ srcMap = dstMap
  · obtain ⟨hnew, rfl⟩ := hsame
    have htwice : recursed (recursed H srcMap) srcMap = recursed H srcMap := by
      rw [recursed, recursed, setHold_same, setHold_setHold]
    rw [recursedIf, if_pos hnew, htwice, if_pos hnew]
    exact Takes.bind (takes_lockClearRecursive hexclusive.1) fun _ ↦
      takes_lockClearRecursive_again hexclusive.2
  · refine Takes.bind (takes_lockClearRecursive ?_) fun _ ↦ hsrc
    have hheld : recursedIf (srcMap = newSrcMap) H srcMap dstMap = H dstMap := by
      unfold recursedIf
      split_ifs with hnew
      · exact setHold_other H (fun heq ↦ hsame ⟨hnew, heq.symm⟩) _
      · rfl
    rw [hheld]
    exact hexclusive.1

omit [DecidableEq E] [LinearOrder M] in
theorem Takes.bind_innerMap {e : MapEntry E (Ref O M)} {f : M → Space E O M α} {H' : α → M → Hold}
    (hf : ∀ s, e.object = some (.map s) → Takes J H (f s) H') :
    Takes J H (innerMap e >>= f) H' := by
  intro w hJ hw
  refine Ensures.bind (ensures_innerMap e w) fun s w' hs ↦ ?_
  obtain ⟨hs, rfl⟩ := hs
  exact hf s hs w' hJ hw

/-- The call of `vm_map_copy` for the entries' own maps gives back its locks. -/
abbrev CopyBalanced (copy : M → M → VmOffset → VmOffset → VmOffset → Space E O M KernReturn) :
    Prop :=
  ∀ (H : M → Hold) dstMap srcMap dstAddr len srcAddr, (∀ n, (H n).Plain) →
    Takes (AllEntries Straight) H (copy dstMap srcMap dstAddr len srcAddr) fun _ ↦ H

variable {copy : M → M → VmOffset → VmOffset → VmOffset → Space E O M KernReturn}

theorem takes_copyShared (env : Env E O M) (hcopy : CopyBalanced copy) {dstMap srcMap : M}
    {dst src : MapEntry E (Ref O M)} (hdst : Straight dstMap dst) (hsrc : Straight srcMap src)
    (hplain : ∀ n, (H n).Plain)
    (hexclusive : (H dstMap).Exclusive ∧ (H srcMap).Exclusive) :
    Takes (AllEntries Straight) H (copyShared env copy dstMap srcMap dst src) fun _ ↦ H := by
  have hcall : ∀ (q r : M × VmOffset), Takes (AllEntries Straight)
      (recursedIf (dstMap = r.1) (recursedIf (srcMap = q.1) H srcMap) dstMap) (do
        let _ ← copy r.1 q.1 r.2 (dst.endAddr - dst.start) q.2
        if dstMap = r.1 then lockClearRecursive dstMap
        if srcMap = q.1 then lockClearRecursive srcMap) fun _ ↦ H := fun q r ↦
    Takes.bind (hcopy _ _ _ _ _ _ (plain_recursedIf (plain_recursedIf hplain _ srcMap) _ dstMap))
      fun _ ↦ takes_clearBoth dstMap srcMap r.1 q.1 hexclusive
  have hrest : ∀ q : M × VmOffset, Takes (AllEntries Straight)
      (recursedIf (srcMap = q.1) H srcMap) (do
        let r ←
          if dst.isAMap then
            let newDstMap ← innerMap dst
            let newDstEnd := dst.offset + (dst.endAddr - dst.start)
            if newDstMap ≠ q.1 then
              vmMapLock newDstMap
              onMap newDstMap fun map ↦
                do return ((), ← map.vmMapDelete env.create dst.offset newDstEnd)
              let _ ← onMap newDstMap fun map ↦
                map.vmMapInsert env.create env.coalesce none 0 dst.offset newDstEnd
              vmMapUnlock newDstMap
              pure (newDstMap, dst.offset)
            else pure (newDstMap, dst.offset)
          else
            lockSetRecursive dstMap
            pure (dstMap, dst.start)
        let _ ← copy r.1 q.1 r.2 (dst.endAddr - dst.start) q.2
        if dstMap = r.1 then lockClearRecursive dstMap
        if srcMap = q.1 then lockClearRecursive srcMap) fun _ ↦ H := by
    intro q
    refine Takes.ite (fun _ ↦ Takes.bind_innerMap fun s hs ↦ ?_) fun _ ↦ ?_
    · have hne : dstMap ≠ s := fun heq ↦ hdst (heq ▸ hs)
      have hshared := hcall q (s, dst.offset)
      rw [recursedIf, if_neg hne] at hshared
      refine Takes.ite (fun _ ↦ ?_) fun _ ↦ hshared
      exact Takes.bind (takes_vmMapLock s) fun _ ↦ Takes.bind (quiet_vmMapDelete env s _ _ _)
        fun _ ↦ Takes.bind (quiet_vmMapInsert env s _ _ _) fun _ ↦
          Takes.bind (takes_vmMapUnlock (plain_recursedIf hplain _ srcMap s)) fun _ ↦ hshared
    · have hprivate := hcall q (dstMap, dst.start)
      rw [recursedIf, if_pos rfl] at hprivate
      exact Takes.bind (takes_lockSetRecursive dstMap) fun _ ↦ hprivate
  refine Takes.ite (fun _ ↦ ?_) fun _ ↦ ?_
  · refine Takes.bind_innerMap fun s hs ↦ ?_
    have hne : srcMap ≠ s := fun heq ↦ hsrc (heq ▸ hs)
    have hshared := hrest (s, src.offset)
    rw [recursedIf, if_neg hne] at hshared
    exact hshared
  · have hprivate := hrest (srcMap, src.start)
    rw [recursedIf, if_pos rfl] at hprivate
    exact Takes.bind (takes_lockSetRecursive srcMap) fun _ ↦ hprivate

theorem takes_copyLoop {env : Env E O M} (henv : env.CopiesObjects) (hcopy : CopyBalanced copy)
    {dstMap srcMap : M} (hplain : ∀ n, (H n).Plain)
    (hexclusive : (H dstMap).Exclusive ∧ (H srcMap).Exclusive) (srcEnd dstEnd : VmOffset)
    (turns : ℕ) (srcStart : VmOffset) (srcEntry dstEntry : Option E) :
    Takes (AllEntries Straight) H
      (copyLoop env copy dstMap srcMap srcEnd dstEnd turns srcStart srcEntry dstEntry)
      fun _ ↦ H := by
  induction turns generalizing srcStart srcEntry dstEntry with
  | zero =>
    unfold copyLoop
    exact Takes.throw _
  | succ turns ih =>
    unfold copyLoop
    refine Takes.ite (fun _ ↦ ?_) fun _ ↦ Takes.pure rfl
    refine Takes.bind (quiet_clipEndAny env srcMap srcEntry srcEnd H) fun srcId ↦
      Takes.bind (quiet_clipEndAny env dstMap dstEntry dstEnd H) fun dstId ↦
        Takes.bind (quiet_entryOf dstMap dstId H) fun _ ↦
          Takes.bind (quiet_entryOf srcMap srcId H) fun _ ↦
            Takes.bind (quiet_vmMapClipEnd env (uniform_straight srcMap) srcId _ H) fun _ ↦
              Takes.bind (quiet_entryOf srcMap srcId H) fun _ ↦
                Takes.bind (quiet_entryOf dstMap dstId H) fun _ ↦
                  Takes.bind (quiet_vmMapClipEnd env (uniform_straight dstMap) dstId _ H) fun _ ↦
                    Takes.bind_entryOf fun src hsrc ↦ Takes.bind_entryOf fun dst hdst ↦ ?_
    have hnext : Takes (AllEntries Straight) H (do
        copyLoop env copy dstMap srcMap srcEnd dstEnd turns (← entryOf srcMap srcId).endAddr
          (← nextOf srcMap (some srcId)) (← nextOf dstMap (some dstId))) fun _ ↦ H :=
      Takes.bind (quiet_entryOf srcMap srcId H) fun _ ↦ Takes.bind (quiet_nextOf srcMap _ H)
        fun _ ↦ Takes.bind (quiet_nextOf dstMap _ H) fun _ ↦ ih _ _ _
    exact Takes.ite
      (fun _ ↦ Takes.bind (quiet_vmMapCopyEntry henv srcMap dstMap srcId dstId H) fun _ ↦ hnext)
      fun _ ↦ Takes.bind (takes_copyShared env hcopy hdst hsrc hplain hexclusive) fun _ ↦ hnext

/-! ## `vm_map_copy` -/

theorem quiet_copyChecks (env : Env E O M) (dstMap srcMap : M)
    (dstAddr dstEnd srcAddr srcEnd : VmOffset) (dstAlloc : Bool) :
    Quiet (AllEntries Straight)
      (copyChecks env dstMap srcMap dstAddr dstEnd srcAddr srcEnd dstAlloc) := by
  refine Quiet.bind (quiet_getMap srcMap) fun _ ↦ Quiet.bind (quiet_getMap dstMap) fun _ ↦
    Quiet.ite (fun _ ↦ ?_) fun _ ↦ Quiet.pure _
  refine Quiet.bind (quiet_vmMapCheckProtection srcMap _ _ _) fun _ ↦ Quiet.ite (fun _ ↦ ?_)
    fun _ ↦ Quiet.pure _
  exact Quiet.ite (fun _ ↦ quiet_vmMapInsert env dstMap _ _) fun _ ↦
    Quiet.bind (quiet_vmMapCheckProtection dstMap _ _ _) fun _ ↦
      Quiet.ite (fun _ ↦ Quiet.pure _) fun _ ↦ Quiet.pure _

theorem takes_copyRegion {env : Env E O M} (henv : env.CopiesObjects) (hcopy : CopyBalanced copy)
    {dstMap srcMap : M} (hplain : ∀ n, (H n).Plain)
    (hexclusive : (H dstMap).Exclusive ∧ (H srcMap).Exclusive) (turns : ℕ)
    (dstAddr dstEnd srcAddr srcEnd : VmOffset) :
    Takes (AllEntries Straight) H
      (copyRegion env copy turns dstMap srcMap dstAddr dstEnd srcAddr srcEnd) fun _ ↦ H := by
  refine Takes.bind (quiet_vmMapLookupEntry srcMap _ H) fun src ↦
    Takes.bind (quiet_clipStartAny env srcMap _ _ H) fun _ ↦
      Takes.bind (quiet_vmMapLookupEntry dstMap _ H) fun dst ↦
        Takes.bind (quiet_clipStartAny env dstMap _ _ H) fun _ ↦ ?_
  have hloop : ∀ srcEntry, Takes (AllEntries Straight) H
      (if srcMap = dstMap ∧ srcEntry = dst.2 then return ()
      else copyLoop env copy dstMap srcMap srcEnd dstEnd turns srcAddr srcEntry dst.2)
      fun _ ↦ H := fun srcEntry ↦
    Takes.ite (fun _ ↦ Takes.pure rfl) fun _ ↦
      takes_copyLoop henv hcopy hplain hexclusive srcEnd dstEnd turns srcAddr srcEntry dst.2
  exact Takes.ite
    (fun _ ↦ Takes.bind (quiet_vmMapLookupEntry srcMap _ H) fun again ↦ hloop again.2)
    fun _ ↦ hloop src.2

theorem takes_copyReturn (env : Env E O M) {dstMap srcMap : M} (hplain : ∀ n, (H n).Plain)
    (srcAddr srcEnd : VmOffset) (oldSrcDestroy : Bool) (result : KernReturn) :
    Takes (AllEntries Straight) (lockedBoth H dstMap srcMap)
      (copyReturn env dstMap srcMap srcAddr srcEnd oldSrcDestroy result) fun _ ↦ H := by
  have hunlock : Takes (AllEntries Straight) (lockedBoth H dstMap srcMap) (do
      unlockBoth dstMap srcMap
      return result : Space E O M KernReturn) fun _ ↦ H :=
    Takes.bind (takes_unlockBoth hplain dstMap srcMap) fun _ ↦ Takes.pure rfl
  exact Takes.ite (fun _ ↦ Takes.bind (quiet_vmMapDelete env srcMap _ _ _) fun _ ↦ hunlock) fun _ ↦
    hunlock

/-- `vm_map_copy` gives back its locks, by induction on the depth of the calls. -/
theorem takes_vmMapCopy {env : Env E O M} (henv : env.CopiesObjects) (turns : ℕ)
    (dstMap srcMap : M) (dstAddr len srcAddr : VmOffset) (dstAlloc srcDestroy : Bool)
    (hplain : ∀ n, (H n).Plain) :
    Takes (AllEntries Straight) H
      (vmMapCopy env turns dstMap srcMap dstAddr len srcAddr dstAlloc srcDestroy) fun _ ↦ H := by
  induction turns generalizing H dstMap srcMap dstAddr len srcAddr dstAlloc srcDestroy with
  | zero =>
    unfold vmMapCopy
    exact Takes.throw _
  | succ turns ih =>
    unfold vmMapCopy
    have hcopy : CopyBalanced fun dst src dstAddr len srcAddr ↦
        vmMapCopy env turns dst src dstAddr len srcAddr false false :=
      fun _ _ _ _ _ _ hplain ↦ ih _ _ _ _ _ _ _ hplain
    refine Takes.ite (fun _ ↦ Takes.pure rfl) fun _ ↦
      Takes.bind (takes_lockBoth dstMap srcMap) fun _ ↦
        Takes.bind (quiet_copyChecks env dstMap srcMap _ _ _ _ _ _) fun result ↦
          Takes.ite (fun _ ↦ takes_copyReturn env hplain _ _ _ _) fun _ ↦ ?_
    exact Takes.bind (takes_copyRegion henv hcopy (plain_lockedBoth hplain dstMap srcMap)
      (exclusive_lockedBoth hplain dstMap srcMap) turns _ _ _ _) fun _ ↦
        takes_copyReturn env hplain _ _ _ _

end Space

end Bsd386.Kern.Vm
