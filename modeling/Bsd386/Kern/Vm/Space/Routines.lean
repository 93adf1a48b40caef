import Bsd386.Kern.Vm.Space.Basic

/-!
# The functions on address spaces

Each of them locks the map, works on the entries of a region, and unlocks. `vm_map_copy` and
`vmspace_fork` follow entries into share maps.
-/

namespace Bsd386.Kern.Vm.Space

variable {E O M : Type} [DecidableEq E] [DecidableEq O] [LinearOrder M]

/-! ## Regions -/

/-- `vm_map_submap`. -/
def vmMapSubmap (env : Env E O M) (m : M) (start endAddr : VmOffset) (submap : M) :
    Space E O M KernReturn := do
  vmMapLock m
  let result ← onMap m fun map ↦ map.vmMapSubmap env.create start endAddr (.map submap)
  vmMapUnlock m
  return result

/-- `VM_PROT_ALL`. -/
def vmProtAll : ℕ := 7

/-- A protection with `MASK` of an entry. -/
def maskProt (e : MapEntry E (Ref O M)) (prot : ℕ) : ℕ :=
  if e.copyOnWrite then dropWrite prot else prot &&& vmProtAll

/-- The translations of a region that is mapped through a share map, from one of its entries on. -/
def protectShared (m : M) (current : MapEntry E (Ref O M)) (shareMap : M) (shareEnd : VmOffset)
    (prot : ℕ) : ℕ → Option E → Space E O M Unit
  | 0, _ => throw .endless
  | _, none => return ()
  | turns + 1, some id => do
    let share ← entryOf shareMap id
    if share.start < shareEnd then
      pmapProtect m (max share.start current.offset - current.offset + current.start)
        (min share.endAddr shareEnd - current.offset + current.start) (maskProt share prot)
      protectShared m current shareMap shareEnd prot turns (← nextOf shareMap (some id))
    else return ()

/-- `vmspace_protect` on the translations of an entry; `first` is the first entry of the region. -/
def protectPages (m : M) (first : E) (current : MapEntry E (Ref O M)) (prot : ℕ) :
    Space E O M Unit := do
  if current.isAMap then
    let shareMap ← innerMap current
    vmMapLock shareMap
    let (_, share) ← vmMapLookupEntry shareMap current.offset
    let shareEnd := current.offset + (current.endAddr - current.start)
    protectShared m current shareMap shareEnd prot (← turnsOf shareMap) share
    vmMapUnlock shareMap
  else
    pmapProtect m current.start current.endAddr (maskProt (← entryOf m first) prot)

/-- The protection that an entry gets. -/
def newProtection (setMax : Bool) (newProt oldProt : ℕ) : ℕ :=
  if setMax then newProt &&& oldProt else newProt

def setProtection (setMax : Bool) (newProt : ℕ) (e : MapEntry E (Ref O M)) :
    MapEntry E (Ref O M) :=
  { e with
    protection := newProtection setMax newProt e.protection
    maxProtection := if setMax then newProt else e.maxProtection }

/-- The first loop of `vmspace_protect`. -/
def checkProtect (m : M) (newProt : ℕ) (id : E) : Space E O M (Option KernReturn) := do
  let current ← entryOf m id
  if current.isSubMap then return some .invalidArgument
  else if newProt &&& current.maxProtection ≠ newProt then
    vmMapUnlock m
    return some .protectionFailure
  else return none

/-- The second loop. -/
def protectEntry (env : Env E O M) (m : M) (setMax : Bool) (newProt : ℕ) (endAddr : VmOffset)
    (first id : E) : Space E O M (Option KernReturn) := do
  vmMapClipEnd env m id endAddr
  let old ← entryOf m id
  modifyEntry m id (setProtection setMax newProt)
  let current ← entryOf m id
  if current.protection ≠ old.protection then
    protectPages m first current current.protection
    return none
  else return none

/-- `vmspace_protect`. -/
def vmspaceProtect (env : Env E O M) (m : M) (va sz : VmOffset) (setMax : Bool) (newProt : ℕ) :
    Space E O M KernReturn := do
  let (start, endAddr) := pageRegion va sz
  let (_, endAddr, entry) ← lockClipStart env m start endAddr
  match ← loopent m endAddr (checkProtect m newProt) (← turnsOf m) entry with
  | some result => return result
  | none =>
    match entry with
    | none =>
      vmMapUnlock m
      return .success
    | some first =>
      let _ ← loopent m endAddr (protectEntry env m setMax newProt endAddr first) (← turnsOf m)
        (some first)
      vmMapUnlock m
      return .success

/-- `vmspace_inherit`. -/
def vmspaceInherit (env : Env E O M) (m : M) (va sz : VmOffset) (newInheritance : ℕ) :
    Space E O M KernReturn := do
  let (start, endAddr) := pageRegion va sz
  if newInheritance = vmInheritNone ∨ newInheritance = vmInheritCopy ∨
      newInheritance = vmInheritShare then
    let (_, endAddr, entry) ← lockClipStart env m start endAddr
    let body := fun id ↦ do
      vmMapClipEnd env m id endAddr
      modifyEntry m id fun e ↦ { e with inheritance := newInheritance }
      return (none : Option Unit)
    let _ ← loopent m endAddr body (← turnsOf m) entry
    vmMapUnlock m
    return .success
  else return .invalidArgument

/-- `vm_map_simplify`. -/
def vmMapSimplify (m : M) (start : VmOffset) : Space E O M Unit :=
  onMap m fun map ↦ do return ((), ← map.vmMapSimplify start)

/-- `vmspace_pageable`. -/
def vmspacePageable (env : Env E O M) (m : M) (va sz : VmOffset) : Space E O M Unit := do
  let (start, endAddr) := pageRegion va sz
  let (start, endAddr, entry) ← lockClipStart env m start endAddr
  let check := fun id ↦ do
    return if (← entryOf m id).wiredCount = 0 then some () else none
  match ← loopent m endAddr check (← turnsOf m) entry with
  | some () =>
    vmMapSimplify m start
    vmMapUnlock m
  | none =>
    lockSetRecursive m
    let body := fun id ↦ do
      vmMapClipEnd env m id endAddr
      modifyEntry m id fun e ↦ { e with wiredCount := e.wiredCount - 1 }
      if (← entryOf m id).wiredCount = 0 then
        vmFaultUnwire
        return (none : Option Unit)
      else return none
    let _ ← loopent m endAddr body (← turnsOf m) entry
    lockClearRecursive m
    vmMapSimplify m start
    vmMapUnlock m

/-- The first loop of `vmspace_notpageable`. -/
def wireEntry (env : Env E O M) (m : M) (endAddr : VmOffset) (id : E) :
    Space E O M (Option Unit) := do
  vmMapClipEnd env m id endAddr
  modifyEntry m id fun e ↦ { e with wiredCount := e.wiredCount + 1 }
  let e ← entryOf m id
  if e.wiredCount = 1 ∧ ¬ e.isAMap then
    if e.needsCopy ∧ e.protection &&& vmProtWrite ≠ 0 then
      shadowEntry env m id
      return none
    else if e.object.isNone then
      allocateEntry env m id
      return none
    else return none
  else return none

/-- The second loop. -/
def wirePages (env : Env E O M) (turns : ℕ) (m : M) (id : E) : Space E O M (Option Unit) := do
  let e ← entryOf m id
  if e.wiredCount = 1 then
    vmFaultWire env m e.endAddr turns e.start
    return none
  else return none

/-- `vmspace_notpageable`. -/
def vmspaceNotpageable (env : Env E O M) (turns : ℕ) (m : M) (va sz : VmOffset) :
    Space E O M Unit := do
  let (start, endAddr) := pageRegion va sz
  let (start, endAddr, entry) ← lockClipStart env m start endAddr
  let _ ← loopent m endAddr (wireEntry env m endAddr) (← turnsOf m) entry
  lockSetRecursive m
  lockWriteToRead m
  let _ ← loopent m endAddr (wirePages env turns m) (← turnsOf m) entry
  lockClearRecursive m
  vmMapSimplify m start
  vmMapUnlock m

/-- `vmspace_allocate`: the result, and `*va` afterwards. -/
def vmspaceAllocate (env : Env E O M) (m : M) (va sz : VmOffset) (anywhere : Bool) :
    Space E O M (KernReturn × VmOffset) := do
  -- `chk4space` fails.
  if ← choose then return (.noSpace, va)
  else if sz = 0 then return (.success, va)
  else
    vmMapLock m
    let insert := fun va ↦ do
      let result ← onMap m fun map ↦
        map.vmMapInsert env.create env.coalesce none 0 va (roundPage (va + sz - oneByte))
      vmMapUnlock m
      return (result, va)
    if anywhere then
      let minOffset := (← getMap m).minOffset
      let (result, va) ← onMap m fun map ↦ do
        let (result, va, map) ← map.vmMapFind minOffset (roundPage (sz - oneByte))
        return ((result, va), map)
      if result ≠ .success then
        vmMapUnlock m
        return (result, va)
      else insert va
    else insert (truncPage va)

/-- `vmspace_delete`. -/
def vmspaceDelete (env : Env E O M) (m : M) (va sz : VmOffset) : Space E O M Unit := do
  let (start, endAddr) := pageRegion va sz
  vmMapLock m
  onMap m fun map ↦ do return ((), ← map.vmMapDelete env.create start endAddr)
  vmMapUnlock m

/-- The pages of an entry are faulted in, up to the first that fails. -/
def activatePages (env : Env E O M) (m : M) (maxProtection : ℕ) (endAddr : VmOffset) :
    ℕ → VmOffset → Space E O M (Option KernReturn)
  | 0, _ => throw .endless
  | turns + 1, adr => do
    if adr < endAddr then
      let result ← vmFault env turns m adr maxProtection
      if result ≠ .success then return some result
      else activatePages env m maxProtection endAddr turns (adr + pageSize)
    else return none

/-- `vmspace_activate`. The result of a region without pages is not initialised. -/
def vmspaceActivate (env : Env E O M) (turns : ℕ) (m : M) (va sz : VmOffset) :
    Space E O M KernReturn := do
  let (start, endAddr) := pageRegion va sz
  let (_, endAddr, entry) ← lockClipStart env m start endAddr
  lockSetRecursive m
  -- A region all of whose pages are faulted in leaves the success of the last.
  let last ←
    match entry with
    | some id => pure (if (← entryOf m id).start < endAddr then .success else env.uninitialised)
    | none => pure env.uninitialised
  let body := fun id ↦ do
    vmMapClipEnd env m id endAddr
    let e ← entryOf m id
    activatePages env m e.maxProtection e.endAddr turns e.start
  let result ← loopent m endAddr body (← turnsOf m) entry
  lockClearRecursive m
  vmMapUnlock m
  return result.getD last

/-! ## Copying -/

/-- `vm_map_entry_recycle`. -/
def vmMapEntryRecycle (m : M) (id : E) : Space E O M Unit := do
  if (← entryOf m id).wiredCount ≠ 0 then
    vmFaultUnwire
    modifyEntry m id fun e ↦ { e with wiredCount := 0 }
  else return ()

/-- `vm_fault_copy_entry`. -/
def vmFaultCopyEntry (env : Env E O M) (dstMap : M) (dstEntry : E) : Space E O M Unit := do
  allocateEntry env dstMap dstEntry
  mayPanic "vm_fault_copy_wired: page missing"

/-- `vm_map_copy_entry`. -/
def vmMapCopyEntry (env : Env E O M) (srcMap dstMap : M) (srcEntry dstEntry : E) :
    Space E O M Unit := do
  if (← entryOf srcMap srcEntry).isSubMap ∨ (← entryOf dstMap dstEntry).isSubMap then
    throw (.panic "vm_map_copy_entry: submap")
  else
    vmMapEntryRecycle dstMap dstEntry
    let src ← entryOf srcMap srcEntry
    if src.wiredCount ≠ 0 then vmFaultCopyEntry env dstMap dstEntry
    else
      -- A share map may have more than one reference.
      let su ← if (← getMap srcMap).isMainMap then pure true else choose
      if ¬ src.needsCopy ∧ su then
        pmapProtect srcMap src.start src.endAddr (dropWrite src.protection)
      let (object, offset, srcNeedsCopy) := env.objectCopy (← get) src.object src.offset
      modifyEntry dstMap dstEntry fun e ↦ { e with object, offset }
      modifyEntry srcMap srcEntry fun e ↦
        { e with needsCopy := e.needsCopy || srcNeedsCopy, copyOnWrite := true }
      modifyEntry dstMap dstEntry fun e ↦ { e with needsCopy := true, copyOnWrite := true }

/-- `vm_map_clip_start` and `vm_map_clip_end` of an entry that may be the header, which must not be
clipped. -/
def clipStartAny (env : Env E O M) (m : M) (entry : Option E) (start : VmOffset) :
    Space E O M Unit := do
  match entry with
  | some id => onMap m fun map ↦ do return ((), ← map.clipStart env.create id start)
  | none =>
    if (← getMap m).minOffset < start then throw .wildPointer else return ()

def clipEndAny (env : Env E O M) (m : M) (entry : Option E) (endAddr : VmOffset) :
    Space E O M E := do
  match entry with
  | some id =>
    vmMapClipEnd env m id endAddr
    return id
  | none => throw .wildPointer

/-- A copy that leads through a share map on one side or on both: the part of `vm_map_copy` between
the clipping of two entries and the next pair. `copy` is `vm_map_copy` itself. -/
def copyShared (env : Env E O M) (copy : M → M → VmOffset → VmOffset → VmOffset →
      Space E O M KernReturn)
    (dstMap srcMap : M) (dst src : MapEntry E (Ref O M)) : Space E O M Unit := do
  let newSize := dst.endAddr - dst.start
  let (newSrcMap, newSrcStart) ←
    if src.isAMap then pure (← innerMap src, src.offset)
    else
      lockSetRecursive srcMap
      pure (srcMap, src.start)
  let (newDstMap, newDstStart) ←
    if dst.isAMap then
      let newDstMap ← innerMap dst
      let newDstEnd := dst.offset + newSize
      if newDstMap ≠ newSrcMap then
        vmMapLock newDstMap
        onMap newDstMap fun map ↦ do return ((), ← map.vmMapDelete env.create dst.offset newDstEnd)
        let _ ← onMap newDstMap fun map ↦
          map.vmMapInsert env.create env.coalesce none 0 dst.offset newDstEnd
        vmMapUnlock newDstMap
        pure (newDstMap, dst.offset)
      else pure (newDstMap, dst.offset)
    else
      lockSetRecursive dstMap
      pure (dstMap, dst.start)
  let _ ← copy newDstMap newSrcMap newDstStart newSize newSrcStart
  if dstMap = newDstMap then lockClearRecursive dstMap
  if srcMap = newSrcMap then lockClearRecursive srcMap

/-- The loop of `vm_map_copy` over pairs of entries. `src_destroy` has been set to `FALSE`, so
nothing is deleted here. -/
def copyLoop (env : Env E O M) (copy : M → M → VmOffset → VmOffset → VmOffset →
      Space E O M KernReturn)
    (dstMap srcMap : M) (srcEnd dstEnd : VmOffset) :
    ℕ → VmOffset → Option E → Option E → Space E O M Unit
  | 0, _, _, _ => throw .endless
  | turns + 1, srcStart, srcEntry, dstEntry => do
    if srcStart < srcEnd then
      let srcId ← clipEndAny env srcMap srcEntry srcEnd
      let dstId ← clipEndAny env dstMap dstEntry dstEnd
      -- Each entry is clipped to the length of the other.
      let dst ← entryOf dstMap dstId
      vmMapClipEnd env srcMap srcId
        ((← entryOf srcMap srcId).start + (dst.endAddr - dst.start))
      let src ← entryOf srcMap srcId
      vmMapClipEnd env dstMap dstId
        ((← entryOf dstMap dstId).start + (src.endAddr - src.start))
      let src ← entryOf srcMap srcId
      let dst ← entryOf dstMap dstId
      if ¬ src.isAMap ∧ ¬ dst.isAMap then vmMapCopyEntry env srcMap dstMap srcId dstId
      else copyShared env copy dstMap srcMap dst src
      copyLoop env copy dstMap srcMap srcEnd dstEnd turns (← entryOf srcMap srcId).endAddr
        (← nextOf srcMap (some srcId)) (← nextOf dstMap (some dstId))
    else return ()

/-- The checks of `vm_map_copy`, and the allocation of the destination. -/
def copyChecks (env : Env E O M) (dstMap srcMap : M) (dstAddr dstEnd srcAddr srcEnd : VmOffset)
    (dstAlloc : Bool) : Space E O M KernReturn := do
  if (← getMap srcMap).isMainMap ∧ (← getMap dstMap).isMainMap then
    if ← onMap srcMap fun map ↦ map.vmMapCheckProtection srcAddr srcEnd vmProtRead then
      if dstAlloc then
        onMap dstMap fun map ↦ map.vmMapInsert env.create env.coalesce none 0 dstAddr dstEnd
      else if ← onMap dstMap fun map ↦ map.vmMapCheckProtection dstAddr dstEnd vmProtWrite then
        return .success
      else return .protectionFailure
    else return .protectionFailure
  else return .success

/-- From the first lookups on to the end of the loop. -/
def copyRegion (env : Env E O M) (copy : M → M → VmOffset → VmOffset → VmOffset →
      Space E O M KernReturn)
    (turns : ℕ) (dstMap srcMap : M) (dstAddr dstEnd srcAddr srcEnd : VmOffset) :
    Space E O M Unit := do
  let (_, srcEntry) ← vmMapLookupEntry srcMap srcAddr
  clipStartAny env srcMap srcEntry srcAddr
  let (_, dstEntry) ← vmMapLookupEntry dstMap dstAddr
  clipStartAny env dstMap dstEntry dstAddr
  -- One entry is at the same place in both only if the maps are the same.
  let srcEntry ←
    if srcMap = dstMap ∧ srcEntry = dstEntry then
      pure (← vmMapLookupEntry srcMap srcAddr).2
    else pure srcEntry
  if srcMap = dstMap ∧ srcEntry = dstEntry then return ()
  else copyLoop env copy dstMap srcMap srcEnd dstEnd turns srcAddr srcEntry dstEntry

/-- The locks of two maps, in the order of their addresses. -/
def lockBoth (dstMap srcMap : M) : Space E O M Unit := do
  if srcMap = dstMap then vmMapLock srcMap
  else if srcMap < dstMap then
    vmMapLock srcMap
    vmMapLock dstMap
  else
    vmMapLock dstMap
    vmMapLock srcMap

def unlockBoth (dstMap srcMap : M) : Space E O M Unit := do
  vmMapUnlock srcMap
  if srcMap ≠ dstMap then vmMapUnlock dstMap else return ()

/-- The end of `vm_map_copy`, from `Return` on. -/
def copyReturn (env : Env E O M) (dstMap srcMap : M) (srcAddr srcEnd : VmOffset)
    (oldSrcDestroy : Bool) (result : KernReturn) : Space E O M KernReturn := do
  if oldSrcDestroy then
    onMap srcMap fun map ↦ do return ((), ← map.vmMapDelete env.create srcAddr srcEnd)
  unlockBoth dstMap srcMap
  return result

/-- `vm_map_copy`. -/
def vmMapCopy (env : Env E O M) : ℕ → M → M → VmOffset → VmOffset → VmOffset → Bool → Bool →
    Space E O M KernReturn
  | 0, _, _, _, _, _, _, _ => throw .endless
  | turns + 1, dstMap, srcMap, dstAddr, len, srcAddr, dstAlloc, srcDestroy => do
    let srcEnd := srcAddr + len
    let dstEnd := dstAddr + len
    if dstEnd < dstAddr ∨ srcEnd < srcAddr then return .noSpace
    else
      lockBoth dstMap srcMap
      let result ← copyChecks env dstMap srcMap dstAddr dstEnd srcAddr srcEnd dstAlloc
      if result ≠ .success then copyReturn env dstMap srcMap srcAddr srcEnd srcDestroy result
      else
        copyRegion env (fun dst src dstAddr len srcAddr ↦
          vmMapCopy env turns dst src dstAddr len srcAddr false false)
          turns dstMap srcMap dstAddr dstEnd srcAddr srcEnd
        copyReturn env dstMap srcMap srcAddr srcEnd srcDestroy .success

/-! ## Forking -/

/-- `vm_map_entry_create` and `vm_map_entry_link` at the end of a map, for a copy of an entry. -/
def appendEntry (env : Env E O M) (m : M) (e : MapEntry E (Ref O M)) : Space E O M E := do
  let map ← getMap m
  let id := (map.entryCreate env.create).id
  setMap m (map.link (map.prev none) { e with id })
  return id

/-- A share map for an entry that does not use one. -/
def makeShareMap (env : Env E O M) (oldMap : M) (id : E) : Space E O M Unit := do
  let e ← entryOf oldMap id
  let shareMap := env.mapCreate (← get)
  setMap shareMap { vmMapInit e.start e.endAddr with isMainMap := false }
  let _ ← appendEntry env shareMap e
  modifyEntry oldMap id fun e ↦
    { e with isAMap := true, object := some (.map shareMap), offset := e.start }

/-- What `vmspace_fork` does for an entry of the old map. -/
def forkEntry (env : Env E O M) (turns : ℕ) (newMap oldMap : M) (id : E) : Space E O M Unit := do
  let inheritance := (← entryOf oldMap id).inheritance
  if inheritance = vmInheritShare then
    if (← entryOf oldMap id).isAMap then
      let _ ← appendEntry env newMap (← entryOf oldMap id)
    else
      makeShareMap env oldMap id
      let _ ← appendEntry env newMap (← entryOf oldMap id)
  else if inheritance = vmInheritCopy then
    let e ← entryOf oldMap id
    let new ← appendEntry env newMap { e with wiredCount := 0, object := none, isAMap := false }
    if e.isAMap then
      let _ ← vmMapCopy env turns newMap (← innerMap e) e.start (e.endAddr - e.start) e.offset
        false false
    else vmMapCopyEntry env oldMap newMap id new
  else return ()

/-- The loop of `vmspace_fork`. -/
def forkLoop (env : Env E O M) (newMap oldMap : M) : ℕ → Option E → Space E O M Unit
  | 0, _ => throw .endless
  | _, none => return ()
  | turns + 1, some id => do
    forkEntry env turns newMap oldMap id
    forkLoop env newMap oldMap turns (← nextOf oldMap (some id))

/-- `vmspace_fork`: the map of the new address space. -/
def vmspaceFork (env : Env E O M) (turns : ℕ) (oldMap : M) : Space E O M M := do
  vmMapLock oldMap
  let newMap := env.mapCreate (← get)
  let old ← getMap oldMap
  setMap newMap (vmMapInit old.minOffset old.maxOffset)
  forkLoop env newMap oldMap turns (← nextOf oldMap none)
  let size := (← getMap oldMap).size
  setMap newMap { ← getMap newMap with size }
  vmMapUnlock oldMap
  return newMap

end Bsd386.Kern.Vm.Space
