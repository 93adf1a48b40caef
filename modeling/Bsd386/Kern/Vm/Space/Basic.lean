import Bsd386.Kern.Lock.Basic
import Bsd386.Kern.Vm.Map.Find
import Bsd386.Kern.Vm.Map.Pages

/-!
# Address spaces

The functions of `kern/vm/map.c` that lock maps. An entry of a main map may lead to a share map, and
one of the kernel map to a submap, so they work on all the maps there are. Of a lock the model has
what the running process holds; a process that waits for itself does not return.

What else they depend on is left open: the objects that are made, and a list of choices for all that
other processes and the pages decide. Reference counts are not part of the model, and neither are
translations, except for the calls of `pmap_protect`, which are recorded.
-/

namespace Bsd386.Kern.Vm

/-- What an entry maps: the union of the pointers to an object and to a map. -/
inductive Ref (O M : Type)
  | object (o : O)
  | map (m : M)
  deriving DecidableEq

/-- `VM_INHERIT_SHARE`, `VM_INHERIT_COPY` and `VM_INHERIT_NONE`. -/
def vmInheritShare : ℕ := 0

def vmInheritCopy : ℕ := 1

def vmInheritNone : ℕ := 2

/-! ## Locks -/

/-- What a process holds of a lock: shared holds, exclusive holds, the `recursion_depth` that it
has added, and whether the lock is recursive for it. -/
structure Hold where
  reads : ℕ
  writes : ℤ
  depth : ℕ
  recursive : Bool
  deriving DecidableEq

namespace Hold

/-- Nothing is held. -/
def free : Hold := ⟨0, 0, 0, false⟩

/-- A shared and an exclusive hold more. -/
def addRead (h : Hold) : Hold := { h with reads := h.reads + 1 }

def addWrite (h : Hold) : Hold :=
  if h.recursive then { h with depth := h.depth + 1 } else { h with writes := h.writes + 1 }

/-- An exclusive hold less. -/
def releaseWrite (h : Hold) : Hold :=
  if h.depth ≠ 0 then { h with depth := h.depth - 1 } else { h with writes := h.writes - 1 }

/-- `lock_write`. -/
def lockWrite (h : Hold) : Except Fault Hold :=
  if h.recursive then .ok h.addWrite
  else if h.reads ≠ 0 ∨ 0 < h.writes then .error .endless
  else .ok h.addWrite

/-- `lock_done`. -/
def lockDone (h : Hold) : Hold :=
  if h.reads ≠ 0 then { h with reads := h.reads - 1 } else h.releaseWrite

/-- `lock_read`. -/
def lockRead (h : Hold) : Except Fault Hold :=
  if h.recursive then .ok h.addRead
  else if 0 < h.writes then .error .endless
  else .ok h.addRead

/-- `lock_read_to_write`: whether the upgrade has failed, as it does if another process has asked
for one before. -/
def lockReadToWrite (h : Hold) (asked : Bool) : Except Fault (Bool × Hold) :=
  let less := { h with reads := h.reads - 1 }
  if h.recursive then .ok (false, less.addWrite)
  else if asked then .ok (true, less)
  else if less.reads ≠ 0 then .error .endless
  else .ok (false, less.addWrite)

/-- `lock_write_to_read`. -/
def lockWriteToRead (h : Hold) : Hold := h.addRead.releaseWrite

/-- `lock_set_recursive` and `lock_clear_recursive`. -/
def lockSetRecursive (h : Hold) : Except Fault Hold :=
  if h.writes ≤ 0 then .error (.panic "lock_set_recursive: don't have write lock")
  else .ok { h with recursive := true }

def lockClearRecursive (h : Hold) : Except Fault Hold :=
  if ¬ h.recursive then .error (.panic "lock_clear_recursive: wrong thread")
  else if h.depth = 0 then .ok { h with recursive := false }
  else .ok h

end Hold

/-! ## The maps -/

/-- A call of `pmap_protect` for the translations of a map. -/
structure PmapProtect (M : Type) where
  map : M
  start : VmOffset
  endAddr : VmOffset
  prot : ℕ

/-- All maps, what the process holds of their locks, and the choices to come. -/
structure World (E O M : Type) where
  maps : M → Option (VmMap E (Ref O M))
  held : M → Hold
  choices : List Bool
  protects : List (PmapProtect M)

/-- What the functions get from outside: memory for entries and maps, new objects, the object and
the offset that `vm_object_copy` gives the destination and whether the source needs a copy, and a
variable that is not initialised. -/
structure Env (E O M : Type) where
  create : Create E (Ref O M)
  coalesce : Coalesce (Ref O M)
  mapCreate : World E O M → M
  objectAllocate : World E O M → O
  objectCopy : World E O M → Option (Ref O M) → VmOffset → Option (Ref O M) × VmOffset × Bool
  uninitialised : KernReturn

abbrev Space (E O M : Type) := StateT (World E O M) (Except Fault)

variable {E O M : Type} [DecidableEq E] [DecidableEq O] [LinearOrder M]

namespace Space

/-- One of the choices; a process that has to choose more often does not return. -/
def choose : Space E O M Bool := do
  match (← get).choices with
  | [] => throw .endless
  | choice :: choices =>
    modify fun w ↦ { w with choices }
    return choice

/-- A `panic` that depends on the pages. -/
def mayPanic (message : String) : Space E O M Unit := do
  if ← choose then throw (.panic message) else return ()

def getMap (m : M) : Space E O M (VmMap E (Ref O M)) := do
  match (← get).maps m with
  | none => throw .wildPointer
  | some map => return map

def setMap (m : M) (map : VmMap E (Ref O M)) : Space E O M Unit :=
  modify fun w ↦ { w with maps := fun n ↦ if n = m then some map else w.maps n }

/-- An operation on one map. -/
def onMap {α : Type} (m : M) (f : VmMap E (Ref O M) → Except Fault (α × VmMap E (Ref O M))) :
    Space E O M α := do
  let (a, map) ← StateT.lift (f (← getMap m))
  setMap m map
  return a

def entryOf (m : M) (id : E) : Space E O M (MapEntry E (Ref O M)) := do
  StateT.lift ((← getMap m).entry id)

def modifyEntry (m : M) (id : E) (edit : MapEntry E (Ref O M) → MapEntry E (Ref O M)) :
    Space E O M Unit := do
  setMap m ((← getMap m).modify id edit)

def nextOf (m : M) (entry : Option E) : Space E O M (Option E) := do
  return (← getMap m).next entry

/-- `vm_map_lookup_entry`. -/
def vmMapLookupEntry (m : M) (address : VmOffset) : Space E O M (Bool × Option E) :=
  onMap m fun map ↦ do
    let (found, entry, map) ← map.vmMapLookupEntry address
    return ((found, entry), map)

/-- `vm_map_clip_end` of an entry that is not the header. -/
def vmMapClipEnd (env : Env E O M) (m : M) (id : E) (endAddr : VmOffset) : Space E O M Unit :=
  onMap m fun map ↦ do return ((), ← map.clipEnd env.create id endAddr)

/-- A bound on the turns of a loop over a map. -/
def turnsOf (m : M) : Space E O M ℕ := do return (← getMap m).entries.length + 1

/-- The share map or submap of an entry. -/
def innerMap (e : MapEntry E (Ref O M)) : Space E O M M :=
  match e.object with
  | some (.map m) => return m
  | some (.object _) => throw .wildPointer
  | none => throw .nullPointer

def pmapProtect (map : M) (start endAddr : VmOffset) (prot : ℕ) : Space E O M Unit :=
  modify fun w ↦ { w with protects := w.protects ++ [{ map, start, endAddr, prot }] }

/-! ## Locking -/

def onHold {α : Type} (m : M) (f : Hold → Except Fault (α × Hold)) : Space E O M α := do
  let (a, hold) ← StateT.lift (f ((← get).held m))
  modify fun w ↦ { w with held := fun n ↦ if n = m then hold else w.held n }
  return a

/-- `vm_map_lock`. -/
def vmMapLock (m : M) : Space E O M Unit :=
  onHold m fun hold ↦ do return ((), ← hold.lockWrite)

/-- `vm_map_unlock` and `vm_map_unlock_read`. -/
def vmMapUnlock (m : M) : Space E O M Unit :=
  onHold m fun hold ↦ .ok ((), hold.lockDone)

/-- `vm_map_lock_read`. -/
def vmMapLockRead (m : M) : Space E O M Unit :=
  onHold m fun hold ↦ do return ((), ← hold.lockRead)

def lockReadToWrite (m : M) : Space E O M Bool := do
  let asked ← choose
  onHold m fun hold ↦ hold.lockReadToWrite asked

def lockWriteToRead (m : M) : Space E O M Unit :=
  onHold m fun hold ↦ .ok ((), hold.lockWriteToRead)

def lockSetRecursive (m : M) : Space E O M Unit :=
  onHold m fun hold ↦ do return ((), ← hold.lockSetRecursive)

def lockClearRecursive (m : M) : Space E O M Unit :=
  onHold m fun hold ↦ do return ((), ← hold.lockClearRecursive)

/-- `VM_MAP_LOCK_CLIP_START`. -/
def lockClipStart (env : Env E O M) (m : M) (start endAddr : VmOffset) :
    Space E O M (VmOffset × VmOffset × Option E) := do
  vmMapLock m
  onMap m fun map ↦ do
    let (start, endAddr, entry, map) ← map.lockClipStart env.create start endAddr
    return ((start, endAddr, entry), map)

/-- `VM_MAP_LOOPENT`; the body may leave the loop with a value. -/
def loopent {α : Type} (m : M) (endAddr : VmOffset) (body : E → Space E O M (Option α)) :
    ℕ → Option E → Space E O M (Option α)
  | 0, _ => throw .endless
  | _, none => return none
  | turns + 1, some id => do
    if (← entryOf m id).start < endAddr then
      match ← body id with
      | some a => return some a
      | none => loopent m endAddr body turns (← nextOf m (some id))
    else return none

/-! ## Lookup -/

/-- What `vm_map_lookup` returns besides `*var_map`, which is `map`. -/
structure Lookup (E O M : Type) where
  map : M
  entry : E
  object : Option (Ref O M)
  offset : VmOffset
  prot : ℕ
  wired : Bool
  singleUse : Bool

/-- The hint, if the address is in it, or else what `vm_map_lookup_entry` finds. -/
def hintOrLookup (m : M) (vaddr : VmOffset) : Space E O M (Option E) := do
  match (← getMap m).hint with
  | some id =>
    let e ← entryOf m id
    if e.start ≤ vaddr ∧ vaddr < e.endAddr then return some id
    else
      let (found, entry) ← vmMapLookupEntry m vaddr
      return if found then entry else none
  | none =>
    let (found, entry) ← vmMapLookupEntry m vaddr
    return if found then entry else none

/-- Change an entry under an exclusive lock. If the upgrade fails the map is unlocked too, and the
lookup has to be made again. -/
def upgraded (map shareMap : M) (change : Space E O M Unit) : Space E O M Bool := do
  if ← lockReadToWrite shareMap then
    if shareMap ≠ map then
      vmMapUnlock map
      return true
    else return true
  else
    change
    lockWriteToRead shareMap
    return false

/-- `vm_object_shadow` for an entry that needs a copy. -/
def shadowEntry (env : Env E O M) (m : M) (id : E) : Space E O M Unit := do
  let object := env.objectAllocate (← get)
  modifyEntry m id fun e ↦
  { e with object := some (.object object), offset := 0, needsCopy := false }

/-- A new object for an entry that has none. -/
def allocateEntry (env : Env E O M) (m : M) (id : E) : Space E O M Unit := do
  let object := env.objectAllocate (← get)
  modifyEntry m id fun e ↦ { e with object := some (.object object), offset := 0 }

/-- The object, offset and protection that `vm_map_lookup` returns. -/
def lookupResult (map : M) (outEntry : E) (shareMap : M) (entry : E) (shareOffset : VmOffset)
    (prot : ℕ) (wired single : Bool) : Space E O M (Option (Lookup E O M)) := do
  let e ← entryOf shareMap entry
  let offset := shareOffset - e.start + e.offset
  if single then
    return some
      { map, entry := outEntry, object := e.object, offset, prot, wired, singleUse := true }
  else
    -- A share map may have more than one reference.
    let singleUse ← choose
    return some { map, entry := outEntry, object := e.object, offset, prot, wired, singleUse }

/-- An object is made for an entry that has none. -/
def lookupAllocated (env : Env E O M) (map : M) (outEntry : E) (shareMap : M) (entry : E)
    (shareOffset : VmOffset) (prot : ℕ) (wired single : Bool) :
    Space E O M (Option (Lookup E O M)) := do
  if (← entryOf shareMap entry).object.isNone then
    if ← upgraded map shareMap (allocateEntry env shareMap entry) then return none
    else lookupResult map outEntry shareMap entry shareOffset prot wired single
  else lookupResult map outEntry shareMap entry shareOffset prot wired single

/-- The end of `vm_map_lookup`, for an entry of the map or of its share map: a copy that has been
put off is made, if it is to be written. `none` means that the lookup has to be made again. -/
def lookupObject (env : Env E O M) (map : M) (outEntry : E) (shareMap : M) (entry : E)
    (shareOffset : VmOffset) (prot faultType : ℕ) (wired single : Bool) :
    Space E O M (Option (Lookup E O M)) := do
  if (← entryOf shareMap entry).needsCopy then
    if faultType &&& vmProtWrite ≠ 0 then
      if ← upgraded map shareMap (shadowEntry env shareMap entry) then return none
      else lookupAllocated env map outEntry shareMap entry shareOffset prot wired single
    else lookupAllocated env map outEntry shareMap entry shareOffset (dropWrite prot) wired single
  else lookupAllocated env map outEntry shareMap entry shareOffset prot wired single

/-- `vm_map_lookup`. -/
def vmMapLookup (env : Env E O M) :
    ℕ → M → VmOffset → ℕ → Space E O M (Except KernReturn (Lookup E O M))
  | 0, _, _, _ => throw .endless
  | turns + 1, map, vaddr, faultType => do
    vmMapLockRead map
    match ← hintOrLookup map vaddr with
    | none =>
      vmMapUnlock map
      return .error .invalidAddress
    | some id =>
      let e ← entryOf map id
      if e.isSubMap then
        let subMap ← innerMap e
        vmMapUnlock map
        vmMapLookup env turns subMap vaddr faultType
      else if faultType &&& e.protection ≠ faultType then
        vmMapUnlock map
        return .error .protectionFailure
      else
        let wired : Bool := e.wiredCount ≠ 0
        let faultType := if wired then e.protection else faultType
        if e.isAMap then
          let shareMap ← innerMap e
          let shareOffset := vaddr - e.start + e.offset
          vmMapLockRead shareMap
          match ← vmMapLookupEntry shareMap shareOffset with
          | (true, some entry) =>
            match ← lookupObject env map id shareMap entry shareOffset e.protection faultType
                wired false with
            | some found => return .ok found
            | none => vmMapLookup env turns map vaddr faultType
          | _ =>
            vmMapUnlock shareMap
            vmMapUnlock map
            return .error .invalidAddress
        else
          match ← lookupObject env map id map id vaddr e.protection faultType wired true with
          | some found => return .ok found
          | none => vmMapLookup env turns map vaddr faultType

/-- `vm_map_lookup_done`. -/
def vmMapLookupDone (map : M) (entry : E) : Space E O M Unit := do
  let e ← entryOf map entry
  if e.isAMap then
    vmMapUnlock (← innerMap e)
    vmMapUnlock map
  else vmMapUnlock map

/-! ## Faults -/

/-- `vm_fault`, as far as it concerns the maps: the lookup is done with before the return, or on the
way, and may have to be made again. -/
def vmFault (env : Env E O M) : ℕ → M → VmOffset → ℕ → Space E O M KernReturn
  | 0, _, _, _ => throw .endless
  | turns + 1, map, vaddr, faultType => do
    match ← vmMapLookup env turns map vaddr faultType with
    | .error result => return result
    | .ok found =>
      let faultType := if found.wired then found.prot else faultType
      let sleeps ← choose
      vmMapLookupDone found.map found.entry
      if ← choose then vmFault env turns found.map vaddr faultType
      else if sleeps then
        if ← choose then return .protectionFailure
        else
          match ← vmMapLookup env turns found.map vaddr (dropWrite faultType) with
          | .error result => return result
          | .ok again =>
            vmMapLookupDone again.map again.entry
            if again.object = found.object ∧ again.offset = found.offset then return .success
            else vmFault env turns again.map vaddr faultType
      else if ← choose then return .noSpace
      else return .success

/-- `PAGE_SIZE`. -/
def pageSize : VmOffset := ⟨4096, by decide⟩

/-- `vm_fault_wire`. -/
def vmFaultWire (env : Env E O M) (m : M) (endAddr : VmOffset) :
    ℕ → VmOffset → Space E O M Unit
  | 0, _ => throw .endless
  | turns + 1, va => do
    if va < endAddr then
      let _ ← vmFault env turns m va 0
      vmFaultWire env m endAddr turns (va + pageSize)
    else return ()

/-- `vm_fault_unwire`. -/
def vmFaultUnwire : Space E O M Unit := mayPanic "unwire: page not in pmap"

end Space

end Bsd386.Kern.Vm
