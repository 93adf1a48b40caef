import Mathlib.Algebra.Group.Int.Defs
import Mathlib.Algebra.Group.Pi.Basic
import Bsd386.Kern.Vm.Map.Pages

/-!
# The page fault handler

`vm_fault` in `kern/vm/fault.c` goes down a chain of shadow objects until it finds the page or the
end of the chain. On the way it holds a reference to the top object, counts itself among those that
page in the objects it is at, and keeps pages busy; each of its exits has to undo what it has done
so far.

The handler sleeps, and everything may change meanwhile. What it reads between two sleeps is a view
of memory; what it writes is a ledger of its own, which starts empty and is added to what others do
to the same counters. Translations, page queues and statistics are left out, and so are the
diagnostics and the trace.
-/

namespace Bsd386.Kern.Vm.PageFault

/-- The results of `vm_pager_get`. -/
inductive PagerResult
  | ok
  | bad
  | fail
  deriving DecidableEq

/-- What `vm_map_lookup` finds. -/
structure Found (M O : Type) where
  map : M
  object : O
  offset : VmOffset
  prot : ℕ
  wired : Bool

/-- What the handler sees between two sleeps: the answers of `vm_map_lookup`, `vm_page_lookup`,
`vm_page_alloc`, `chk4space`, `vm_pager_get` and `vm_pager_has_page`, and the fields of pages and
objects. -/
structure View (M O P : Type) where
  lookup : M → VmOffset → ℕ → Except KernReturn (Found M O)
  resident : O → VmOffset → Option P
  free : O → VmOffset → Option P
  space : M → Bool
  pagerGet : O → VmOffset → PagerResult
  hasPage : O → VmOffset → Bool
  busy : P → Bool
  pageLock : P → ℕ
  pager : O → Bool
  pagingOffset : O → VmOffset
  shadow : O → Option O
  shadowOffset : O → VmOffset
  copy : O → Option O
  refCount : O → ℤ

/-- What the handler has added to `paging_in_progress`, `ref_count` and `busy`, the pages it has
allocated that have no contents, and the lookups it has not called `vm_map_lookup_done` for. -/
structure Ledger (O P : Type) where
  pagingInProgress : O → ℤ
  refCount : O → ℤ
  busy : P → ℤ
  fake : P → Bool
  lookups : ℤ

/-- The ledger, and the views that are still to come. -/
structure Handler (M O P : Type) extends Ledger O P where
  views : List (View M O P)

abbrev Handling (M O P : Type) := StateT (Handler M O P) (Except Fault)

/-- The local variables of `vm_fault`. -/
structure Locals (M O P : Type) where
  map : M
  faultType : ℕ
  firstObject : O
  firstOffset : VmOffset
  wired : Bool
  object : O
  offset : VmOffset
  m : Option P
  firstM : Option P
  lookupStillValid : Bool

/-- The points of `vm_fault` that are jumped to or looped at: `RetryFault`, the loop down the chain,
the end of it, the loop for the copy object, and the end of that. -/
inductive Place (M O P : Type)
  | retry (map : M) (faultType : ℕ)
  | search (v : Locals M O P)
  | found (v : Locals M O P)
  | copy (v : Locals M O P)
  | enter (v : Locals M O P)

/-- How the code from one of these points on ends. -/
inductive Next (M O P : Type)
  | goto (place : Place M O P)
  | return_ (result : KernReturn)

variable {M O P : Type} [DecidableEq O] [DecidableEq P]

/-! ## Memory -/

/-- Read memory. A handler that outlasts the views does not return. -/
def see : Handling M O P (View M O P) := do
  match (← get).views with
  | [] => throw .endless
  | view :: _ => return view

/-- Sleep. -/
def block : Handling M O P Unit := modify fun h ↦ { h with views := h.views.tail }

/-- Assignments to the counters of an object. -/
def addPaging (object : O) (n : ℤ) : Handling M O P Unit :=
  modify fun h ↦ { h with pagingInProgress := h.pagingInProgress + Pi.single object n }

def addReference (object : O) (n : ℤ) : Handling M O P Unit :=
  modify fun h ↦ { h with refCount := h.refCount + Pi.single object n }

/-- Assignments to the flags of a page. -/
def setBusy (m : P) : Handling M O P Unit :=
  modify fun h ↦ { h with busy := h.busy + Pi.single m 1 }

def setFake (m : P) (fake : Bool) : Handling M O P Unit :=
  modify fun h ↦ { h with fake := fun p ↦ if p = m then fake else h.fake p }

/-- `PAGE_WAKEUP`. -/
def pageWakeup (m : P) : Handling M O P Unit :=
  modify fun h ↦ { h with busy := h.busy - Pi.single m 1 }

/-- `FREE_PAGE`. -/
def freePage (m : P) : Handling M O P Unit := do
  pageWakeup m
  setFake m false

/-- `RELEASE_PAGE`. -/
def releasePage (m : P) : Handling M O P Unit := pageWakeup m

/-- `vm_page_alloc`. -/
def vmPageAlloc (object : O) (offset : VmOffset) : Handling M O P (Option P) := do
  match (← see).free object offset with
  | none => return none
  | some m =>
    setBusy m
    setFake m true
    return some m

/-- `vm_object_deallocate`. -/
def vmObjectDeallocate (object : O) : Handling M O P Unit := do
  addReference object (-1)
  block

/-- `vm_map_lookup`. -/
def vmMapLookup (map : M) (vaddr : VmOffset) (faultType : ℕ) :
    Handling M O P (Except KernReturn (Found M O)) := do
  block
  match (← see).lookup map vaddr faultType with
  | .error result => return .error result
  | .ok found =>
    modify fun h ↦ { h with lookups := h.lookups + 1 }
    return .ok found

/-- A page that the pager has put in the place of another is busy instead of it. -/
def exchange (m new : P) : Handling M O P Unit := do
  freePage m
  setBusy new

/-- A pointer to a page. -/
def page (m : Option P) : Handling M O P P := StateT.lift (deref m)

/-! ## Recovery -/

/-- `UNLOCK_MAP`. -/
def unlockMap (v : Locals M O P) : Handling M O P (Locals M O P) := do
  if v.lookupStillValid then
    modify fun h ↦ { h with lookups := h.lookups - 1 }
    return { v with lookupStillValid := false }
  else return v

/-- `UNLOCK_THINGS`. -/
def unlockThings (v : Locals M O P) : Handling M O P (Locals M O P) := do
  addPaging v.object (-1)
  if v.object ≠ v.firstObject then
    freePage (← page v.firstM)
    addPaging v.firstObject (-1)
    unlockMap v
  else unlockMap v

/-- `UNLOCK_AND_DEALLOCATE`. -/
def unlockAndDeallocate (v : Locals M O P) : Handling M O P Unit := do
  let v ← unlockThings v
  vmObjectDeallocate v.firstObject

/-- `UNLOCK_THINGS`, `PAGE_WAIT`, and back to the beginning. -/
def waitForPage (v : Locals M O P) : Handling M O P (Next M O P) := do
  let v ← unlockThings v
  block
  vmObjectDeallocate v.firstObject
  return .goto (.retry v.map v.faultType)

/-- `UNLOCK_AND_DEALLOCATE`, `vm_page_wait`, and back to the beginning. -/
def waitForMemory (v : Locals M O P) : Handling M O P (Next M O P) := do
  unlockAndDeallocate v
  block
  return .goto (.retry v.map v.faultType)

/-! ## The search -/

/-- From `RetryFault` on. -/
def lookupFirst (vaddr : VmOffset) (map : M) (faultType : ℕ) : Handling M O P (Next M O P) := do
  match ← vmMapLookup map vaddr faultType with
  | .error result => return .return_ result
  | .ok found =>
    addReference found.object 1
    addPaging found.object 1
    return .goto (.search {
      map := found.map
      faultType := if found.wired then found.prot else faultType
      firstObject := found.object
      firstOffset := found.offset
      wired := found.wired
      object := found.object
      offset := found.offset
      m := none
      firstM := none
      lookupStillValid := true })

/-- A page that is present is waited for, if it is in use or locked, or else taken. -/
def residentPage (v : Locals M O P) (m : P) : Handling M O P (Next M O P) := do
  let view ← see
  if view.busy m then waitForPage v
  else if v.faultType &&& view.pageLock m ≠ 0 then waitForPage v
  else
    setBusy m
    return .goto (.found { v with m := some m })

/-- The end of the chain: the page of the top object is filled with zeros. -/
def zeroFill (v : Locals M O P) : Handling M O P (Next M O P) := do
  if v.object ≠ v.firstObject then
    addPaging v.object (-1)
    let m ← page v.firstM
    setFake m false
    return .goto (.found
      { v with
        object := v.firstObject
        offset := v.firstOffset
        m := some m
        firstM := none })
  else
    let m ← page v.m
    setFake m false
    return .goto (.found { v with m := some m, firstM := none })

/-- One object down the chain. -/
def followShadow (v : Locals M O P) : Handling M O P (Next M O P) := do
  let view ← see
  let firstM := if v.object = v.firstObject then v.m else v.firstM
  let offset := v.offset + view.shadowOffset v.object
  match view.shadow v.object with
  | none => zeroFill { v with firstM, offset }
  | some next =>
    if v.object ≠ v.firstObject then
      addPaging v.object (-1)
      addPaging next 1
      return .goto (.search { v with firstM, offset, object := next })
    else
      addPaging next 1
      return .goto (.search { v with firstM, offset, object := next })

/-- The page is sought in the pager of the object. -/
def Fetches (changeWiring : Bool) (view : View M O P) (v : Locals M O P) : Prop :=
  view.pager v.object ∧ (¬ changeWiring ∨ v.wired)

omit [DecidableEq O] [DecidableEq P] in
instance (changeWiring : Bool) (view : View M O P) (v : Locals M O P) :
    Decidable (Fetches changeWiring view v) :=
  inferInstanceAs (Decidable (_ ∧ _))

/-- `vm_pager_get` and what follows it. -/
def fetchPage (v : Locals M O P) : Handling M O P (Next M O P) := do
  let v ← unlockMap v
  let m ← page v.m
  let result := (← see).pagerGet v.object v.offset
  block
  if result = .ok then
    let new ← page ((← see).resident v.object v.offset)
    exchange m new
    setFake new false
    return .goto (.found { v with m := some new })
  else if v.object ≠ v.firstObject then
    freePage m
    if result = .bad then
      unlockAndDeallocate v
      return .return_ .protectionFailure
    else followShadow v
  else followShadow v

/-- A page that is not present. -/
def missingPage (changeWiring : Bool) (v : Locals M O P) : Handling M O P (Next M O P) := do
  let view ← see
  if Fetches changeWiring view v ∨ v.object = v.firstObject then
    if ¬ view.space v.map then
      unlockAndDeallocate v
      return .return_ .noSpace
    else
      match ← vmPageAlloc v.object v.offset with
      | none => waitForMemory v
      | some m =>
        let v := { v with m := some m }
        if Fetches changeWiring view v then fetchPage v else followShadow v
  else followShadow { v with m := none }

/-- The body of the loop down the chain. -/
def searchTurn (changeWiring : Bool) (v : Locals M O P) : Handling M O P (Next M O P) := do
  match (← see).resident v.object v.offset with
  | some m => residentPage v m
  | none => missingPage changeWiring v

/-- A page that is not in the top object is copied there, if it is to be written. -/
def copyUp (v : Locals M O P) : Handling M O P (Next M O P) := do
  if v.object ≠ v.firstObject ∧ v.faultType &&& vmProtWrite ≠ 0 then
    let m ← page v.m
    let firstM ← page v.firstM
    setFake firstM false
    pageWakeup m
    addPaging v.object (-1)
    addPaging v.firstObject (-1)
    -- `vm_object_collapse` may change the chain below.
    block
    addPaging v.firstObject 1
    return .goto (.copy
      { v with object := v.firstObject, offset := v.firstOffset, m := some firstM })
  else return .goto (.copy v)

/-! ## The copy object -/

/-- The page is copied into the copy object. -/
def fillCopy (v : Locals M O P) (copyObject : O) (copyM : P) : Handling M O P (Next M O P) := do
  setFake copyM false
  pageWakeup copyM
  addReference copyObject (-1)
  return .goto (.enter v)

/-- A page that is not present in the copy object may be held by its pager. -/
def missingCopy (v : Locals M O P) (copyObject : O) (copyOffset : VmOffset) :
    Handling M O P (Next M O P) := do
  match ← vmPageAlloc copyObject copyOffset with
  | none =>
    releasePage (← page v.m)
    addReference copyObject (-1)
    waitForMemory v
  | some copyM =>
    let view ← see
    if view.pager copyObject then
      let v ← unlockMap v
      let pageExists := view.hasPage copyObject (copyOffset + view.pagingOffset copyObject)
      block
      let view ← see
      if view.shadow copyObject ≠ some v.object ∨ view.refCount copyObject = 1 then
        freePage copyM
        vmObjectDeallocate copyObject
        return .goto (.copy v)
      else if pageExists then
        freePage copyM
        addReference copyObject (-1)
        return .goto (.enter v)
      else fillCopy v copyObject copyM
    else fillCopy v copyObject copyM

/-- The body of the loop for the copy object. -/
def copyTurn (v : Locals M O P) : Handling M O P (Next M O P) := do
  let view ← see
  match view.copy v.firstObject with
  | none => return .goto (.enter v)
  | some copyObject =>
    if v.faultType &&& vmProtWrite = 0 then return .goto (.enter v)
    else
      addReference copyObject 1
      let copyOffset := v.firstOffset - view.shadowOffset copyObject
      match view.resident copyObject copyOffset with
      | some copyM =>
        if view.busy copyM then
          releasePage (← page v.m)
          addReference copyObject (-1)
          waitForPage v
        else
          addReference copyObject (-1)
          return .goto (.enter v)
      | none => missingCopy v copyObject copyOffset

/-! ## The end -/

/-- `pmap_enter` and the return. -/
def enterPage (v : Locals M O P) : Handling M O P (Next M O P) := do
  pageWakeup (← page v.m)
  unlockAndDeallocate v
  return .return_ .success

/-- If the map was unlocked on the way, the lookup is made again. -/
def relookup (vaddr : VmOffset) (v : Locals M O P) : Handling M O P (Next M O P) := do
  if v.lookupStillValid then enterPage v
  else
    match ← vmMapLookup v.map vaddr (dropWrite v.faultType) with
    | .error result =>
      releasePage (← page v.m)
      unlockAndDeallocate v
      return .return_ result
    | .ok found =>
      let v := { v with map := found.map, wired := found.wired, lookupStillValid := true }
      if found.object ≠ v.firstObject ∨ found.offset ≠ v.firstOffset then
        releasePage (← page v.m)
        unlockAndDeallocate v
        return .goto (.retry v.map v.faultType)
      else enterPage v

/-- The code from one point to the next. -/
def segment (vaddr : VmOffset) (changeWiring : Bool) :
    Place M O P → Handling M O P (Next M O P)
  | .retry map faultType => lookupFirst vaddr map faultType
  | .search v => searchTurn changeWiring v
  | .found v => copyUp v
  | .copy v => copyTurn v
  | .enter v => relookup vaddr v

def vmFaultFrom (vaddr : VmOffset) (changeWiring : Bool) :
    ℕ → Place M O P → Handling M O P KernReturn
  | 0, _ => throw .endless
  | turns + 1, place => do
    match ← segment vaddr changeWiring place with
    | .goto place => vmFaultFrom vaddr changeWiring turns place
    | .return_ result => return result

/-- `vm_fault`, for a number of turns. -/
def vmFault (turns : ℕ) (map : M) (vaddr : VmOffset) (faultType : ℕ) (changeWiring : Bool) :
    Handling M O P KernReturn :=
  vmFaultFrom vaddr changeWiring turns (.retry map faultType)

end Bsd386.Kern.Vm.PageFault
