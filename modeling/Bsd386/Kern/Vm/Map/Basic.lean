import Mathlib.Algebra.Group.Fin.Basic
import Mathlib.Algebra.GroupWithZero.Nat
import Mathlib.Order.CompletePartialOrder
import Mathlib.Order.Fin.Basic
import Bsd386.Kern.Fault

/-!
# Address maps

`kern/vm/map.c` describes an address space by a list of entries, each of which maps a range of
addresses to part of an object. Entries are split where an operation starts or ends inside them, and
joined again where two are of a kind. Two pointers into the list are kept for speed: `hint`, where
the last search ended, and `first_free`.

The list stands for the entries linked from the header, in order; an entry is known by its address,
and `none` is the header itself. Entries come from `malloc`, here `create`, which depends on the
entries in use and leaves in memory whatever was there. Locks, reference counts and the pages behind
the entries are not part of the map.
-/

namespace Bsd386.Kern.Vm

/-- `vm_offset_t` and `vm_size_t`. -/
abbrev VmOffset := Fin (2 ^ 32)

instance vmOffset_neZero : NeZero (2 ^ 32) := ⟨by decide⟩

/-- The results of the map operations. -/
inductive KernReturn
  | success
  | invalidAddress
  | protectionFailure
  | noSpace
  | invalidArgument
  deriving DecidableEq

/-- `VM_PROT_DEFAULT` and `VM_INHERIT_DEFAULT`. -/
def vmProtDefault : ℕ := 7

def vmInheritDefault : ℕ := 1

/-- `struct vm_map_entry`, with its address and without its links. `object` is the union of the
pointers to an object, a share map and a submap. -/
structure MapEntry (E O : Type) where
  id : E
  start : VmOffset
  endAddr : VmOffset
  object : Option O
  offset : VmOffset
  isAMap : Bool
  isSubMap : Bool
  copyOnWrite : Bool
  needsCopy : Bool
  protection : ℕ
  maxProtection : ℕ
  inheritance : ℕ
  wiredCount : ℤ

/-- `struct vm_map`. -/
structure VmMap (E O : Type) where
  minOffset : VmOffset
  maxOffset : VmOffset
  entries : List (MapEntry E O)
  nentries : ℤ
  size : VmOffset
  isMainMap : Bool
  hint : Option E
  firstFree : Option E

/-- A new entry, given the addresses of those in use. -/
abbrev Create (E O : Type) := List E → MapEntry E O

/-- The decision of `vm_object_coalesce`, from its arguments. -/
abbrev Coalesce (O : Type) :=
  Option O → Option O → VmOffset → VmOffset → VmOffset → VmOffset → Bool

/-- `vm_map_init`. -/
def vmMapInit {E O : Type} (min max : VmOffset) : VmMap E O where
  minOffset := min
  maxOffset := max
  entries := []
  nentries := 0
  size := 0
  isMainMap := true
  hint := none
  firstFree := none

namespace VmMap

variable {E O : Type} [DecidableEq E]

/-! ## Entries and their neighbours -/

/-- The entry at an address. -/
def entry (map : VmMap E O) (id : E) : Except Fault (MapEntry E O) :=
  match map.entries.find? (·.id = id) with
  | none => .error .wildPointer
  | some e => .ok e

/-- `entry->next`. -/
def next (map : VmMap E O) : Option E → Option E
  | none => map.entries.head?.map (·.id)
  | some id => (map.entries.dropWhile (·.id ≠ id)).tail.head?.map (·.id)

/-- `entry->prev`. -/
def prev (map : VmMap E O) : Option E → Option E
  | none => map.entries.getLast?.map (·.id)
  | some id => (map.entries.takeWhile (·.id ≠ id)).getLast?.map (·.id)

/-- `entry->start` and `entry->end`; those of the header are `min_offset` and `max_offset`. -/
def startOf (map : VmMap E O) : Option E → Except Fault VmOffset
  | none => .ok map.minOffset
  | some id => (map.entry id).map (·.start)

def endOf (map : VmMap E O) : Option E → Except Fault VmOffset
  | none => .ok map.maxOffset
  | some id => (map.entry id).map (·.endAddr)

/-- Assignments to the fields of an entry. -/
def modify (map : VmMap E O) (id : E) (f : MapEntry E O → MapEntry E O) : VmMap E O :=
  { map with entries := map.entries.map fun e ↦ if e.id = id then f e else e }

/-- `vm_map_entry_link`. -/
def link (map : VmMap E O) (afterWhere : Option E) (new : MapEntry E O) : VmMap E O :=
  { map with
    nentries := map.nentries + 1
    entries :=
      match afterWhere with
      | none => new :: map.entries
      | some id => map.entries.flatMap fun e ↦ if e.id = id then [e, new] else [e] }

/-- `vm_map_entry_unlink`. -/
def unlink (map : VmMap E O) (id : E) : VmMap E O :=
  { map with
    nentries := map.nentries - 1
    entries := map.entries.filter (·.id ≠ id) }

/-- `vm_map_entry_create`. -/
def entryCreate (map : VmMap E O) (create : Create E O) : MapEntry E O :=
  create (map.entries.map (·.id))

/-! ## Lookup -/

/-- The walk of `vm_map_lookup_entry` over the rest of the list; `prev` is the entry before it. -/
def lookupLoop (address : VmOffset) : Option E → List (MapEntry E O) → Bool × Option E
  | prev, [] => (false, prev)
  | prev, cur :: rest =>
    if address < cur.endAddr then
      if cur.start ≤ address then (true, some cur.id) else (false, prev)
    else lookupLoop address (some cur.id) rest

/-- The list from the hint on, or the whole list. -/
def fromHint (map : VmMap E O) : Except Fault (List (MapEntry E O)) :=
  match map.hint with
  | none => .ok map.entries
  | some id =>
    match map.entries.dropWhile (·.id ≠ id) with
    | [] => .error .wildPointer
    | cur :: rest => .ok (cur :: rest)

/-- `vm_map_lookup_entry`. -/
def vmMapLookupEntry (map : VmMap E O) (address : VmOffset) :
    Except Fault (Bool × Option E × VmMap E O) := do
  match ← map.fromHint with
  | [] => return (false, none, map)
  | cur :: rest =>
    if cur.start ≤ address then
      if address < cur.endAddr then return (true, some cur.id, map)
      let (found, entry) := lookupLoop address (map.prev (some cur.id)) (cur :: rest)
      return (found, entry, { map with hint := entry })
    else
      let (found, entry) := lookupLoop address none map.entries
      return (found, entry, { map with hint := entry })

/-! ## Clipping -/

/-- `_vm_map_clip_start`. -/
def clipStartAt (map : VmMap E O) (create : Create E O) (entry : E) (start : VmOffset) :
    Except Fault (VmMap E O) := do
  let e ← map.entry entry
  let new := { e with id := (map.entryCreate create).id, endAddr := start }
  let map := map.modify entry fun e ↦ { e with offset := e.offset + (start - e.start), start }
  return map.link (map.prev (some entry)) new

/-- `_vm_map_clip_end`. -/
def clipEndAt (map : VmMap E O) (create : Create E O) (entry : E) (endAddr : VmOffset) :
    Except Fault (VmMap E O) := do
  let e ← map.entry entry
  let new :=
    { e with
      id := (map.entryCreate create).id
      start := endAddr
      offset := e.offset + (endAddr - e.start) }
  let map := map.modify entry fun e ↦ { e with endAddr }
  return map.link (some entry) new

/-- `vm_map_clip_start` and `vm_map_clip_end`. -/
def clipStart (map : VmMap E O) (create : Create E O) (entry : E) (start : VmOffset) :
    Except Fault (VmMap E O) := do
  if (← map.entry entry).start < start then map.clipStartAt create entry start else return map

def clipEnd (map : VmMap E O) (create : Create E O) (entry : E) (endAddr : VmOffset) :
    Except Fault (VmMap E O) := do
  if endAddr < (← map.entry entry).endAddr then map.clipEndAt create entry endAddr else return map

/-- `VM_MAP_LOCK_CLIP_START`: the bounds of the region, and the first entry in it or after it. -/
def lockClipStart (map : VmMap E O) (create : Create E O) (start endAddr : VmOffset) :
    Except Fault (VmOffset × VmOffset × Option E × VmMap E O) := do
  let start := max start map.minOffset
  let endAddr := min endAddr map.maxOffset
  let start := min start endAddr
  match ← map.vmMapLookupEntry start with
  | (true, some entry, map) =>
      return (start, endAddr, some entry, ← map.clipStart create entry start)
  | (_, entry, map) => return (start, endAddr, map.next entry, map)

/-- `VM_MAP_LOOPENT` with a body that clips the entry at the end of the region and then assigns to
its other fields. -/
def loopent (create : Create E O) (edit : MapEntry E O → MapEntry E O) (endAddr : VmOffset) :
    ℕ → Option E → VmMap E O → Except Fault (VmMap E O)
  | 0, _, _ => .error .endless
  | _, none, map => .ok map
  | turns + 1, some entry, map => do
    if (← map.entry entry).start < endAddr then
      let map ← map.clipEnd create entry endAddr
      let map := map.modify entry edit
      loopent create edit endAddr turns (map.next (some entry)) map
    else return map

/-- The part that `vmspace_protect`, `vmspace_inherit`, `vmspace_pageable` and
`vmspace_notpageable` share: the entries of the region are clipped to it and assigned to. -/
def clipRegion (map : VmMap E O) (create : Create E O) (edit : MapEntry E O → MapEntry E O)
    (start endAddr : VmOffset) : Except Fault (VmMap E O) := do
  let (_, endAddr, entry, map) ← map.lockClipStart create start endAddr
  loopent create edit endAddr (map.entries.length + 1) entry map

/-- `vm_map_submap`. -/
def vmMapSubmap (map : VmMap E O) (create : Create E O) (start endAddr : VmOffset) (submap : O) :
    Except Fault (KernReturn × VmMap E O) := do
  match ← map.lockClipStart create start endAddr with
  -- Clipping the header would overwrite `max_offset`.
  | (_, _, none, _) => .error .wildPointer
  | (start, endAddr, some entry, map) =>
    let map ← map.clipEnd create entry endAddr
    let e ← map.entry entry
    if e.start = start ∧ e.endAddr = endAddr ∧ ¬ e.isAMap ∧ e.object.isNone ∧ ¬ e.copyOnWrite then
      let set := fun e : MapEntry E O ↦
        { e with isAMap := false, isSubMap := true, object := some submap }
      return (.success, map.modify entry set)
    else return (.invalidArgument, map)

/-! ## Insertion -/

/-- The entry can be extended by anonymous memory from `start` on, if its object can. -/
def Extensible (map : VmMap E O) (e : MapEntry E O) (start : VmOffset) : Prop :=
  e.endAddr = start ∧ map.isMainMap ∧ ¬ e.isAMap ∧ ¬ e.isSubMap ∧
    e.inheritance = vmInheritDefault ∧ e.protection = vmProtDefault ∧
      e.maxProtection = vmProtDefault ∧ e.wiredCount = 0

omit [DecidableEq E] in
instance (map : VmMap E O) (e : MapEntry E O) (start : VmOffset) :
    Decidable (map.Extensible e start) :=
  inferInstanceAs (Decidable (_ ∧ _))

/-- The entry `vm_map_insert` makes of new memory. -/
def newEntry (map : VmMap E O) (memory : MapEntry E O) (object : Option O)
    (offset start endAddr : VmOffset) : MapEntry E O :=
  let e :=
    { memory with
      start, endAddr, object, offset
      isAMap := false, isSubMap := false, copyOnWrite := false, needsCopy := false }
  if map.isMainMap then
    { e with
      inheritance := vmInheritDefault
      protection := vmProtDefault
      maxProtection := vmProtDefault
      wiredCount := 0 }
  else e

/-- The end of `vm_map_insert`: a new entry after `prevEntry`. -/
def insertAfter (map : VmMap E O) (create : Create E O) (prevEntry : Option E) (object : Option O)
    (offset start endAddr : VmOffset) : Except Fault (VmMap E O) := do
  let new := map.newEntry (map.entryCreate create) object offset start endAddr
  let map := map.link prevEntry new
  let map := { map with size := map.size + (endAddr - start) }
  if map.firstFree = prevEntry ∧ start ≤ (← map.endOf prevEntry) then
    return { map with firstFree := some new.id }
  else return map

/-- `vm_map_insert` into the room behind `prevEntry`: the entry there is extended, or a new one
made. -/
def insertBehind (map : VmMap E O) (create : Create E O) (coalesce : Coalesce O)
    (prevEntry : Option E) (object : Option O) (offset start endAddr : VmOffset) :
    Except Fault (VmMap E O) := do
  match prevEntry with
  | none => map.insertAfter create none object offset start endAddr
  | some id =>
    let e ← map.entry id
    if object.isNone ∧ map.Extensible e start ∧
        coalesce e.object none e.offset 0 (e.endAddr - e.start) (endAddr - e.endAddr) then
      let map := { map with size := map.size + (endAddr - e.endAddr) }
      return map.modify id fun e ↦ { e with endAddr }
    else map.insertAfter create (some id) object offset start endAddr

/-- `vm_map_insert`. -/
def vmMapInsert (map : VmMap E O) (create : Create E O) (coalesce : Coalesce O)
    (object : Option O) (offset start endAddr : VmOffset) :
    Except Fault (KernReturn × VmMap E O) := do
  if start < map.minOffset ∨ map.maxOffset < endAddr ∨ endAddr ≤ start then
    return (.invalidAddress, map)
  let (found, prevEntry, map) ← map.vmMapLookupEntry start
  if found then return (.noSpace, map)
  if map.next prevEntry ≠ none ∧ (← map.startOf (map.next prevEntry)) < endAddr then
    return (.noSpace, map)
  return (.success, ← map.insertBehind create coalesce prevEntry object offset start endAddr)

/-! ## Simplification -/

/-- Two neighbours map their addresses in the same way. -/
def Alike (p e : MapEntry E O) : Prop :=
  ¬ p.isAMap ∧ ¬ p.isSubMap ∧ ¬ e.isAMap ∧ ¬ e.isSubMap ∧ p.inheritance = e.inheritance ∧
    p.protection = e.protection ∧ p.maxProtection = e.maxProtection ∧
      p.wiredCount = e.wiredCount ∧ p.copyOnWrite = e.copyOnWrite ∧ p.needsCopy = e.needsCopy ∧
        p.object = e.object ∧ p.offset + (p.endAddr - p.start) = e.offset

omit [DecidableEq E] in
instance [DecidableEq O] (p e : MapEntry E O) : Decidable (Alike p e) :=
  inferInstanceAs (Decidable (_ ∧ _))

/-- `vm_map_simplify` on an entry and the one before it. -/
def simplifyWith [DecidableEq O] (map : VmMap E O) (thisEntry prevEntry : E) (start : VmOffset) :
    Except Fault (VmMap E O) := do
  let e ← map.entry thisEntry
  let p ← map.entry prevEntry
  if p.endAddr = start ∧ map.isMainMap ∧ Alike p e then
    let firstFree := if map.firstFree = some thisEntry then some prevEntry else map.firstFree
    let map := { map with firstFree, hint := some prevEntry }
    return (map.unlink thisEntry).modify prevEntry fun p ↦ { p with endAddr := e.endAddr }
  else return map

/-- `vm_map_simplify`. -/
def vmMapSimplify [DecidableEq O] (map : VmMap E O) (start : VmOffset) :
    Except Fault (VmMap E O) := do
  match ← map.vmMapLookupEntry start with
  | (true, some thisEntry, map) =>
    match map.prev (some thisEntry) with
    | none => return map
    | some prevEntry => map.simplifyWith thisEntry prevEntry start
  | (_, _, map) => return map

/-! ## Deletion -/

/-- `vm_map_entry_delete`: the successor, and the map without the entry. -/
def entryDelete (map : VmMap E O) (entry : E) : Except Fault (Option E × VmMap E O) := do
  let e ← map.entry entry
  let next := map.next (some entry)
  let map := map.unlink entry
  return (next, { map with size := map.size - (e.endAddr - e.start) })

/-- The loop of `vm_map_delete`. -/
def deleteLoop (create : Create E O) (endAddr : VmOffset) :
    ℕ → Option E → VmMap E O → Except Fault (VmMap E O)
  | 0, _, _ => .error .endless
  | _, none, map => .ok map
  | turns + 1, some entry, map => do
    if (← map.entry entry).start < endAddr then
      let map ← map.clipEnd create entry endAddr
      let (entry, map) ← map.entryDelete entry
      deleteLoop create endAddr turns entry map
    else return map

/-- The beginning of `vm_map_delete`: the first entry to delete. -/
def deleteFrom (map : VmMap E O) (create : Create E O) (start : VmOffset) :
    Except Fault (Option E × VmMap E O) := do
  match ← map.vmMapLookupEntry start with
  | (true, some entry, map) =>
    let map ← map.clipStart create entry start
    return (some entry, { map with hint := map.prev (some entry) })
  | (_, entry, map) => return (map.next entry, map)

/-- `vm_map_delete`. -/
def vmMapDelete (map : VmMap E O) (create : Create E O) (start endAddr : VmOffset) :
    Except Fault (VmMap E O) := do
  let (entry, map) ← map.deleteFrom create start
  let firstFree := if start ≤ (← map.startOf map.firstFree) then map.prev entry else map.firstFree
  deleteLoop create endAddr (map.entries.length + 1) entry { map with firstFree }

end VmMap

end Bsd386.Kern.Vm
