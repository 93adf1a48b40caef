import Mathlib.Algebra.GroupWithZero.Nat
import Bsd386.Kern.Inline.Queue
import Bsd386.Lib.TailQueue

/-!
# The name cache

`kern/fs/namcache.c` keeps the names found by directory scans. Every entry is on one list in order
of use, from which the least recently used is taken first, and either on the hash chain of its name
or, after it has been dropped, on a chain of its own. An entry records the capability numbers its
two vnodes had when it was entered; purging a vnode gives it a new number, which makes the entries
about it invalid without looking for them.
-/

namespace Bsd386.Kern.Namcache

open Function

universe u

/-- `NCHNAMLEN`, the longest name that is cached. -/
def nchnamlen : ℕ := 31

/-- `OPMASK` and `CREATE` of a lookup's operation, and the error `ENOENT`. -/
def opmask : ℕ := 3

def create : ℕ := 1

def enoent : ℤ := 2

/-- The start of a hash chain is an entry of `nchashtbl`, which has the two links of a
`struct namecache` and no more. -/
inductive Link (E : Type*)
  | bucket (index : ℕ)
  | entry (ncp : E)
  deriving DecidableEq

/-- The fields of `struct namecache` besides its links. A name is a list of bytes, whose length is
`nc_nlen`. -/
structure Namecache (V : Type*) where
  ncDvp : Option V
  ncDvpid : ℕ
  ncVp : Option V
  ncVpid : ℕ
  ncName : List UInt8

/-- The fields of `struct nameidata` that the cache uses, `niName` being `ni_ptr` and
`ni_namelen`. -/
structure Nameidata (V : Type*) where
  niDvp : V
  niName : List UInt8
  niHash : ℕ
  niMakeentry : Bool
  niNameiop : ℕ
  niVp : Option V

/-- The hash `lookup` puts in `ni_hash`. -/
def componentHash (name : List UInt8) : ℕ := (name.map UInt8.toNat).sum % 2 ^ 32

/-- The variables of the cache, the memory of its entries, the capability numbers of the vnodes,
and the entries that have been allocated. `lru` has `nchhead`, `nchtail`, `nc_nxt` and `nc_prev`;
`chains` has `nc_forw` and `nc_back`. -/
structure Cache (E V : Type*) where
  doingcache : Bool
  desiredvnodes : ℕ
  nchash : ℕ
  numcache : ℕ
  lru : TailQueue E
  chains : Links (Link E)
  entries : E → Namecache V
  vId : V → ℕ
  nextvnodeid : ℕ
  allocated : List E

variable {E V : Type u} [DecidableEq E] [DecidableEq V]

/-! ## Initialization -/

/-- The loop that shifts `nchash` past the number of heads that fit the table; 32 turns suffice. -/
def nchashLoop (heads : ℕ) : ℕ → ℕ → ℕ
  | 0, nchash => nchash
  | turns + 1, nchash => if nchash ≤ heads then nchashLoop heads turns (nchash <<< 1) else nchash

/-- `roundup((desiredvnodes + 1) * sizeof *nchp / 2, NBPG * CLSIZE)`. -/
def nchashsize (desiredvnodes : ℕ) : ℕ := ((desiredvnodes + 1) * 8 / 2 + (4096 - 1)) / 4096 * 4096

/-- The loop that makes every head of the table a chain of its own, from the last to the first. -/
def initChains : ℕ → Links (Link E) → Links (Link E)
  | 0, chains => chains
  | index + 1, chains => initChains index (chains.join (.bucket index) (.bucket index))

/-- `nchinit`. -/
def nchinit (c : Cache E V) : Cache E V :=
  let nchash := (nchashLoop (nchashsize c.desiredvnodes / 8) 32 1 >>> 1) - 1
  { c with
    lru := { c.lru with head := none, tail := .head }
    nchash := nchash
    chains := initChains (nchash + 1) c.chains }

namespace Cache

/-! ## Lookup -/

/-- The test of the search loop. -/
def Matches (c : Cache E V) (ndp : Nameidata V) (ncp : E) : Prop :=
  (c.entries ncp).ncDvp = some ndp.niDvp ∧ (c.entries ncp).ncDvpid = c.vId ndp.niDvp ∧
    (c.entries ncp).ncName = ndp.niName

instance (c : Cache E V) (ndp : Nameidata V) (ncp : E) : Decidable (c.Matches ndp ncp) :=
  inferInstanceAs (Decidable (_ ∧ _))

/-- The search loop, from a node of the chain at `nhp`. -/
def search (c : Cache E V) (ndp : Nameidata V) (nhp : ℕ) :
    ℕ → Option (Link E) → Except Fault (Option E)
  | 0, _ => .error .endless
  | _, none => .error .nullPointer
  | _, some (.bucket index) => if index = nhp then .ok none else .error .wildPointer
  | turns + 1, some (.entry ncp) =>
    if c.Matches ndp ncp then .ok (some ncp)
    else c.search ndp nhp turns (c.chains.next (.entry ncp))

/-- Move an entry to the end of the list, if it is not already there. -/
def moveToEnd (c : Cache E V) (ncp : E) : Except Fault (Cache E V) := do
  match c.lru.next ncp with
  | none => return c
  | some _ =>
    let lru ← deref (c.lru.remove ncp)
    return { c with lru := lru.insertTail ncp }

/-- Make an entry a chain of its own. -/
def dummyChain (chains : Links (Link E)) (ncp : E) : Links (Link E) :=
  { chains with
    next := update chains.next (.entry ncp) (some (.entry ncp))
    prev := update chains.prev (.entry ncp) (some (.entry ncp)) }

/-- The end of `cache_lookup`: take an entry off its chain and put it first on the list. -/
def drop (c : Cache E V) (ncp : E) : Except Fault (Cache E V) := do
  let lru ← deref (c.lru.remove ncp)
  let chains ← remque c.chains (.entry ncp)
  let lru ← deref (lru.insertHead ncp)
  return { c with lru, chains := dummyChain chains ncp }

/-- `cache_lookup`: the status, and the request with `ni_vp` or `ni_makeentry` set. -/
def cacheLookup (c : Cache E V) (ndp : Nameidata V) :
    Except Fault (ℤ × Nameidata V × Cache E V) := do
  if ¬ c.doingcache then return (0, ndp, c)
  if nchnamlen < ndp.niName.length then return (0, { ndp with niMakeentry := false }, c)
  let nhp := ndp.niHash &&& c.nchash
  match ← c.search ndp nhp (c.numcache + 1) (c.chains.next (.bucket nhp)) with
  | none => return (0, ndp, c)
  | some ncp =>
    if ¬ ndp.niMakeentry then return (0, ndp, ← c.drop ncp)
    match (c.entries ncp).ncVp with
    | none =>
      if ndp.niNameiop &&& opmask ≠ create then return (enoent, ndp, ← c.moveToEnd ncp)
      else return (0, ndp, ← c.drop ncp)
    | some vp =>
      if (c.entries ncp).ncVpid ≠ c.vId vp then return (0, ndp, ← c.drop ncp)
      else return (-1, { ndp with niVp := some vp }, ← c.moveToEnd ncp)

/-! ## Entering -/

/-- A new entry, all zero. -/
def allocate (c : Cache E V) (fresh : E) : Cache E V :=
  { c with
    numcache := c.numcache + 1
    lru := { c.lru with next := update c.lru.next fresh none, prev := update c.lru.prev fresh none }
    chains :=
      { next := update c.chains.next (.entry fresh) none
        prev := update c.chains.prev (.entry fresh) none }
    entries := update c.entries fresh ⟨none, 0, none, 0, []⟩
    allocated := fresh :: c.allocated }

/-- The slot for a new entry: `fresh`, which `malloc` returns, or the head of the list. -/
def takeSlot (c : Cache E V) (fresh : E) : Except Fault (Option (E × Cache E V)) := do
  if c.numcache < c.desiredvnodes then return some (fresh, c.allocate fresh)
  match c.lru.head with
  | none => return none
  | some ncp =>
    let lru ← deref (c.lru.remove ncp)
    let chains ← remque c.chains (.entry ncp)
    return some (ncp, { c with lru, chains })

/-- The entry for a request. -/
def record (c : Cache E V) (ndp : Nameidata V) : Namecache V where
  ncDvp := some ndp.niDvp
  ncDvpid := c.vId ndp.niDvp
  ncVp := ndp.niVp
  ncVpid := ndp.niVp.elim 0 c.vId
  ncName := ndp.niName

/-- `cache_enter`. -/
def cacheEnter (c : Cache E V) (ndp : Nameidata V) (fresh : E) : Except Fault (Cache E V) := do
  if ¬ c.doingcache then return c
  match ← c.takeSlot fresh with
  | none => return c
  | some (ncp, c) =>
    let chains ← insque c.chains (.entry ncp) (.bucket (ndp.niHash &&& c.nchash))
    return { c with
      entries := update c.entries ncp (c.record ndp)
      lru := c.lru.insertTail ncp
      chains }

/-! ## Purging -/

/-- `vp->v_id = ++nextvnodeid`. -/
def newId (c : Cache E V) (vp : V) : Cache E V :=
  { c with
    nextvnodeid := (c.nextvnodeid + 1) % 2 ^ 32
    vId := update c.vId vp ((c.nextvnodeid + 1) % 2 ^ 32) }

/-- The inner loop of `cache_purge`: clear the numbers of the entries of the chain at `nhp`. -/
def clearChain (nhp : ℕ) : ℕ → Option (Link E) → Cache E V → Except Fault (Cache E V)
  | 0, _, _ => .error .endless
  | _, none, _ => .error .nullPointer
  | _, some (.bucket index), c => if index = nhp then .ok c else .error .wildPointer
  | turns + 1, some (.entry ncp), c =>
    let entry := { c.entries ncp with ncVpid := 0, ncDvpid := 0 }
    clearChain nhp turns (c.chains.next (.entry ncp))
      { c with entries := update c.entries ncp entry }

/-- The outer loop of `cache_purge`, from the last chain to the first. -/
def clearChains : ℕ → Cache E V → Except Fault (Cache E V)
  | 0, c => .ok c
  | index + 1, c => do
    clearChains index (← clearChain index (c.numcache + 1) (c.chains.next (.bucket index)) c)

/-- `cache_purge`. -/
def cachePurge (c : Cache E V) (vp : V) : Except Fault (Cache E V) := do
  let c := c.newId vp
  if c.nextvnodeid ≠ 0 then return c
  let c ← clearChains (c.nchash + 1) c
  return c.newId vp

/-- The body of the loop of `cache_purgevfs` for an entry of the file system: the entry is freed,
and the scan goes on from the head of the list without it. -/
def free (c : Cache E V) (ncp : E) : Except Fault (Option E × Cache E V) := do
  let entries := update c.entries ncp { c.entries ncp with ncVp := none, ncDvp := none }
  let chains ← remque c.chains (.entry ncp)
  let lru ← deref (c.lru.remove ncp)
  let nxtcp := lru.head
  let lru ← deref (lru.insertHead ncp)
  return (nxtcp, { c with entries, chains := dummyChain chains ncp, lru })

/-- The loop of `cache_purgevfs`; `vMount` gives the `v_mount` of every vnode. -/
def purgevfsLoop {M : Type*} [DecidableEq M] (vMount : V → Option M) (mp : M) :
    ℕ → Option E → Cache E V → Except Fault (Cache E V)
  | 0, _, _ => .error .endless
  | _, none, c => .ok c
  | turns + 1, some ncp, c =>
    if (c.entries ncp).ncDvp.bind vMount ≠ some mp then
      purgevfsLoop vMount mp turns (c.lru.next ncp) c
    else do
      let (nxtcp, c) ← c.free ncp
      purgevfsLoop vMount mp turns nxtcp c

/-- `cache_purgevfs`. No entry is freed twice, and between two frees the list is passed once. -/
def cachePurgevfs {M : Type*} [DecidableEq M] (c : Cache E V) (vMount : V → Option M) (mp : M) :
    Except Fault (Cache E V) :=
  purgevfsLoop vMount mp ((c.numcache + 1) * (c.numcache + 1)) c.lru.head c

end Cache

end Bsd386.Kern.Namcache
