import Mathlib.Algebra.GroupWithZero.Nat
import Mathlib.Algebra.Ring.Int.Defs
import Mathlib.Order.CompletePartialOrder
import Bsd386.Kern.Fault

/-!
# The kernel memory allocator

`kern/malloc.c` takes whole pages from the page level allocator. A request of up to a page is
rounded up to a power of two and served from a page cut into elements of that size; the free
elements of a size are threaded into one list, whichever page they are in. A larger request gets
pages of its own. Every page has a descriptor, in which the free elements of a cut page and the
pages of a large block are counted in the same field.

Addresses and counters are numbers, and the null pointer is 0. What a request computes in 32 bits is
computed in 32 bits here. The statistics are those kept when `KMEMSTATS` is defined, and the check
of the alignment of a freed block that of `DIAGNOSTIC`.
-/

namespace Bsd386.Kern.Malloc

open Function

/-- `NBPG` and `CLBYTES`. -/
def nbpg : ℕ := 4096

def minbucket : ℕ := 4

/-- `MINALLOCSIZE` -/
def minallocsize : ℕ := 1 <<< minbucket

/-- `MAXALLOCSAVE` -/
def maxallocsave : ℕ := 2 * nbpg

/-- `M_LAST` -/
def mLast : ℕ := 50

/-- `M_MBUF` -/
def mMbuf : ℕ := 1

/-- `VM_KMEM_SIZE` -/
def vmKmemSize : ℕ := 4096 * 1024

/-! ## Sizes -/

/-- `BUCKETINDX` -/
def bucketIndx (size : ℕ) : ℕ :=
  if size ≤ minallocsize * 128 then
    if size ≤ minallocsize * 8 then
      if size ≤ minallocsize * 2 then
        if size ≤ minallocsize * 1 then minbucket + 0 else minbucket + 1
      else if size ≤ minallocsize * 4 then minbucket + 2 else minbucket + 3
    else if size ≤ minallocsize * 32 then
      if size ≤ minallocsize * 16 then minbucket + 4 else minbucket + 5
    else if size ≤ minallocsize * 64 then minbucket + 6 else minbucket + 7
  else if size ≤ minallocsize * 2048 then
    if size ≤ minallocsize * 512 then
      if size ≤ minallocsize * 256 then minbucket + 8 else minbucket + 9
    else if size ≤ minallocsize * 1024 then minbucket + 10 else minbucket + 11
  else if size ≤ minallocsize * 8192 then
    if size ≤ minallocsize * 4096 then minbucket + 12 else minbucket + 13
  else if size ≤ minallocsize * 16384 then minbucket + 14 else minbucket + 15

/-- `roundup(size, CLBYTES)` of a `u_long`. -/
def roundup (size : ℕ) : ℕ := (size + (nbpg - 1)) % 2 ^ 32 / nbpg * nbpg

/-- What a `long` holds after a `u_long` has been assigned to it. -/
def toLong (n : ℕ) : ℤ := if n < 2 ^ 31 then n else n - 2 ^ 32

/-- `btoc` of a `long`. -/
def btoc (x : ℤ) : ℕ := ((x + (nbpg - 1)) % 2 ^ 32).toNat / nbpg

/-- `ctob` -/
def ctob (npg : ℕ) : ℕ := npg * nbpg

/-- The arguments of a call of `malloc`. -/
structure Call where
  size : ℕ
  type : ℕ
  nowait : Bool
  zeroIt : Bool
  deriving DecidableEq

namespace Call

def indx (call : Call) : ℕ := bucketIndx call.size

def allocsize (call : Call) : ℤ :=
  if maxallocsave ≤ call.size then toLong (roundup call.size) else (1 <<< call.indx : ℕ)

def npg (call : Call) : ℕ := btoc call.allocsize

end Call

/-! ## The data of the allocator -/

/-- `struct kmembuckets` -/
structure Kmembuckets where
  kbNext : ℕ
  kbCalls : ℤ
  kbTotal : ℤ
  kbTotalfree : ℤ
  kbElmpercl : ℤ
  kbHighwat : ℤ

/-- `struct kmemstats` -/
structure Kmemstats where
  ksInuse : ℤ
  ksCalls : ℤ
  ksMemuse : ℤ
  ksLimblocks : ℕ
  ksMaxused : ℤ
  ksLimit : ℤ

/-- `struct kmemusage`; `kuUn` is the union of `ku_freecnt` and `ku_pagecnt`. -/
structure Kmemusage where
  kuIndx : ℕ
  kuUn : ℕ

/-- The tables of the allocator and the words of memory that it threads its lists through. -/
structure Kernel where
  bucket : ℕ → Kmembuckets
  kmemstats : ℕ → Kmemstats
  kmemusage : ℕ → Kmemusage
  mem : ℕ → ℕ

/-- Where the kernel ends and the addresses of `kmem_map` begin. -/
structure Arena where
  kernelEnd : ℕ
  kmembase : ℕ
  kmembase_pos : 0 < kmembase
  kmembase_aligned : kmembase % nbpg = 0
  kernelEnd_le : kernelEnd ≤ kmembase
  fits : kmembase + vmKmemSize < 2 ^ 32

namespace Arena

variable (arena : Arena)

def kmemlimit : ℕ := arena.kmembase + vmKmemSize

/-- `btokup`, as an index into `kmemusage`. -/
def btokup (addr : ℕ) : ℕ := (addr - arena.kmembase) / nbpg

def kuptob (kup : ℕ) : ℕ := arena.kmembase + kup * nbpg

end Arena

/-- Addresses obtained from the page level allocator. -/
structure Region where
  addr : ℕ
  bytes : ℕ
  deriving DecidableEq

namespace Kernel

variable (k : Kernel)

/-- Change one bucket. -/
def onBucket (indx : ℕ) (f : Kmembuckets → Kmembuckets) : Kernel :=
  { k with bucket := update k.bucket indx (f (k.bucket indx)) }

/-- Change the statistics of one type. -/
def onStats (type : ℕ) (f : Kmemstats → Kmemstats) : Kernel :=
  { k with kmemstats := update k.kmemstats type (f (k.kmemstats type)) }

/-- Change the descriptor of one page. -/
def onUsage (kup : ℕ) (f : Kmemusage → Kmemusage) : Kernel :=
  { k with kmemusage := update k.kmemusage kup (f (k.kmemusage kup)) }

def store (addr value : ℕ) : Kernel := { k with mem := update k.mem addr value }

/-- Clear memory. -/
def memset (addr bytes : ℕ) : Kernel :=
  { k with mem := fun a ↦ if addr ≤ a ∧ a < addr + bytes then 0 else k.mem a }

end Kernel

/-- `kmeminit`, with the memory of the arena as it happens to be. -/
def kmeminit (mem : ℕ → ℕ) : Kernel where
  bucket indx :=
    let kbElmpercl : ℤ := if nbpg ≤ 1 <<< indx then 1 else (nbpg / (1 <<< indx) : ℕ)
    { kbNext := 0
      kbCalls := 0
      kbTotal := 0
      kbTotalfree := 0
      kbElmpercl
      kbHighwat := 5 * kbElmpercl }
  kmemstats _ :=
    { ksInuse := 0
      ksCalls := 0
      ksMemuse := 0
      ksLimblocks := 0
      ksMaxused := 0
      ksLimit := (vmKmemSize / nbpg * nbpg * 6 / 10 : ℕ) }
  kmemusage _ := { kuIndx := 0, kuUn := 0 }
  mem

/-! ## `malloc` -/

/-- How far a call of `malloc` has come when other code runs: it has returned an address, it sleeps
because its type is at its limit, or it is in `kmem_alloc`. -/
inductive Progress
  | returns (addr : ℕ)
  | sleeps
  | kmemAlloc
  deriving DecidableEq

namespace Kernel

variable (arena : Arena) (k : Kernel) (call : Call)

/-- From the label `out` on. -/
def mallocOut (va : ℕ) : Progress × Kernel :=
  let k := k.onBucket call.indx fun kbp ↦ { kbp with kbCalls := kbp.kbCalls + 1 }
  let k := k.onStats call.type fun ksp ↦
    { ksp with
      ksInuse := ksp.ksInuse + 1
      ksCalls := ksp.ksCalls + 1
      ksMaxused := if ksp.ksMaxused < ksp.ksMemuse then ksp.ksMemuse else ksp.ksMaxused }
  (.returns va, if call.zeroIt then k.memset va call.size else k)

/-- Take the first element of the bucket list. -/
def mallocTake : Except Fault (Progress × Kernel) :=
  let va := (k.bucket call.indx).kbNext
  let k := k.onBucket call.indx fun kbp ↦ { kbp with kbNext := k.mem va }
  let kup := arena.btokup va
  if (k.kmemusage kup).kuIndx ≠ call.indx then .error (.panic "malloc: wrong bucket")
  else if (k.kmemusage kup).kuUn = 0 then .error (.panic "malloc: lost data")
  else
    let k := k.onUsage kup fun kup ↦ { kup with kuUn := kup.kuUn - 1 }
    let k := k.onBucket call.indx fun kbp ↦ { kbp with kbTotalfree := kbp.kbTotalfree - 1 }
    let k := k.onStats call.type fun ksp ↦
      { ksp with ksMemuse := ksp.ksMemuse + (1 <<< call.indx : ℕ) }
    .ok (k.mallocOut call va)

/-- The loop that threads the elements of a new page, from the last down to the first, which is
made to point to the saved list. -/
def thread (va allocsize savedlist : ℕ) : ℕ → ℕ → (ℕ → ℕ) → Except Fault (ℕ → ℕ)
  | 0, _, _ => .error .endless
  | turns + 1, cp, mem =>
    if va < cp then thread va allocsize savedlist turns (cp - allocsize)
      (update mem cp (cp - allocsize))
    else .ok (update mem cp savedlist)

/-- What `malloc` does with the address that `kmem_alloc` has returned. -/
def mallocFill (va : ℕ) : Except Fault (Progress × Kernel) :=
  if va = 0 then .ok (.returns 0, k)
  else
    let k := k.onBucket call.indx fun kbp ↦ { kbp with kbTotal := kbp.kbTotal + kbp.kbElmpercl }
    let kup := arena.btokup va
    let k := k.onUsage kup fun kup ↦ { kup with kuIndx := call.indx }
    if (maxallocsave : ℤ) ≤ call.allocsize then
      if 65535 < call.npg then .error (.panic "malloc: allocation too large")
      else
        let k := k.onUsage kup fun kup ↦ { kup with kuUn := call.npg }
        let k := k.onStats call.type fun ksp ↦
          { ksp with ksMemuse := ksp.ksMemuse + call.allocsize }
        .ok (k.mallocOut call va)
    else do
      let k := k.onUsage kup fun kup ↦
        { kup with kuUn := ((k.bucket call.indx).kbElmpercl % 2 ^ 16).toNat }
      let k := k.onBucket call.indx fun kbp ↦
        { kbp with kbTotalfree := kbp.kbTotalfree + kbp.kbElmpercl }
      let savedlist := (k.bucket call.indx).kbNext
      let allocsize := call.allocsize.toNat
      let last := va + call.npg * nbpg - allocsize
      let k := k.onBucket call.indx fun kbp ↦ { kbp with kbNext := last }
      let mem ← thread va allocsize savedlist (call.npg * nbpg + 1) last k.mem
      mallocTake arena { k with mem } call

/-- The test of the limit and of the bucket list, made on entry and after a sleep. -/
def mallocLimit : Except Fault (Progress × Kernel) :=
  let ksp := k.kmemstats call.type
  if ksp.ksLimit ≤ ksp.ksMemuse then
    if call.nowait then .ok (.returns 0, k)
    else .ok (.sleeps, k.onStats call.type fun ksp ↦
      { ksp with
        ksLimblocks := if ksp.ksLimblocks < 65535 then ksp.ksLimblocks + 1 else ksp.ksLimblocks })
  else if (k.bucket call.indx).kbNext = 0 then .ok (.kmemAlloc, k)
  else k.mallocTake arena call

/-- `malloc`. The table of types has no entry `M_LAST`, though the check lets it pass. -/
def malloc : Except Fault (Progress × Kernel) :=
  if mLast < call.type then .error (.panic "malloc - bogus type")
  else if call.type = mLast then .error .wildPointer
  else k.mallocLimit arena call

end Kernel

/-! ## `free` -/

/-- A place that holds a pointer of a bucket list. -/
inductive Cell
  | kbNext
  | word (addr : ℕ)

/-- What the walk along a bucket list changes: the first pointer, the words of memory and
`ku_freecnt` of the page that is taken off the list. -/
structure Walk where
  kbNext : ℕ
  mem : ℕ → ℕ
  freecnt : ℕ

namespace Walk

def load (w : Walk) : Cell → ℕ
  | .kbNext => w.kbNext
  | .word addr => w.mem addr

def store (w : Walk) (value : ℕ) : Cell → Walk
  | .kbNext => { w with kbNext := value }
  | .word addr => { w with mem := update w.mem addr value }

/-- `kup->ku_freecnt--` -/
def count (w : Walk) : Walk := { w with freecnt := (w.freecnt + 65535) % 2 ^ 16 }

/-- The inner loop: go on to the last of the elements in the page that follow each other. -/
def skip (freepage freesize : ℕ) : ℕ → ℕ → Walk → Except Fault (ℕ × Walk)
  | 0, _, _ => .error .endless
  | turns + 1, nxt, w =>
    if freepage ≤ w.mem nxt ∧ w.mem nxt < freepage + freesize then
      skip freepage freesize turns (w.mem nxt) w.count
    else .ok (nxt, w)

/-- The outer loop: walk the bucket list, deleting the entries in the page. -/
def unthread (freepage freesize : ℕ) : ℕ → Cell → Walk → Except Fault Walk
  | 0, _, _ => .error .endless
  | turns + 1, cpp, w =>
    if w.load cpp = 0 then .ok w
    else
      let nxt := w.load cpp
      if freepage ≤ nxt ∧ nxt < freepage + freesize then do
        let (nxt, w) ← skip freepage freesize (turns + 1) nxt w
        unthread freepage freesize turns cpp (w.store (w.mem nxt) cpp).count
      else unthread freepage freesize turns (.word nxt) w

end Walk

namespace Kernel

variable (arena : Arena) (k : Kernel)

/-- `addrmask` -/
def addrmask (indx : ℕ) : ℕ := 2 ^ indx - 1

/-- The end of `free` for a block of whole pages. -/
def freeLarge (addr type : ℕ) : Kernel × Option Region :=
  let kup := arena.btokup addr
  let indx := (k.kmemusage kup).kuIndx
  let region : Region := { addr, bytes := ctob (k.kmemusage kup).kuUn }
  let size := (k.kmemusage kup).kuUn <<< 12
  let k := k.onStats type fun ksp ↦ { ksp with ksMemuse := ksp.ksMemuse - size }
  let k := k.onUsage kup fun _ ↦ { kuIndx := 0, kuUn := 0 }
  let k := k.onStats type fun ksp ↦ { ksp with ksInuse := ksp.ksInuse - 1 }
  (k.onBucket indx fun kbp ↦ { kbp with kbTotal := kbp.kbTotal - 1 }, some region)

/-- The page of a freed element goes back to the page level allocator. No walk can take more turns
than the arena has addresses. -/
def freePage (addr type : ℕ) : Except Fault (Kernel × Option Region) := do
  let kup := arena.btokup addr
  let indx := (k.kmemusage kup).kuIndx
  let size := 1 <<< indx
  let freepage := arena.kuptob kup
  let freesize := (k.kmemusage kup).kuUn * size
  let k := k.onStats type fun ksp ↦
    { ksp with ksMemuse := ksp.ksMemuse - size, ksInuse := ksp.ksInuse - 1 }
  let k := k.onUsage kup fun kup ↦ { kup with kuIndx := 0, kuUn := kup.kuUn - 1 }
  let k := k.onBucket indx fun kbp ↦
    { kbp with
      kbTotal := kbp.kbTotal - kbp.kbElmpercl
      kbTotalfree := kbp.kbTotalfree - kbp.kbElmpercl }
  let region : Region := { addr := freepage, bytes := freesize }
  if (k.kmemusage kup).kuUn = 0 then .ok (k, some region)
  else
    let walk : Walk :=
      { kbNext := (k.bucket indx).kbNext, mem := k.mem, freecnt := (k.kmemusage kup).kuUn }
    let w ← walk.unthread freepage freesize (vmKmemSize + 1) .kbNext
    if w.freecnt ≠ 0 then .error (.panic "free: missing a bucket")
    else
      let k := k.onBucket indx fun kbp ↦ { kbp with kbNext := w.kbNext }
      let k := k.onUsage kup fun kup ↦ { kup with kuUn := w.freecnt }
      .ok ({ k with mem := w.mem }, some region)

/-- A freed element is put at the head of its bucket list. -/
def freeElement (addr type : ℕ) : Kernel :=
  let indx := (k.kmemusage (arena.btokup addr)).kuIndx
  let k := k.onStats type fun ksp ↦
    { ksp with ksMemuse := ksp.ksMemuse - (1 <<< indx : ℕ), ksInuse := ksp.ksInuse - 1 }
  let k := k.store addr (k.bucket indx).kbNext
  k.onBucket indx fun kbp ↦ { kbp with kbNext := addr }

/-- The part of `free` for a block of up to a page. -/
def freeSmall (addr type : ℕ) : Except Fault (Kernel × Option Region) :=
  let kup := arena.btokup addr
  let indx := (k.kmemusage kup).kuIndx
  let k := k.onBucket indx fun kbp ↦ { kbp with kbTotalfree := kbp.kbTotalfree + 1 }
  let k := k.onUsage kup fun kup ↦ { kup with kuUn := (kup.kuUn + 1) % 2 ^ 16 }
  let kbp := k.bucket indx
  let freecnt := (k.kmemusage kup).kuUn
  if kbp.kbElmpercl ≤ freecnt then
    if kbp.kbElmpercl < freecnt then .error (.panic "free: multiple frees")
    else if kbp.kbHighwat < kbp.kbTotalfree ∧ type ≠ mMbuf then k.freePage arena addr type
    else .ok (k.freeElement arena addr type, none)
  else .ok (k.freeElement arena addr type, none)

/-- `free`, with the region that it hands to `kmem_free`. -/
def free (addr type : ℕ) : Except Fault (Kernel × Option Region) :=
  if addr < arena.kernelEnd ∨ addr < arena.kmembase ∨ arena.kmemlimit < addr then
    .error (.panic "free: outside arena")
  else
    let indx := (k.kmemusage (arena.btokup addr)).kuIndx
    let alloc := if nbpg < 1 <<< indx then addrmask (bucketIndx nbpg) else addrmask indx
    if addr &&& alloc ≠ 0 then .error (.panic "free: unaligned addr")
    else if maxallocsave ≤ 1 <<< indx then .ok (k.freeLarge arena addr type)
    else k.freeSmall arena addr type

end Kernel

end Bsd386.Kern.Malloc
