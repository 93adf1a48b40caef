import Bsd386.Lib.Words
import Mathlib.Algebra.Ring.Int.Defs
import Mathlib.Algebra.Ring.Nat
import Mathlib.Logic.Function.Basic

/-!
# The user allocator

`lib/libc/stdlib/malloc.c`, without the checks of `DEBUG` and `RCHECK`. A free block begins with a
pointer to the next one, and a block in use with the bytes `ov_magic` and `ov_index` in its place.
Addresses are numbers below 2^32, and the null pointer is 0.
-/

namespace Bsd386.Libc.Malloc

/-- Memory, the break, and the variables of the allocator. -/
structure Heap where
  mem : Memory
  brk : ℕ
  nextf : ℕ → ℕ
  pagesz : ℕ
  pagebucket : ℕ

/-- Which calls of `sbrk` do not fail: the one for the place of the break, the one that aligns it,
and the one for more memory. -/
structure Sbrk where
  here : Bool
  align : Bool
  more : Bool

/-- `MAGIC`. -/
def MAGIC : BitVec 8 := 0xef

/-- `NBUCKETS`. -/
def NBUCKETS : ℕ := 30

/-- The size of `union overhead`. -/
def overhead : ℕ := 4

/-- `getpagesize`. -/
def getpagesize : ℕ := 4096

/-- `sbrk` for so many bytes, which fails at the end of the addresses too. -/
def sbrk (ok : Bool) (amt : ℕ) (h : Heap) : Option (ℕ × Heap) :=
  if ok ∧ h.brk + amt < 2 ^ 32 then some (h.brk, { h with brk := h.brk + amt }) else none

/-! ## Sizes -/

/-- The loop of `malloc` for `pagebucket`, in which `amt` is doubled at most 31 times. -/
def pageLoop (pagesz : ℕ) : ℕ → ℕ → ℕ → ℕ
  | 0, _, bucket => bucket
  | fuel + 1, amt, bucket =>
      if pagesz > amt then pageLoop pagesz fuel (amt <<< 1) (bucket + 1) else bucket

/-- The loop of `malloc` for the bucket, in which `amt` is 0 after 31 turns at most. -/
def sizeLoop (nbytes n : BitVec 32) : ℕ → BitVec 32 → ℕ → Option ℕ
  | 0, _, _ => none
  | fuel + 1, amt, bucket =>
    if amt + n < nbytes then
      if amt <<< 1 = 0 then none else sizeLoop nbytes n fuel (amt <<< 1) (bucket + 1)
    else some bucket

/-- The bucket for a request. -/
def Heap.bucket (h : Heap) (nbytes : BitVec 32) : Option ℕ :=
  let n := BitVec.ofNat 32 (h.pagesz - overhead)
  if nbytes ≤ n then sizeLoop nbytes (-BitVec.ofNat 32 overhead) 32 8 0
  else sizeLoop nbytes n 32 (BitVec.ofNat 32 h.pagesz) h.pagebucket

/-! ## `malloc` -/

/-- How far the break is moved, so that the data behind an overhead begins a page. -/
def alignment (pagesz op : ℕ) : ℕ :=
  let n : ℤ := pagesz - overhead - (op &&& (pagesz - 1) : ℕ)
  (if n < 0 then n + pagesz else n).toNat

/-- What `malloc` does when it is called first: it sets the size of a page, and aligns the break for
the data behind an overhead. It goes on or not. -/
def setup (env : Sbrk) (h : Heap) : Bool × Heap :=
  if h.pagesz ≠ 0 then (true, h)
  else
    let h := { h with pagesz := getpagesize }
    let n := alignment h.pagesz (if env.here then h.brk else 2 ^ 32 - 1)
    let pagebucket := pageLoop h.pagesz 32 8 0
    if n = 0 then (true, { h with pagebucket })
    else (sbrk env.align n h).elim (false, h) fun r ↦ (true, { r.2 with pagebucket })

/-- The loop of `morecore` that makes a list of blocks. -/
def thread (sz : ℕ) : ℕ → ℕ → Memory → Memory
  | 0, _, mem => mem
  | nblks + 1, op, mem => thread sz nblks (op + sz) (mem.setWord op (op + sz))

/-- `sz` of `morecore`, an int. -/
def blockSize (bucket : ℕ) : ℤ := ((1 : BitVec 32) <<< (bucket + 3)).toInt

/-- `amt` of `morecore`. -/
def morecoreAmt (pagesz sz : ℕ) : ℕ := if sz < pagesz then pagesz else sz + pagesz

/-- `nblks` of `morecore`. -/
def morecoreBlocks (pagesz sz : ℕ) : ℕ := if sz < pagesz then pagesz / sz else 1

/-- `morecore`. -/
def morecore (more : Bool) (bucket : ℕ) (h : Heap) : Heap :=
  if blockSize bucket ≤ 0 then h
  else
    let sz := (blockSize bucket).toNat
    (sbrk more (morecoreAmt h.pagesz sz) h).elim h fun r ↦
      { r.2 with
        nextf := Function.update r.2.nextf bucket r.1
        mem := thread sz (morecoreBlocks h.pagesz sz - 1) r.1 r.2.mem }

/-- The end of `malloc`: take the first block of a list. -/
def take (bucket : ℕ) (h : Heap) : ℕ × Heap :=
  let op := h.nextf bucket
  if op = 0 then (0, h)
  else
    (op + overhead, { h with
      nextf := Function.update h.nextf bucket (h.mem.word op)
      mem := (h.mem.set op MAGIC).set (op + 1) (BitVec.ofNat 8 bucket) })

/-- `malloc`. -/
def malloc (env : Sbrk) (nbytes : BitVec 32) (h : Heap) : ℕ × Heap :=
  let r := setup env h
  if r.1 then
    (r.2.bucket nbytes).elim (0, r.2) fun bucket ↦
      if r.2.nextf bucket = 0 then take bucket (morecore env.more bucket r.2)
      else take bucket r.2
  else (0, r.2)

/-! ## `free` and `realloc` -/

/-- `free`. -/
def free (cp : ℕ) (h : Heap) : Heap :=
  if cp = 0 then h
  else
    let op := cp - overhead
    if h.mem op ≠ MAGIC then h
    else
      let size := (h.mem (op + 1)).toNat
      { h with
        mem := h.mem.setWord op (h.nextf size)
        nextf := Function.update h.nextf size op }

/-- The first blocks of a list. -/
def firsts (mem : Memory) : ℕ → ℕ → List ℕ
  | 0, _ => []
  | k + 1, p => if p = 0 then [] else p :: firsts mem k (mem.word p)

/-- `findbucket`, for a length that is not -1. -/
def findbucket (freep srchlen : ℕ) (h : Heap) : Option ℕ :=
  (List.range NBUCKETS).find? fun i ↦ freep ∈ firsts h.mem srchlen (h.nextf i)

/-- `realloc_srchlen`. -/
def reallocSrchlen : ℕ := 4

/-- `1 << i` less an overhead, and with a page more from a page on. -/
def capacity (pagesz i : ℕ) : ℕ :=
  let size := 2 ^ (i % 32)
  if size < pagesz then size - overhead else size + pagesz - overhead

/-- `realloc` of a block in use: the same block, or one to which the contents are moved. -/
def moveBlock (env : Sbrk) (cp : ℕ) (nbytes : BitVec 32) (onb : ℕ) (h : Heap) : ℕ × Heap :=
  let r := malloc env nbytes h
  if r.1 = 0 then (0, r.2)
  else if cp ≠ r.1 then
    (r.1, { r.2 with mem := r.2.mem.copy cp r.1 (min nbytes.toNat onb) })
  else r

/-- The block is right for the size. -/
def stays (pagesz i : ℕ) (nbytes : BitVec 32) : Prop :=
  nbytes.toNat ≤ capacity pagesz (i + 3) ∧
    nbytes.toNat > if i = 0 then 0 else capacity pagesz (i + 2)

instance (pagesz i : ℕ) (nbytes : BitVec 32) : Decidable (stays pagesz i nbytes) :=
  inferInstanceAs (Decidable (_ ∧ _))

/-- `realloc`. -/
def realloc (env : Sbrk) (cp : ℕ) (nbytes : BitVec 32) (h : Heap) : ℕ × Heap :=
  if cp = 0 then malloc env nbytes h
  else
    let op := cp - overhead
    if h.mem op = MAGIC then
      let i := (h.mem (op + 1)).toNat
      if stays h.pagesz i nbytes then (cp, h)
      else moveBlock env cp nbytes (capacity h.pagesz (i + 3)) (free cp h)
    else
      let i := ((findbucket op 1 h).orElse fun _ ↦ findbucket op reallocSrchlen h).getD NBUCKETS
      moveBlock env cp nbytes (capacity h.pagesz (i + 3)) h

end Bsd386.Libc.Malloc
