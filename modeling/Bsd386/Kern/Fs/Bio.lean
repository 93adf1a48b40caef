import Mathlib.Algebra.Ring.Int.Defs
import Mathlib.Logic.Function.Basic

/-!
# The buffer cache

`kern/fs/bio.c` keeps the buffers of the block devices on free lists and on hash chains. A buffer
begins as an empty header without memory. It gets memory when there is space for a new buffer, and
keeps it: it is recycled for another block, and its memory is exchanged for one of another size.
-/

namespace Bsd386.Kern.Fs

open Function

/-- A buffer: the flags that decide where it goes, the block it holds, whether `b_un.b_addr` is
memory, and its size. -/
structure Buf (V : Type) where
  busy : Bool
  inval : Bool
  error : Bool
  nocache : Bool
  cache : Bool
  age : Bool
  delwri : Bool
  vp : Option V
  lblkno : ℤ
  addr : Bool
  bufsize : ℤ

/-- The buffers with their free lists `BQ_EMPTY`, `BQ_AGE` and `BQ_LRU` and their hash chains, and
the space. -/
structure Bio (B V : Type) where
  freebufspace : ℤ
  allocbufspace : ℤ
  empty : List B
  age : List B
  lru : List B
  chain : ℕ → List B
  buf : B → Buf V

/-- `b_flags` with no other flags than these. -/
def Buf.assign {V : Type} (b : Buf V) (busy inval : Bool) : Buf V where
  busy
  inval
  error := false
  nocache := false
  cache := false
  age := false
  delwri := false
  vp := b.vp
  lblkno := b.lblkno
  addr := b.addr
  bufsize := b.bufsize

/-- A buffer with junk contents. -/
def Buf.junk {V : Type} (b : Buf V) : Bool := b.inval || b.error || b.nocache

/-- A buffer with stale but valid contents. -/
def Buf.stale {V : Type} (b : Buf V) : Bool := !b.cache && b.age

/-- What `brelse` leaves of a buffer. -/
def Buf.release {V : Type} (b : Buf V) : Buf V where
  busy := false
  inval := b.junk
  error := false
  nocache := false
  cache := false
  age := !b.junk && b.stale
  delwri := !b.junk && b.delwri
  vp := if b.junk then none else b.vp
  lblkno := b.lblkno
  addr := b.addr
  bufsize := b.bufsize

variable {B V : Type} [DecidableEq B] [DecidableEq V]

namespace Bio

/-- Change a buffer. -/
def modify (c : Bio B V) (bp : B) (f : Buf V → Buf V) : Bio B V :=
  { c with buf := update c.buf bp (f (c.buf bp)) }

/-- `bremfree`. -/
def bremfree (c : Bio B V) (bp : B) : Bio B V :=
  { c with empty := c.empty.erase bp, age := c.age.erase bp, lru := c.lru.erase bp }

/-- `bremhash`. -/
def bremhash (c : Bio B V) (bp : B) : Bio B V :=
  { c with chain := fun h ↦ (c.chain h).erase bp }

/-- `binshash`. -/
def binshash (c : Bio B V) (bp : B) (h : ℕ) : Bio B V :=
  { c with chain := update c.chain h (bp :: c.chain h) }

/-- `incore`, on the chain of the block. -/
def incore (c : Bio B V) (hash : V → ℤ → ℕ) (vp : V) (blkno : ℤ) : Option B :=
  (c.chain (hash vp blkno)).find? fun bp ↦
    (c.buf bp).lblkno = blkno ∧ (c.buf bp).vp = some vp ∧ (c.buf bp).inval = false

/-- `allocbuf`. -/
def allocbuf (c : Bio B V) (bp : B) (size : ℤ) : Bio B V :=
  let grown := size - (c.buf bp).bufsize
  { c.modify bp fun b ↦ { b with addr := true, bufsize := size } with
    freebufspace := c.freebufspace - grown
    allocbufspace := c.allocbufspace + grown }

/-- Put a buffer with these flags on its free list. -/
def enqueue (c : Bio B V) (bp : B) (b : Buf V) : Bio B V :=
  if b.junk then { c with age := bp :: c.age }
  else if b.stale then { c with age := c.age ++ [bp] }
  else { c with lru := c.lru ++ [bp] }

/-- `brelse`. -/
def brelse (c : Bio B V) (bp : B) : Bio B V :=
  (c.modify bp Buf.release).enqueue bp (c.buf bp)

/-- `bawrite`, up to the start of the transfer. `biodone` releases the buffer. -/
def bawrite (c : Bio B V) (bp : B) : Bio B V :=
  if (c.buf bp).inval then c.brelse bp
  else c.modify bp fun b ↦ { b with error := false, delwri := false, age := b.age || b.delwri }

/-- `bdwrite`. -/
def bdwrite (c : Bio B V) (bp : B) : Bio B V :=
  if (c.buf bp).inval then c.brelse bp
  else (c.modify bp fun b ↦ { b with delwri := true }).brelse bp

/-- The buffer of which `getnewbuf` makes a new one, if there is space and a header, and memory can
be had. -/
def fresh (c : Bio B V) (malloc : Bool) (sz : ℤ) : Option B :=
  if sz < c.freebufspace ∧ malloc then c.empty.head? else none

/-- The buffer that it recycles otherwise, of the list `BQ_AGE` or of `BQ_LRU`. -/
def tryfree (c : Bio B V) : Option B := c.age.head?.or c.lru.head?

/-- Memory of another size if the size is not right. -/
def resize (c : Bio B V) (bp : B) (size : ℤ) : Bio B V :=
  if (c.buf bp).bufsize ≠ size then c.allocbuf bp size else c

/-- `fillin:`. -/
def fillin (c : Bio B V) (bp : B) (sz : ℤ) : Bio B V :=
  let c := (c.bremhash bp).modify bp fun b ↦ { b with vp := none, lblkno := 0 }
  (c.resize bp sz).modify bp fun b ↦ { b with bufsize := sz }

/-- Give memory to an empty header. -/
def constitute (c : Bio B V) (bp : B) (sz : ℤ) : Bio B V :=
  let c := { c with
    freebufspace := c.freebufspace - sz
    allocbufspace := c.allocbufspace + sz }
  (c.bremfree bp).modify bp fun b ↦ { b.assign true true with addr := true, bufsize := sz }

/-- `getnewbuf` from `start:` on. It returns without a buffer when it has slept, and it goes to
`start:` again when it has written a delayed write out. -/
def getnewbuf (c : Bio B V) (malloc : Bool) (sz : ℤ) : Option B × Bio B V :=
  match c.fresh malloc sz with
  | some bp => (some bp, (c.constitute bp sz).fillin bp sz)
  | none =>
    match c.tryfree with
    | none => (none, c)
    | some bp =>
      let c := c.bremfree bp
      if (c.buf bp).delwri then (none, (c.modify bp fun b ↦ { b with busy := true }).bawrite bp)
      else (some bp, (c.modify bp fun b ↦ b.assign true true).fillin bp sz)

/-- `getblk` from the head of its loop on. It returns without a buffer when it has slept or has to
look for a new buffer again. -/
def getblk (c : Bio B V) (hash : V → ℤ → ℕ) (malloc : Bool) (vp : V) (blkno size : ℤ) :
    Option B × Bio B V :=
  match c.incore hash vp blkno with
  | some bp =>
    if (c.buf bp).busy then (none, c.modify bp fun b ↦ { b with age := false, cache := true })
    else
      let c := (c.modify bp fun b ↦ { b with age := false, busy := true, cache := true }).bremfree
        bp
      (some bp, c.resize bp size)
  | none =>
    let r := c.getnewbuf malloc size
    match r.1 with
    | none => (none, r.2)
    | some bp =>
      let c := (r.2.modify bp fun b ↦ { b with lblkno := blkno, vp := some vp }).binshash bp
        (hash vp blkno)
      (some bp, c.modify bp fun b ↦ b.assign true false)

end Bio

/-- What is done with the cache: `getblk` and `geteblk`, each once through its loop, with what
`malloc` can give without waiting, and what is done with a buffer that has been returned. -/
inductive BioCall (B V : Type)
  | getblk (malloc : Bool) (vp : V) (blkno size : ℤ)
  | geteblk (malloc : Bool) (size : ℤ)
  | allocbuf (bp : B) (size : ℤ)
  | brelse (bp : B)
  | bawrite (bp : B)
  | bdwrite (bp : B)

/-- A call on the cache. -/
def bioStep (hash : V → ℤ → ℕ) (c : Bio B V) : BioCall B V → Option B × Bio B V
  | .getblk malloc vp blkno size => c.getblk hash malloc vp blkno size
  | .geteblk malloc size => c.getnewbuf malloc size
  | .allocbuf bp size => (none, c.allocbuf bp size)
  | .brelse bp => (none, c.brelse bp)
  | .bawrite bp => (none, c.bawrite bp)
  | .bdwrite bp => (none, c.bdwrite bp)

/-- `bufinit`, on the space that `startup` has set aside. -/
def bufinit (space : ℤ) (headers : List B) : Bio B V where
  freebufspace := space
  allocbufspace := 0
  empty := headers
  age := []
  lru := []
  chain _ := []
  buf _ :=
    { busy := false, inval := true, error := false, nocache := false, cache := false, age := false,
      delwri := false, vp := none, lblkno := 0, addr := false, bufsize := 0 }

end Bsd386.Kern.Fs
