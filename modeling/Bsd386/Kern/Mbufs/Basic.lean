import Mathlib.Algebra.Ring.Int.Defs
import Mathlib.Algebra.Ring.Nat
import Mathlib.Data.List.Basic
import Mathlib.Tactic.SplitIfs

/-!
# Mbufs and clusters

The macros of `domain/mbuf.h` and the routines of `kern/socket/mbuf.c` on chains of mbufs. An mbuf
has its own area of bytes, in front of which there may be a packet header, or it refers to a cluster
that other mbufs may share. What `MALLOC` returns to each `MGET` is part of the input. A write
outside of the area of an mbuf, or into a cluster that is not free, is a fault. A free cluster keeps
the address of the next free one in its first bytes.
-/

namespace Bsd386.Kern.Mbufs

/-- `MLEN`. -/
abbrev mlen : ℕ := 108

/-- `MHLEN`. -/
abbrev mhlen : ℕ := 100

/-- `MCLBYTES`. -/
abbrev mclbytes : ℕ := 2048

/-- `MCLSHIFT`, which is not the logarithm of `MCLBYTES`. -/
abbrev mclshift : ℕ := 10

/-- `M_COPYALL`. -/
abbrev mCopyall : ℕ := 1000000000

/-- A panic, a write that leaves the area of its mbuf, or a loop that does not end. -/
inductive Fault
  | panic (msg : String)
  | stray
  | hang
  deriving DecidableEq, Repr

/-- Some bytes. -/
structure Block (n : ℕ) where
  bytes : List UInt8
  size : bytes.length = n

/-- `m_dat`. -/
abbrev Area : Type := Block mlen

/-- An area of zeros. -/
def zeroArea : Area := ⟨List.replicate mlen 0, List.length_replicate⟩

/-- A cluster of zeros. -/
def zeroCluster : Block mclbytes := ⟨List.replicate mclbytes 0, List.length_replicate⟩

/-- `struct mbuf`: where `m_data` points to in its area or its cluster, `m_pkthdr.len` if `M_PKTHDR`
is set, and the cluster if `M_EXT` is set. Clusters have numbers. -/
structure Mbuf where
  mData : ℕ
  mLen : ℕ
  pkthdr : Option ℤ
  ext : Option ℕ
  mDat : Area

/-- The clusters from `mbutl` on, with `mclrefcnt` and the list `mclfree`. -/
structure Store where
  mbutl : ℕ
  clusters : ℕ → Block mclbytes
  mclrefcnt : ℕ → ℤ
  mclfree : List ℕ

/-- A chain. -/
abbrev Chain : Type := List Mbuf

/-- What `MALLOC` returns to one `MGET` after the other. -/
abbrev Gets : Type := List (Option Area)

/-! ## Areas -/

/-- Where the area of an mbuf starts: `m_pktdat` or `m_dat`. -/
def Mbuf.start (m : Mbuf) : ℕ := if m.pkthdr.isSome then mlen - mhlen else 0

/-- The bytes that `m_data` points into. -/
def Mbuf.area (s : Store) (m : Mbuf) : List UInt8 :=
  match m.ext with
  | none => m.mDat.bytes
  | some c => (s.clusters c).bytes

/-- The data of an mbuf. -/
def Mbuf.bytes (s : Store) (m : Mbuf) : List UInt8 := ((m.area s).drop m.mData).take m.mLen

/-- The data of a chain. -/
def bytes (s : Store) (chain : Chain) : List UInt8 := chain.flatMap (Mbuf.bytes s)

theorem splice_length {n : ℕ} (a : Block n) (pos : ℕ) (data : List UInt8)
    (hfits : pos + data.length ≤ n) :
    (a.bytes.take pos ++ data ++ a.bytes.drop (pos + data.length)).length = n := by
  have hsize := a.size
  simp only [List.length_append, List.length_take, List.length_drop]
  omega

/-- Some bytes are replaced. -/
def Block.splice {n : ℕ} (a : Block n) (pos : ℕ) (data : List UInt8)
    (hfits : pos + data.length ≤ n) : Block n where
  bytes := a.bytes.take pos ++ data ++ a.bytes.drop (pos + data.length)
  size := splice_length a pos data hfits

/-- `memcpy` to the position `pos` of the area of an mbuf. -/
def Mbuf.write (m : Mbuf) (pos : ℕ) (data : List UInt8) : Except Fault Mbuf :=
  if h : m.ext = none ∧ m.start ≤ pos ∧ pos + data.length ≤ mlen then
    .ok { m with mDat := m.mDat.splice pos data h.2.2 }
  else .error .stray

/-! ## Macros -/

/-- `MGET`, after which `m_len` is not set. -/
def mget : Gets → Option Mbuf × Gets
  | [] => (none, [])
  | none :: gets => (none, gets)
  | some a :: gets => (some ⟨0, 0, none, none, a⟩, gets)

/-- The value that a `char` keeps. -/
def char (i : ℤ) : ℤ := i.bmod 256

/-- `mtocl` of a cluster. -/
def mtocl (c : ℕ) : ℕ := c * mclbytes / 2 ^ mclshift

/-- `++mclrefcnt[mtocl(c)]`. -/
def Store.incr (s : Store) (c : ℕ) : Store :=
  { s with
    mclrefcnt := fun i ↦ if i = mtocl c then char (s.mclrefcnt i + 1) else s.mclrefcnt i }

/-- `--mclrefcnt[mtocl(c)]`. -/
def Store.decr (s : Store) (c : ℕ) : Store :=
  { s with
    mclrefcnt := fun i ↦ if i = mtocl c then char (s.mclrefcnt i - 1) else s.mclrefcnt i }

/-- The bytes of the pointer `mclfree`. -/
def Store.mclNext (s : Store) : List UInt8 :=
  let pointer := (s.mclfree.head?.map fun c ↦ s.mbutl + c * mclbytes).getD 0
  [pointer, pointer / 256, pointer / 65536, pointer / 16777216].map UInt8.ofNat

theorem mclNext_fits (s : Store) : 0 + s.mclNext.length ≤ mclbytes := by
  simp [Store.mclNext, mclbytes]

/-- A cluster goes to the front of `mclfree`, with `mcl_next` in its first bytes. -/
def Store.push (s : Store) (c : ℕ) : Store :=
  { s with
    clusters := fun i ↦
      if i = c then (s.clusters i).splice 0 s.mclNext (mclNext_fits s) else s.clusters i
    mclfree := c :: s.mclfree }

/-- `MCLFREE`. -/
def mclfree (c : ℕ) (s : Store) : Store :=
  if (s.decr c).mclrefcnt (mtocl c) = 0 then (s.decr c).push c else s.decr c

/-- `m_clalloc` for one page at `c`, which has two clusters, or for no page. -/
def mClalloc (page : Option ℕ) (s : Store) : Store :=
  match page with
  | none => s
  | some c => (s.push c).push (c + 1)

/-- `MCLALLOC`, where `page` is what `kmem_alloc` returns. -/
def mclalloc (page : Option ℕ) (s : Store) : Option ℕ × Store :=
  let s := if s.mclfree = [] then mClalloc page s else s
  match s.mclfree with
  | [] => (none, s)
  | c :: rest => (some c, { s.incr c with mclfree := rest })

/-- `MCLGET`. -/
def mclget (page : Option ℕ) (m : Mbuf) (s : Store) : Mbuf × Store :=
  match mclalloc page s with
  | (none, s) => (m, s)
  | (some c, s) => ({ m with mData := 0, ext := some c }, s)

/-- `MFREE`, as far as clusters are concerned. -/
def mfree (m : Mbuf) (s : Store) : Store :=
  match m.ext with
  | none => s
  | some c => mclfree c s

/-- `m_freem`. -/
def mFreem : Chain → Store → Store
  | [], s => s
  | m :: chain, s => mFreem chain (mfree m s)

/-- `M_COPY_PKTHDR`. -/
def mCopyPkthdr (dst src : Mbuf) : Mbuf := { dst with pkthdr := src.pkthdr, mData := mlen - mhlen }

/-- The packet header of a chain goes from its first mbuf, if it has one, to a new mbuf. -/
def moveHeader (dst src : Mbuf) : Mbuf :=
  if src.pkthdr.isSome then mCopyPkthdr dst src else dst

/-! ## `m_prepend` -/

/-- `m_prepend` of a chain that begins with `m`. -/
def mPrepend (m : Mbuf) (next : Chain) (len : ℕ) (gets : Gets) (s : Store) :
    Option Chain × Store :=
  match (mget gets).1 with
  | none => (none, mFreem (m :: next) s)
  | some mn =>
    let mn := moveHeader mn m
    let mn := if len < mhlen then { mn with mData := mn.mData + (mhlen - len) / 4 * 4 } else mn
    (some ({ mn with mLen := len } :: { m with pkthdr := none } :: next), s)

/-! ## `m_copym` and `m_copydata` -/

/-- The loop of `m_copym` and of `m_copydata` that looks for the start. -/
def seek (msg : String) : Chain → ℕ → Except Fault (Chain × ℕ)
  | [], off => if off = 0 then .ok ([], 0) else .error (.panic msg)
  | m :: chain, off =>
    if off = 0 then .ok (m :: chain, 0)
    else if off < m.mLen then .ok (m :: chain, off)
    else seek msg chain (off - m.mLen)

/-- The mbufs that the loop of `m_copym` has made, whether one was missing, and the clusters. -/
structure Copies where
  top : Chain
  failed : Bool
  store : Store

/-- The header of a copy. -/
def copyHeader (copyhdr : Bool) (len : ℕ) (m n : Mbuf) : Mbuf :=
  if copyhdr then
    let n := mCopyPkthdr n m
    if len = mCopyall then n else { n with pkthdr := n.pkthdr.map fun _ ↦ (len : ℤ) }
  else n

/-- The data of a copy, of which the cluster is shared. -/
def copyData (m n : Mbuf) (off len : ℕ) (s : Store) : Except Fault (Mbuf × Store) :=
  let n := { n with mLen := min len (m.mLen - off) }
  match m.ext with
  | some c => .ok ({ n with mData := m.mData + off, ext := some c }, s.incr c)
  | none => do return (← n.write n.mData (((m.area s).drop (m.mData + off)).take n.mLen), s)

/-- The loop of `m_copym` that copies. -/
def copyLoop : Chain → (copyhdr : Bool) → (off len : ℕ) → Gets → Store → Except Fault Copies
  | [], _, _, len, _, s =>
    if len = 0 ∨ len = mCopyall then .ok ⟨[], false, s⟩ else .error (.panic "m_copym")
  | m :: chain, copyhdr, off, len, gets, s =>
    if len = 0 then .ok ⟨[], false, s⟩
    else
      match (mget gets).1 with
      | none => .ok ⟨[], true, s⟩
      | some n => do
        let copied ← copyData m (copyHeader copyhdr len m n) off len s
        let rest ← copyLoop chain false 0 (if len = mCopyall then len else len - copied.1.mLen)
          (mget gets).2 copied.2
        return { rest with top := copied.1 :: rest.top }

/-- `m_copym`. -/
def mCopym (chain : Chain) (off0 len : ℤ) (gets : Gets) (s : Store) :
    Except Fault (Chain × Store) := do
  if off0 < 0 ∨ len < 0 then throw (.panic "m_copym")
  let start ← seek "m_copym" chain off0.toNat
  let made ← copyLoop start.1 (off0 = 0 ∧ chain.head?.any fun m ↦ m.pkthdr.isSome) start.2
    len.toNat gets s
  if made.failed then return ([], mFreem made.top made.store)
  else return (made.top, made.store)

/-- The loop of `m_copydata` that copies. -/
def copydataLoop (s : Store) : Chain → (off len : ℕ) → Except Fault (List UInt8)
  | [], _, len => if len = 0 then .ok [] else .error (.panic "m_copydata")
  | m :: chain, off, len =>
    if len = 0 then .ok []
    else do
      let count := min (m.mLen - off) len
      let rest ← copydataLoop s chain 0 (len - count)
      return ((m.area s).drop (m.mData + off)).take count ++ rest

/-- `m_copydata`: what it copies to `cp`. -/
def mCopydata (chain : Chain) (off len : ℤ) (s : Store) : Except Fault (List UInt8) := do
  if off < 0 ∨ len < 0 then throw (.panic "m_copydata")
  let start ← seek "m_copydata" chain off.toNat
  copydataLoop s start.1 start.2 len.toNat

/-! ## `m_cat` -/

/-- The loop of `m_cat` behind the last mbuf. -/
def splat (m : Mbuf) : Chain → Store → Except Fault (Chain × Store)
  | [], s => .ok ([m], s)
  | n :: chain, s =>
    if m.ext.isSome ∨ mlen ≤ m.mData + m.mLen + n.mLen then .ok (m :: n :: chain, s)
    else do
      let m ← m.write (m.mData + m.mLen) (n.bytes s)
      splat { m with mLen := m.mLen + n.mLen } chain (mfree n s)

/-- `m_cat` to a chain that begins with `m`. -/
def mCat (m : Mbuf) : Chain → Chain → Store → Except Fault (Chain × Store)
  | [], n, s => splat m n s
  | m' :: next, n, s => do
    let joined ← mCat m' next n s
    return (m :: joined.1, joined.2)

/-! ## `m_adj` -/

/-- Take from the packet header, if there is one. -/
def shorten (m : Mbuf) (n : ℤ) : Mbuf := { m with pkthdr := m.pkthdr.map (· - n) }

/-- The loop of `m_adj` from the front, and what it leaves of `len`. -/
def trimFront : Chain → ℕ → Chain × ℕ
  | [], len => ([], len)
  | m :: chain, len =>
    if len = 0 then (m :: chain, 0)
    else if m.mLen ≤ len then
      ({ m with mLen := 0 } :: (trimFront chain (len - m.mLen)).1,
        (trimFront chain (len - m.mLen)).2)
    else ({ m with mLen := m.mLen - len, mData := m.mData + len } :: chain, 0)

/-- The bytes that `m_adj` counts. -/
def count (chain : Chain) : ℕ := (chain.map Mbuf.mLen).sum

/-- Take from the last mbuf. -/
def trimLast (len : ℕ) : Chain → Chain
  | [] => []
  | [m] => [{ m with mLen := m.mLen - len }]
  | m :: m' :: chain => m :: trimLast len (m' :: chain)

/-- The second scan of `m_adj`, behind which there is no data. -/
def truncate : Chain → ℕ → Chain
  | [], _ => []
  | m :: chain, n =>
    if n ≤ m.mLen then { m with mLen := n } :: chain.map fun m ↦ { m with mLen := 0 }
    else m :: truncate chain (n - m.mLen)

/-- The change of the packet header in the first mbuf. -/
def onHeader (f : Mbuf → Mbuf) : Chain → Chain
  | [] => []
  | m :: chain => f m :: chain

/-- `m_adj` from the back. -/
def adjBack (mp : Chain) (len : ℕ) : Chain :=
  if len ≤ (mp.getLast?.map Mbuf.mLen).getD 0 then onHeader (shorten · len) (trimLast len mp)
  else
    onHeader (fun m ↦ { m with pkthdr := m.pkthdr.map fun _ ↦ ((count mp - len : ℕ) : ℤ) })
      (truncate mp (count mp - len))

/-- `m_adj`. -/
def mAdj (mp : Chain) (reqLen : ℤ) : Chain :=
  if mp = [] ∨ reqLen = 0 then mp
  else if 0 < reqLen then
    onHeader (shorten · (reqLen - (trimFront mp reqLen.toNat).2)) (trimFront mp reqLen.toNat).1
  else adjBack mp (-reqLen).toNat

/-! ## `m_pullup` -/

/-- What the loop of `m_pullup` leaves: the mbuf `m`, the rest of the chain, and `len`. -/
structure Pulled where
  m : Mbuf
  n : Chain
  len : ℕ
  store : Store

/-- The loop of `m_pullup`. When it comes to the same mbuf again there is no space, and it does not
end. -/
def pullLoop (maxProtohdr : ℕ) (m : Mbuf) (len space : ℕ) : Chain → Store → Except Fault Pulled
  | [], s => .ok ⟨m, [], len, s⟩
  | n :: chain, s => do
    let count := min (min (max len maxProtohdr) space) n.mLen
    let m ← m.write (m.mData + m.mLen) ((n.bytes s).take count)
    let m := { m with mLen := m.mLen + count }
    if n.mLen - count ≠ 0 then
      if len - count = 0 then
        return ⟨m, { n with mLen := n.mLen - count, mData := n.mData + count } :: chain, 0, s⟩
      else throw .hang
    else if len - count = 0 then return ⟨m, chain, 0, mfree n s⟩
    else pullLoop maxProtohdr m (len - count) (space - count) chain (mfree n s)

/-- The end of `m_pullup`. -/
def pullEnd (pulled : Pulled) : Option Chain × Store :=
  if 0 < pulled.len then (none, mFreem pulled.n (mfree pulled.m pulled.store))
  else (some (pulled.m :: pulled.n), pulled.store)

/-- `m_pullup` of a chain that begins with `n`. -/
def mPullup (maxProtohdr : ℕ) (n : Mbuf) (next : Chain) (len : ℕ) (gets : Gets) (s : Store) :
    Except Fault (Option Chain × Store) :=
  if n.ext = none ∧ n.mData + len < mlen ∧ next ≠ [] then
    if len ≤ n.mLen then .ok (some (n :: next), s)
    else do
      return pullEnd (← pullLoop maxProtohdr n (len - n.mLen) (mlen - (n.mData + n.mLen)) next s)
  else if mhlen < len then .ok (none, mFreem (n :: next) s)
  else
    match (mget gets).1 with
    | none => .ok (none, mFreem (n :: next) s)
    | some m => do
      let m := moveHeader { m with mLen := 0 } n
      return pullEnd (← pullLoop maxProtohdr m len (mlen - m.mData)
        ({ n with pkthdr := none } :: next) s)

end Bsd386.Kern.Mbufs
