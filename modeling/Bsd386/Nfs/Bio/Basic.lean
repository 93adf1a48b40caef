import Mathlib.Algebra.Ring.Nat
import Mathlib.Data.Int.Notation
import Mathlib.Data.Nat.Notation
import Mathlib.Logic.Function.Basic

/-!
# Writing through the buffer cache

`nfs_write` of `nfs/nfs_bio.c` for one file, with what it uses of `kern/fs/bio.c` and of
`kern/subr/uio.c`. The vnode is locked while a process writes, so one call is in progress at most.
Output of a buffer is one event when it is started and another one when it is done.
-/

namespace Bsd386.Nfs.Bio

/-- A byte of a buffer, and the place in the file for which it was stored or from which it was read.
What an earlier use of the buffer left has no place. -/
structure Cell where
  value : BitVec 8
  place : Option ℤ
  deriving DecidableEq

/-- A buffer of the file. Every buffer that is `busy` outside of `turn` is being written. -/
structure Buf where
  addr : ℕ → Cell
  dirtyoff : ℕ
  dirtyend : ℕ
  delwri : Bool
  busy : Bool

/-- A uio for a write from user space: the rest of each iovec, with `none` for a byte on which the
copy fails, and the place in the file. -/
structure Uio where
  iov : List (List (Option (BitVec 8)))
  offset : BitVec 32

/-- `uio_resid`, the sum of the lengths. -/
def Uio.resid (uio : Uio) : ℕ := (uio.iov.map List.length).sum

/-! ## Copies from user space -/

/-- The bytes before the first one on which the copy fails. -/
def readable : List (Option (BitVec 8)) → List (BitVec 8)
  | some c :: cs => c :: readable cs
  | _ => []

/-- `EFAULT`. -/
def EFAULT : ℕ := 14

/-- `copyin` of bytes for a place in the file. -/
def copyin (user : List (Option (BitVec 8))) (offset : BitVec 32) (cp : ℕ) (addr : ℕ → Cell) :
    ℕ × (ℕ → Cell) :=
  (if (readable user).length = user.length then 0 else EFAULT,
    fun i ↦ if cp ≤ i then
      (readable user)[i - cp]?.elim (addr i) fun c ↦
        ⟨c, some (offset + BitVec.ofNat 32 (i - cp)).toInt⟩
    else addr i)

/-- `uiotofunc1` with `copyin`. An iovec that is not used up ends the loop, since `len` is. -/
def uiotofunc1 (cp order : ℕ) : ℕ → (ℕ → Cell) → List (List (Option (BitVec 8))) → BitVec 32 →
    ℕ × (ℕ → Cell) × Uio
  | _, addr, [], offset => (0, addr, ⟨[], offset⟩)
  | len, addr, v :: vs, offset =>
    if len = 0 then (0, addr, ⟨v :: vs, offset⟩)
    else
      let cnt := min v.length len
      let rv := copyin (v.take cnt) offset cp addr
      if order &&& 2 ≠ 0 ∧ rv.1 ≠ 0 then (rv.1, rv.2, ⟨v :: vs, offset⟩)
      else if v.length = cnt then
        uiotofunc1 cp order (len - cnt) rv.2 vs (offset + BitVec.ofNat 32 cnt)
      else (0, rv.2, ⟨v.drop cnt :: vs, offset + BitVec.ofNat 32 cnt⟩)

/-- `uiomove` to `b_un.b_addr + on`. -/
def uiomove (addr : ℕ → Cell) (cp len : ℕ) (uio : Uio) : ℕ × (ℕ → Cell) × Uio :=
  uiotofunc1 cp 1 len addr uio.iov uio.offset

/-! ## The file -/

/-- What a file is in memory, with the call of `nfs_write` that is in progress. -/
structure File where
  nSize : BitVec 32
  nmodified : Bool
  cache : ℤ → Option Buf
  call : Option Uio

/-- What happens. -/
inductive Event
  | nfsWrite (uio : Uio)
  | turn (leftover : ℕ → BitVec 8)
  | bawrite (lbn : ℤ)
  | written (lbn : ℤ)
  | recycle (lbn : ℤ)

/-- What is seen of it: bytes sent with their places, a copy of so many bytes for a place with the
error if the call returns with it, or the error of a call that returns without one. -/
inductive Answer
  | nothing
  | sent (bytes : List (ℤ × Cell))
  | moved (offset : BitVec 32) (n : ℕ) (error : Option ℕ)
  | returned (error : ℕ)

/-- `EINVAL`. -/
def EINVAL : ℕ := 22

/-- The start of `nfs_write`. -/
def nfsWrite (s : File) (uio : Uio) : Answer × File :=
  if s.call.isSome then (.nothing, s)
  else if uio.offset.toInt < 0 then (.returned EINVAL, s)
  else if uio.resid = 0 then (.returned 0, s)
  else (.nothing, { s with nmodified := true, call := some uio })

section Turn

variable (biosize : ℕ) (uio : Uio)

/-- `lbn` of `nfs_write`. -/
def Uio.lbn : ℤ := uio.offset.toInt.tdiv biosize

/-- `on` of `nfs_write`. -/
def Uio.on : ℕ := (uio.offset &&& BitVec.ofNat 32 (biosize - 1)).toNat

/-- `n` of `nfs_write`. -/
def Uio.n : ℕ := min (biosize - uio.on biosize) uio.resid

/-- The buffer that `getblk` gives. -/
def File.getblk (s : File) (lbn : ℤ) (leftover : ℕ → BitVec 8) : Buf :=
  (s.cache lbn).getD ⟨fun i ↦ ⟨leftover i, none⟩, 0, 0, false, false⟩

/-- Put a buffer back. -/
def File.put (s : File) (lbn : ℤ) (bp : Buf) : File :=
  { s with cache := Function.update s.cache lbn (some bp) }

/-- The new write leaves a contiguous dirty area. -/
def Buf.Contiguous (bp : Buf) (on n : ℕ) : Prop :=
  bp.dirtyend > 0 → on ≤ bp.dirtyend ∧ on + n ≥ bp.dirtyoff

instance (bp : Buf) (on n : ℕ) : Decidable (bp.Contiguous on n) :=
  inferInstanceAs (Decidable (_ → _))

/-- The update of `b_dirtyoff` and `b_dirtyend`. -/
def Buf.extend (bp : Buf) (on n : ℕ) : Buf :=
  if bp.dirtyend > 0 then
    { bp with dirtyoff := min on bp.dirtyoff, dirtyend := max (on + n) bp.dirtyend }
  else { bp with dirtyoff := on, dirtyend := on + n }

/-- The start of the output of a buffer, as by `bwrite` and `bawrite`. -/
def Buf.output (bp : Buf) : Buf := { bp with delwri := false, busy := true }

/-- The update of `n_size`. -/
def File.grow (s : File) : File :=
  let last := uio.offset + BitVec.ofNat 32 (uio.n biosize)
  if s.nSize < last then { s with nSize := last } else s

/-- A turn of the loop of `nfs_write` from the copy on. -/
def copyTurn (s : File) (bp : Buf) : Answer × File :=
  let on := uio.on biosize
  let n := uio.n biosize
  let bp := bp.extend on n
  let r := uiomove bp.addr on n uio
  let bp := { bp with addr := r.2.1 }
  if r.1 ≠ 0 then (.returned r.1, { s.put (uio.lbn biosize) bp with call := none })
  else
    let bp := if n + on = biosize then bp.output else { bp with delwri := true }
    let s := s.put (uio.lbn biosize) bp
    if r.2.2.resid > 0 ∧ n ≠ 0 then
      (.moved uio.offset n none, { s with call := some r.2.2 })
    else (.moved uio.offset n (some 0), { s with call := none })

/-- A turn of the loop of `nfs_write`, up to the next `again`. While the buffer is busy it sleeps,
also after the `bwrite` of a dirty area that is apart from the new one. -/
def turn (s : File) (leftover : ℕ → BitVec 8) : Answer × File :=
  s.call.elim (.nothing, s) fun uio ↦
    let s := s.grow biosize uio
    let bp := s.getblk (uio.lbn biosize) leftover
    if bp.busy then (.nothing, s)
    else if bp.Contiguous (uio.on biosize) (uio.n biosize) then copyTurn biosize uio s bp
    else (.nothing, s.put (uio.lbn biosize) bp.output)

/-- The start of the output of a delayed write, which `getnewbuf` and `vflushbuf` ask for. -/
def bawrite (s : File) (lbn : ℤ) : Answer × File :=
  (.nothing, (s.cache lbn).elim s fun bp ↦
    if ¬bp.busy ∧ bp.delwri then s.put lbn bp.output else s)

/-- The end of the output: what is in the dirty range is sent, and the range is empty. -/
def written (s : File) (lbn : ℤ) : Answer × File :=
  (s.cache lbn).elim (.nothing, s) fun bp ↦
    if bp.busy then
      (.sent ((List.range' bp.dirtyoff (bp.dirtyend - bp.dirtyoff)).map fun i : ℕ ↦
          (lbn * biosize + i, bp.addr i)),
        s.put lbn { bp with dirtyoff := 0, dirtyend := 0, busy := false })
    else (.nothing, s)

/-- `getnewbuf` takes a free buffer that is not a delayed write. -/
def recycle (s : File) (lbn : ℤ) : Answer × File :=
  (.nothing, (s.cache lbn).elim s fun bp ↦
    if ¬bp.busy ∧ ¬bp.delwri then { s with cache := Function.update s.cache lbn none } else s)

/-- One event. -/
def step (s : File) : Event → Answer × File
  | .nfsWrite uio => nfsWrite s uio
  | .turn leftover => turn biosize s leftover
  | .bawrite lbn => bawrite s lbn
  | .written lbn => written biosize s lbn
  | .recycle lbn => recycle s lbn

end Turn

end Bsd386.Nfs.Bio
