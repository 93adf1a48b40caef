import Mathlib.Algebra.Order.Ring.Int
import Mathlib.Data.List.Basic
import Mathlib.Logic.Function.Basic
import Bsd386.Kern.Fault

/-!
# Socket buffers

The queue of a socket buffer of `kern/socket/sockbuf.c`. The mbufs that `m_next` links are a list,
and so are the records that `m_nextpkt` links. An mbuf keeps its data inside of itself or in a
cluster, which other mbufs may share; `m_data` is an offset into the one or the other. Copying bytes
behind the data of an mbuf changes whichever memory the data are in.
-/

namespace Bsd386.Kern.SocketBuffer

/-- `MSIZE`. -/
def msize : ℤ := 128

/-- `MLEN`. -/
def mlen : ℕ := 108

/-- `MT_SONAME`, `MT_CONTROL` and `MT_OOBDATA`. -/
def mtSoname : ℕ := 8

def mtControl : ℕ := 14

def mtOobdata : ℕ := 15

/-- `struct m_ext`: a cluster and `ext_size`. -/
structure Ext where
  buf : ℕ
  size : ℕ
  deriving DecidableEq

/-- `struct mbuf`: `eor` is `M_EOR`, and `M_EXT` is set when there is an `ext`. -/
structure Mbuf (B : Type) where
  mLen : ℕ
  mData : ℕ
  mType : ℕ
  eor : Bool
  pktLen : ℕ
  ext : Option Ext
  mDat : List B

/-- A chain of mbufs. -/
abbrev Chain (B : Type) : Type := List (Mbuf B)

/-- The memory of the clusters. -/
abbrev Clusters (B : Type) : Type := ℕ → List B

/-- `struct sockbuf`, as far as its data go; `locked` is `SB_LOCK`. -/
structure Sockbuf (B : Type) where
  sbCc : ℤ
  sbHiwat : ℤ
  sbMbcnt : ℤ
  sbMbmax : ℤ
  locked : Bool
  sbMb : List (Chain B)

variable {B : Type}

/-- The memory that `m_data` points into. -/
def Mbuf.storage (clusters : Clusters B) (m : Mbuf B) : List B :=
  match m.ext with
  | some ext => clusters ext.buf
  | none => m.mDat

/-- The data of an mbuf. -/
def Mbuf.bytes (clusters : Clusters B) (m : Mbuf B) : List B :=
  ((m.storage clusters).drop m.mData).take m.mLen

/-- The data of a chain. -/
def bytes (clusters : Clusters B) (chain : Chain B) : List B := chain.flatMap (Mbuf.bytes clusters)

/-- Write bytes over those from `pos` on. -/
def overwrite (memory : List B) (pos : ℕ) (new : List B) : List B :=
  memory.take pos ++ new ++ memory.drop (pos + new.length)

/-- `memcpy` behind the data of `p`, into the memory where they are. -/
def Mbuf.copyBehind (clusters : Clusters B) (p : Mbuf B) (new : List B) : Clusters B × Mbuf B :=
  match p.ext with
  | some ext =>
    (Function.update clusters ext.buf (overwrite (clusters ext.buf) (p.mData + p.mLen) new), p)
  | none => (clusters, { p with mDat := overwrite p.mDat (p.mData + p.mLen) new })

/-- The memory that counts against the limit for an mbuf. -/
def Mbuf.space (m : Mbuf B) : ℤ :=
  msize + match m.ext with
    | some ext => (ext.size : ℤ)
    | none => 0

/-- `sballoc`. -/
def Sockbuf.sballoc (sb : Sockbuf B) (m : Mbuf B) : Sockbuf B :=
  { sb with sbCc := sb.sbCc + m.mLen, sbMbcnt := sb.sbMbcnt + m.space }

/-- `sbfree`. -/
def Sockbuf.sbfree (sb : Sockbuf B) (m : Mbuf B) : Sockbuf B :=
  { sb with sbCc := sb.sbCc - m.mLen, sbMbcnt := sb.sbMbcnt - m.space }

/-- `sbspace`. -/
def Sockbuf.sbspace (sb : Sockbuf B) : ℤ := min (sb.sbHiwat - sb.sbCc) (sb.sbMbmax - sb.sbMbcnt)

/-- What a routine leaves: the socket buffer and the clusters. -/
abbrev State (B : Type) : Type := Sockbuf B × Clusters B

/-! ### Appending -/

/-- An mbuf without data is freed, unless it has to carry the end of a record past mbufs of another
type. -/
def droppable (m : Mbuf B) (rest : Chain B) (p : Option (Mbuf B)) (eor : Bool) : Bool :=
  m.mLen = 0 ∧ (eor = false ∨ (rest.head?.or p).any fun o ↦ o.mType = m.mType)

/-- The data of an mbuf fit behind those of the one before. -/
def mergeable (p m : Mbuf B) : Bool :=
  p.ext = none ∧ p.eor = false ∧ p.mData + p.mLen + m.mLen < mlen ∧ p.mType = m.mType

/-- The loop of `sbcompress`: the chain `m` is added behind the mbuf `p`, which is the last one of a
record that starts with `front`. The result is that record. -/
def sbcompressLoop : Chain B → Bool → Chain B → Option (Mbuf B) → State B →
    Except Fault (State B × Chain B)
  | [], eor, front, p, s =>
    match p with
    | some p => .ok (s, front ++ [{ p with eor := p.eor || eor }])
    | none => if eor then .error (.panic "sbcompress") else .ok (s, front)
  | m :: rest, eor, front, p, (sb, clusters) =>
    let eor := eor || m.eor
    if droppable m rest p eor then sbcompressLoop rest eor front p (sb, clusters)
    else
      match p with
      | some q =>
        if mergeable q m then
          let copied := q.copyBehind clusters (m.bytes clusters)
          sbcompressLoop rest eor front (some { copied.2 with mLen := q.mLen + m.mLen })
            ({ sb with sbCc := sb.sbCc + m.mLen }, copied.1)
        else
          sbcompressLoop rest eor (front ++ [q]) (some { m with eor := false })
            (sb.sballoc m, clusters)
      | none =>
        sbcompressLoop rest eor front (some { m with eor := false }) (sb.sballoc m, clusters)

/-- `sbcompress`. -/
def sbcompress (m : Chain B) (record : Chain B) (s : State B) : Except Fault (State B × Chain B) :=
  sbcompressLoop m false record.dropLast record.getLast? s

/-- Put the first mbuf of a chain on the queue as a record and add the others to it, with the mark
of the end of the record at one of them. -/
def startRecord (m0 : Mbuf B) (m : Chain B) (s : State B) : Except Fault (State B × Chain B) :=
  match m with
  | [] => sbcompress [] [m0] (s.1.sballoc m0, s.2)
  | m1 :: rest =>
    if m0.eor then
      sbcompress ({ m1 with eor := true } :: rest) [{ m0 with eor := false }] (s.1.sballoc m0, s.2)
    else sbcompress (m1 :: rest) [m0] (s.1.sballoc m0, s.2)

/-- `sbappendrecord`. -/
def sbappendrecord (m : Chain B) (s : State B) : Except Fault (State B) :=
  match m with
  | [] => .ok s
  | m0 :: m => do
    let ((sb, clusters), record) ← startRecord m0 m s
    return ({ sb with sbMb := sb.sbMb ++ [record] }, clusters)

/-- `sbappend`. -/
def sbappend (m : Chain B) (s : State B) : Except Fault (State B) :=
  if m = [] then .ok s
  else
    match s.1.sbMb.getLast? with
    | none => do
      let ((sb, clusters), record) ← sbcompress m [] s
      return ({ sb with sbMb := if record = [] then [] else [record] }, clusters)
    | some last =>
      if last.any Mbuf.eor then sbappendrecord m s
      else do
        let ((sb, clusters), record) ← sbcompress m last s
        return ({ sb with sbMb := sb.sbMb.dropLast ++ [record] }, clusters)

/-- A record of urgent data, perhaps behind control information. -/
def ledByOob : Chain B → Bool
  | [] => false
  | m :: chain =>
    if m.mType = mtOobdata then true
    else if m.mType = mtControl then ledByOob chain
    else false

/-- `sbinsertoob`. -/
def sbinsertoob (m : Chain B) (s : State B) : Except Fault (State B) :=
  match m with
  | [] => .ok s
  | m0 :: m => do
    let ((sb, clusters), record) ← startRecord m0 m s
    return ({ sb with
      sbMb := sb.sbMb.takeWhile ledByOob ++ record :: sb.sbMb.dropWhile ledByOob }, clusters)

/-- Count the mbufs of a chain. -/
def Sockbuf.sballocChain (sb : Sockbuf B) (chain : Chain B) : Sockbuf B :=
  chain.foldl Sockbuf.sballoc sb

/-- `m_pkthdr.len` of the first mbuf of a chain. -/
def pktLen (m0 : Chain B) : ℕ := m0.head?.elim 0 Mbuf.pktLen

/-- The data in the mbufs of a chain. -/
def chainLen (chain : Chain B) : ℕ := (chain.map Mbuf.mLen).sum

/-- `sbappendaddr`, where `fresh` is the memory of the mbuf that `MGET` gives, if it does. -/
def sbappendaddr (asa : List B) (m0 control : Chain B) (fresh : Option (List B)) (s : State B) :
    Except Fault (State B × Bool) :=
  if s.1.sbspace < asa.length + pktLen m0 + chainLen control then .ok (s, false)
  else if mlen < asa.length then .ok (s, false)
  else
    match fresh with
    | none => .ok (s, false)
    | some fresh =>
      let m : Mbuf B := ⟨asa.length, 0, mtSoname, false, 0, none, overwrite fresh 0 asa⟩
      let sb := s.1.sballocChain (m :: (control ++ m0))
      .ok (({ sb with sbMb := sb.sbMb ++ [m :: (control ++ m0)] }, s.2), true)

/-- `sbappendcontrol`. -/
def sbappendcontrol (m0 control : Chain B) (s : State B) : Except Fault (State B × Bool) :=
  if control = [] then .error (.panic "sbappendcontrol")
  else if s.1.sbspace < pktLen m0 + chainLen control then .ok (s, false)
  else
    let sb := s.1.sballocChain (control ++ m0)
    .ok (({ sb with sbMb := sb.sbMb ++ [control ++ m0] }, s.2), true)

/-! ### Dropping -/

/-- The loop of `sbdrop` inside of one chain: what is left of it, and how much is still to drop. -/
def consume : Chain B → ℕ → Sockbuf B → Chain B × ℕ × Sockbuf B
  | [], len, sb => ([], len, sb)
  | m :: chain, len, sb =>
    if len = 0 then (m :: chain, 0, sb)
    else if len < m.mLen then
      ({ m with mLen := m.mLen - len, mData := m.mData + len } :: chain, 0,
        { sb with sbCc := sb.sbCc - len })
    else consume chain (len - m.mLen) (sb.sbfree m)

/-- The loop of `sbdrop` from the chain `m` on, with `next` the records behind. -/
def sbdropLoop : Chain B → List (Chain B) → ℕ → Sockbuf B →
    Except Fault (Chain B × List (Chain B) × Sockbuf B)
  | m, [], len, sb =>
    match consume m len sb with
    | (m, 0, sb) => .ok (m, [], sb)
    | (_, _ + 1, _) => .error (.panic "sbdrop")
  | m, record :: next, len, sb =>
    match consume m len sb with
    | (m, 0, sb) => .ok (m, record :: next, sb)
    | (_, len + 1, sb) => sbdropLoop record next (len + 1) sb

/-- Free the mbufs without data at the front. -/
def dropEmpty : Chain B → Sockbuf B → Chain B × Sockbuf B
  | [], sb => ([], sb)
  | m :: chain, sb => if m.mLen = 0 then dropEmpty chain (sb.sbfree m) else (m :: chain, sb)

/-- `sbdrop`. -/
def sbdrop (len : ℕ) (sb : Sockbuf B) : Except Fault (Sockbuf B) := do
  let (m, next, sb) ← sbdropLoop (sb.sbMb.headD []) sb.sbMb.tail len sb
  let (m, sb) := dropEmpty m sb
  return { sb with sbMb := if m = [] then next else m :: next }

/-- `sbdroprecord`. -/
def sbdroprecord (sb : Sockbuf B) : Sockbuf B :=
  match sb.sbMb with
  | [] => sb
  | record :: next => { record.foldl Sockbuf.sbfree sb with sbMb := next }

/-- The loop of `sbflush`, for at most `fuel` turns. -/
def sbflushLoop : ℕ → Sockbuf B → Except Fault (Sockbuf B)
  | 0, sb => if sb.sbMbcnt = 0 then .ok sb else .error .endless
  | fuel + 1, sb =>
    if sb.sbMbcnt = 0 then .ok sb
    else do sbflushLoop fuel (← sbdrop sb.sbCc.toNat sb)

/-- `sbflush`, whose loop drops a record in each turn. -/
def sbflush (sb : Sockbuf B) : Except Fault (Sockbuf B) :=
  if sb.locked then .error (.panic "sbflush")
  else do
    let sb ← sbflushLoop sb.sbMb.length sb
    if sb.sbCc ≠ 0 ∨ sb.sbMb ≠ [] then .error (.panic "sbflush 2") else return sb

end Bsd386.Kern.SocketBuffer
