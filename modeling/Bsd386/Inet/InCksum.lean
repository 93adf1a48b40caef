import Mathlib.Data.List.Basic
import Mathlib.Tactic.SplitIfs

/-!
# Checksums

The two routines `in_cksum`, of `inet/in_cksum.c` and of `inet/in_cksum_i386.c`, walk over a chain
in the same way and differ in how they add up the words of an mbuf; the inline `in_cksumiphdr` adds
up the longs of a header without options. A word has its low byte first, and sums have 32 bits.
-/

namespace Bsd386.Inet

/-- What a routine sees of an mbuf: whether `m_data` is an odd address, and the bytes. -/
structure CksumMbuf where
  odd : Bool
  data : List UInt8

/-- The bytes of a chain. -/
def bytes (chain : List CksumMbuf) : List UInt8 := chain.flatMap CksumMbuf.data

/-- A word in the memory. -/
def word (lo hi : UInt8) : ℕ := lo.toNat + 256 * hi.toNat

/-! ## The walk over the chain -/

/-- How `in_cksum` adds up: a word across two mbufs, the words of an mbuf, of which a byte can
remain, and the end. -/
structure Summer where
  spanning : ℕ → ℕ → ℕ
  piece : ℕ → Bool → List UInt8 → ℕ × Option UInt8
  result : ℕ → ℕ

/-- The end of `in_cksum`. The last byte may be left over. -/
def Summer.finish (x : Summer) (sum : ℕ) : Option UInt8 → ℕ
  | none => x.result sum
  | some b => x.result (x.spanning sum (word b 0))

/-- The loop of `in_cksum` over the mbufs. -/
def cksumLoop (x : Summer) : List CksumMbuf → ℕ → ℕ → Option UInt8 → ℕ
  | [], _, sum, left => x.finish sum left
  | ⟨_, []⟩ :: m, len, sum, left =>
    if len = 0 then x.finish sum left else cksumLoop x m len sum left
  | ⟨odd, b :: w⟩ :: m, len, sum, left =>
    if len = 0 then x.finish sum left
    else
      match left with
      | none =>
        let added := x.piece sum odd ((b :: w).take len)
        cksumLoop x m (len - (w.length + 1)) added.1 added.2
      | some c =>
        let added := x.piece (x.spanning sum (word c b)) (!odd) (w.take (len - 1))
        cksumLoop x m (len - 1 - w.length) added.1 added.2

/-! ## The routine for the 386 -/

/-- `ADDCARRY`. -/
def addCarry (sum : ℕ) : ℕ := if sum / 65536 ≠ 0 then sum % 65536 + 1 else sum

/-- The loop that adds by words. A word that is not aligned is read byte by byte. -/
def addWords (sum : ℕ) : List UInt8 → ℕ × Option UInt8
  | [] => (sum, none)
  | [b] => (sum, some b)
  | lo :: hi :: w => addWords (addCarry (sum + word lo hi)) w

/-- The sums of `in_cksum_i386.c`. -/
def summerI386 : Summer where
  spanning sum w := addCarry (sum + w)
  piece sum _ w := addWords sum w
  result sum := 65535 - sum

/-- `in_cksum` of `in_cksum_i386.c`. -/
def inCksumI386 (chain : List CksumMbuf) (len : ℕ) : ℕ := cksumLoop summerI386 chain len 0 none

/-! ## The portable routine -/

/-- `sum +=` a word. -/
def addWord (sum w : ℕ) : ℕ := (sum + w) % 4294967296

/-- `REDUCE`. -/
def reduceHalves (sum : ℕ) : ℕ :=
  let sum := sum % 65536 + sum / 65536
  if 65535 < sum then sum - 65535 else sum

/-- `REDUCE` and `sum <<= 8`. -/
def shiftUp (sum : ℕ) : ℕ := reduceHalves sum * 256 % 4294967296

/-- The body of an unrolled loop, of `n` words. -/
def addUnrolled : ℕ → ℕ → List UInt8 → ℕ
  | 0, sum, _ => sum
  | n + 1, sum, lo :: hi :: w => addUnrolled n (addWord sum (word lo hi)) w
  | _ + 1, sum, _ => sum

/-- A loop that adds `n` words at a time, for at most `fuel` times: the sum and what remains. -/
def blocks (n : ℕ) : ℕ → ℕ → List UInt8 → ℕ × List UInt8
  | 0, sum, w => (sum, w)
  | fuel + 1, sum, w =>
    if w.length < 2 * n then (sum, w)
    else blocks n fuel (addUnrolled n sum w) (w.drop (2 * n))

/-- The two unrolled loops. -/
def unrolled (sum : ℕ) (w : List UInt8) : ℕ × List UInt8 :=
  let first := blocks 16 w.length sum w
  blocks 4 first.2.length first.1 first.2

/-- The last loop, after `REDUCE`. -/
def addRest (sum : ℕ) (w : List UInt8) : ℕ × List UInt8 := blocks 1 w.length (reduceHalves sum) w

/-- An mbuf at an even address. -/
def evenPiece (sum : ℕ) (w : List UInt8) : ℕ × Option UInt8 :=
  let added := unrolled sum w
  if added.2 = [] then (added.1, none)
  else
    let added := addRest added.1 added.2
    (added.1, added.2.head?)

/-- An mbuf at an odd address, with its first byte. -/
def oddPiece (sum : ℕ) (b : UInt8) (w : List UInt8) : ℕ × Option UInt8 :=
  let added := unrolled (shiftUp sum) w
  let added := addRest added.1 added.2
  match added.2 with
  | [] => (shiftUp added.1, some b)
  | last :: _ => (addWord (shiftUp added.1) (word b last), none)

/-- The sums of `in_cksum.c`. -/
def summerPortable : Summer where
  spanning := addWord
  piece sum odd w :=
    match odd, w with
    | true, b :: w => oddPiece sum b w
    | _, w => evenPiece sum w
  result sum := 65535 - reduceHalves sum

/-- `in_cksum` of `in_cksum.c`. -/
def inCksum (chain : List CksumMbuf) (len : ℕ) : ℕ := cksumLoop summerPortable chain len 0 none

/-! ## The inline routine -/

/-- A long of a header. -/
def long (ip : List UInt8) (i : ℕ) : ℕ :=
  word (ip.getD (4 * i) 0) (ip.getD (4 * i + 1) 0) +
    65536 * word (ip.getD (4 * i + 2) 0) (ip.getD (4 * i + 3) 0)

/-- `adcl`: the sum and the carry. -/
def adcl (x : ℕ × ℕ) (y : ℕ) : ℕ × ℕ :=
  ((x.1 + y + x.2) % 4294967296, (x.1 + y + x.2) / 4294967296)

/-- `adcw`. -/
def adcw (x : ℕ × ℕ) (y : ℕ) : ℕ × ℕ := ((x.1 + y + x.2) % 65536, (x.1 + y + x.2) / 65536)

/-- `in_cksumiphdr`. -/
def inCksumiphdr (ip : List UInt8) : ℕ :=
  let acc := (adcl (adcl (adcl (adcl (adcl (long ip 0, 0) (long ip 1)) (long ip 2)) (long ip 3))
    (long ip 4)) 0).1
  65535 - (adcw (adcw (acc % 65536, 0) (acc / 65536)) 0).1

end Bsd386.Inet
