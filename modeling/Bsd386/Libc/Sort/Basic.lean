import Mathlib.Algebra.Ring.Nat
import Mathlib.Data.Int.Notation
import Mathlib.Data.List.Basic

/-!
# `qsort` and `heapsort`

`lib/libc/stdlib/qsort.c` and `lib/libc/stdlib/heapsort.c` over the bytes of the array. Pointers are
addresses of 32 bits, and whatever reads or writes at an address outside of the array has no result.
An array is smaller than 2³¹ bytes, so that no `int` overflows.
-/

namespace Bsd386.Libc.Sort

abbrev Byte := BitVec 8

/-- `p + k`. -/
def forward (p k : ℕ) : ℕ := (p + k) % 2 ^ 32

/-- `p - k`. -/
def back (p k : ℕ) : ℕ := (p + 2 ^ 32 - k) % 2 ^ 32

/-- The arguments of the sorts. -/
structure Job where
  bot : ℕ
  nmemb : ℕ
  size : ℕ
  compar : List Byte → List Byte → ℤ

variable (job : Job)

/-! ## Memory -/

/-- `*p`. -/
def load (p : ℕ) (m : List Byte) : Option Byte := if p < job.bot then none else m[p - job.bot]?

/-- `*p = ch`. -/
def store (p : ℕ) (ch : Byte) (m : List Byte) : Option (List Byte) :=
  if p < job.bot ∨ m.length ≤ p - job.bot then none else some (m.set (p - job.bot) ch)

/-- The bytes at which the comparison function looks. -/
def element (p : ℕ) (m : List Byte) : Option (List Byte) :=
  (List.range job.size).mapM fun k ↦ load job (forward p k) m

/-- `compar(p, q)`. -/
def call (p q : ℕ) (m : List Byte) : Option ℤ :=
  (element job p m).bind fun x ↦ (element job q m).map fun y ↦ job.compar x y

/-- `SWAP`, for a count of at least 1. -/
def swap : ℕ → ℕ → ℕ → List Byte → Option (List Byte)
  | 0, _, _, m => some m
  | cnt + 1, a, b, m =>
    (load job a m).bind fun ch ↦ (load job b m).bind fun ch' ↦
      (store job a ch' m).bind fun m ↦ (store job b ch m).bind fun m ↦
        swap cnt (forward a 1) (forward b 1) m

/-! ## `insertion_sort` -/

/-- The loop over `t2`, with the value at which it stops. -/
def place (bot t1 : ℕ) : ℕ → ℕ → List Byte → Option ℕ
  | 0, _, _ => none
  | fuel + 1, t2, m =>
    if back t2 job.size < bot then some (back t2 job.size)
    else (call job t1 (back t2 job.size) m).bind fun c ↦
      if c < 0 then place bot t1 fuel (back t2 job.size) m else some (back t2 job.size)

/-- The loop over `s1` and `s2`, which are equal when it begins and at the end of each turn. -/
def bubble (t2 : ℕ) (ch : Byte) : ℕ → ℕ → List Byte → Option (List Byte)
  | 0, _, _ => none
  | fuel + 1, s1, m =>
    if back s1 job.size < t2 then store job s1 ch m
    else (load job (back s1 job.size) m).bind fun ch' ↦ (store job s1 ch' m).bind fun m ↦
      bubble t2 ch fuel (back s1 job.size) m

/-- The loop over the bytes of an element. -/
def insert (t2 fuel : ℕ) : ℕ → ℕ → List Byte → Option (List Byte)
  | 0, _, m => some m
  | cnt + 1, t1, m =>
    (load job t1 m).bind fun ch ↦ (bubble job t2 ch fuel t1 m).bind fun m ↦
      insert t2 fuel cnt (forward t1 1) m

/-- The loop over `t1`. -/
def insertions (bot top nmemb : ℕ) : ℕ → ℕ → List Byte → Option (List Byte)
  | 0, _, _ => none
  | fuel + 1, t1, m =>
    if t1 < top then
      (place job bot t1 (nmemb + 1) t1 m).bind fun t2 ↦
        (if t1 = forward t2 job.size then some m
          else insert job (forward t2 job.size) (nmemb + 1) job.size t1 m).bind fun m ↦
            insertions bot top nmemb fuel (forward t1 job.size) m
    else some m

/-- `insertion_sort`. -/
def insertionSort (bot nmemb : ℕ) (m : List Byte) : Option (List Byte) :=
  insertions job bot (forward bot (nmemb * job.size)) nmemb (nmemb + 1) (forward bot job.size) m

/-! ## `quick_sort` -/

/-- `MTHRESH`. -/
def MTHRESH : ℕ := 6

/-- `THRESH`. -/
def THRESH : ℕ := 4

/-- The median of the first, last and middle element is swapped to the middle. -/
def median (bot mid top nmemb : ℕ) (m : List Byte) : Option (List Byte) :=
  if nmemb ≥ MTHRESH then
    (call job bot mid m).bind fun n1 ↦ (call job mid top m).bind fun n2 ↦
      (if n1 < 0 ∧ n2 > 0 then (call job bot top m).map fun c ↦ if c < 0 then top else bot
        else if n1 > 0 ∧ n2 < 0 then (call job bot top m).map fun c ↦ if c > 0 then top else bot
        else some mid).bind fun t1 ↦ if t1 = mid then some m else swap job job.size t1 mid m
  else some m

/-- The loop over `bot`. -/
def scanUp (mid : ℕ) : ℕ → ℕ → List Byte → Option ℕ
  | 0, _, _ => none
  | fuel + 1, bot, m =>
    if bot < mid then
      (call job bot mid m).bind fun c ↦
        if c ≤ 0 then scanUp mid fuel (forward bot job.size) m else some bot
    else some bot

/-- The loop over `top`, which goes on to a swap when it stops above the middle. -/
def scanDown (mid : ℕ) : ℕ → ℕ → List Byte → Option ℕ
  | 0, _, _ => none
  | fuel + 1, top, m =>
    if top > mid then
      (call job mid top m).bind fun c ↦
        if c ≤ 0 then scanDown mid fuel (back top job.size) m else some top
    else some top

/-- The partition, with the place of its middle element and whether anything was swapped. -/
def partition (nmemb : ℕ) : ℕ → ℕ → ℕ → ℕ → Bool → List Byte → Option (ℕ × Bool × List Byte)
  | 0, _, _, _, _, _ => none
  | fuel + 1, bot, mid, top, didswap, m =>
    (scanUp job mid (nmemb + 1) bot m).bind fun bot ↦
      (scanDown job mid (nmemb + 1) top m).bind fun top ↦
        if top > mid then
          (swap job job.size bot top m).bind fun m ↦
            if bot = mid then partition nmemb fuel (forward bot job.size) top top true m
            else partition nmemb fuel (forward bot job.size) mid (back top job.size) true m
        else if bot = mid then some (mid, didswap, m)
        else (swap job job.size bot mid m).bind fun m ↦
          partition nmemb fuel bot bot (back top job.size) true m

/-- `SORT`. -/
def sortFew (bot n : ℕ) (m : List Byte) : Option (List Byte) :=
  if n > 1 then
    if n = 2 then
      (call job (forward bot job.size) bot m).bind fun c ↦
        if c < 0 then swap job job.size (forward bot job.size) bot m else some m
    else insertionSort job bot n m
  else some m

/-- `quick_sort`, with stack for so many nested calls. -/
def quickSort : ℕ → ℕ → ℕ → ℕ → List Byte → Option (List Byte)
  | 0, _, _, _, _ => none
  | fuel + 1, depth, bot, nmemb, m =>
    let mid := forward bot (job.size * (nmemb / 2))
    let top := forward bot ((nmemb - 1) * job.size)
    (median job bot mid top nmemb m).bind fun m ↦
      (partition job nmemb (nmemb + 1) bot mid top false m).bind fun r ↦
        if r.2.1 then
          let nlower := (r.1 - bot) / job.size
          let mid := forward r.1 job.size
          let nupper := nmemb - nlower - 1
          if nlower > nupper then
            if nupper ≥ THRESH then
              (if depth = 0 then none else quickSort fuel (depth - 1) mid nupper r.2.2).bind fun m ↦
                quickSort fuel depth bot nlower m
            else (sortFew job mid nupper r.2.2).bind fun m ↦
              if nlower < THRESH then sortFew job bot nlower m
              else quickSort fuel depth bot nlower m
          else if nlower ≥ THRESH then
            (if depth = 0 then none else quickSort fuel (depth - 1) bot nlower r.2.2).bind fun m ↦
              quickSort fuel depth mid nupper m
          else (sortFew job bot nlower r.2.2).bind fun m ↦
            if nupper < THRESH then sortFew job mid nupper m
            else quickSort fuel depth mid nupper m
        else insertionSort job bot nmemb r.2.2

/-- `qsort`, with stack for so many nested calls of `quick_sort`. -/
def qsort (depth : ℕ) (m : List Byte) : Option (List Byte) :=
  if job.nmemb ≤ 1 then some m
  else if job.nmemb ≥ THRESH then quickSort job job.nmemb depth job.bot job.nmemb m
  else insertionSort job job.bot job.nmemb m

/-! ## `heapsort` -/

/-- `HEAP`. -/
def heap (bot nmemb : ℕ) : ℕ → ℕ → List Byte → Option (List Byte)
  | 0, _, _ => none
  | fuel + 1, i, m =>
    let j := i * 2 % 2 ^ 32
    if j ≤ nmemb then
      let p := forward bot (j * job.size)
      (if j < nmemb then
        (call job p (forward p job.size) m).map fun c ↦
          if c < 0 then (forward p job.size, j + 1) else (p, j)
        else some (p, j)).bind fun s ↦
          let t := forward bot (i * job.size)
          (call job s.1 t m).bind fun c ↦
            if c ≤ 0 then some m
            else (swap job job.size t s.1 m).bind fun m ↦ heap bot nmemb fuel s.2 m
    else some m

/-- The loop over `l`. -/
def build (bot nmemb : ℕ) : ℕ → List Byte → Option (List Byte)
  | 0, m => some m
  | l + 1, m => (heap job bot nmemb (nmemb + 1) (l + 1) m).bind fun m ↦ build bot nmemb l m

/-- The loop that saves the largest elements. -/
def extract (bot : ℕ) : ℕ → List Byte → Option (List Byte)
  | 0, m => some m
  | nmemb + 1, m =>
    if nmemb + 1 > 1 then
      (swap job job.size (forward bot job.size) (forward bot ((nmemb + 1) * job.size)) m).bind
        fun m ↦
        (heap job bot nmemb (nmemb + 1) 1 m).bind fun m ↦ extract bot nmemb m
    else some m

/-- `heapsort`, for elements of at least one byte. -/
def heapsort (m : List Byte) : Option (List Byte) :=
  if job.nmemb ≤ 1 then some m
  else
    (build job (back job.bot job.size) job.nmemb (job.nmemb / 2) m).bind fun m ↦
      extract job (back job.bot job.size) job.nmemb m

end Bsd386.Libc.Sort
