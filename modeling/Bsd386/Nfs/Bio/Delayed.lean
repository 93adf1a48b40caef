import Bsd386.Lib.Machine
import Bsd386.Nfs.Bio.Basic
import Mathlib.Data.Set.Basic
import Mathlib.Tactic.Ring

/-!
# Delayed writes

What is sent of a file was stored for the place to which it is sent, if every copy of a turn of
`nfs_write` gets all its bytes from one iovec, or finds those that it does not get in the buffer.
Neither is checked: `uiotofunc1` drops the errors of its copies, and copies every iovec to the same
place.
-/

namespace Bsd386.Nfs.Bio

open Machine

variable {biosize k on n len cp : ℕ} {uio : Uio} {bp : Buf} {s : File} {lbn o : ℤ} {addr : ℕ → Cell}
  {iov : List (List (Option (BitVec 8)))} {offset : BitVec 32} {leftover : ℕ → BitVec 8}

/-! ## The bytes that are accepted -/

/-- The places of bytes which the call in progress copied, and of those which calls that returned
success did, without the ones sent since. -/
structure Ledger where
  kept : Set ℤ
  accepted : Set ℤ

/-- The places of a copy. -/
def copied (offset : BitVec 32) (n : ℕ) : Set ℤ :=
  {o | ∃ i < n, o = (offset + BitVec.ofNat 32 i).toInt}

/-- A call ends with an error or without one. -/
def Ledger.close (l : Ledger) (error : ℕ) : Ledger :=
  ⟨∅, if error = 0 then l.accepted ∪ l.kept else l.accepted⟩

/-- What an answer means for the ledger. -/
def Ledger.record (l : Ledger) : Answer → Ledger
  | .nothing => l
  | .sent bytes => ⟨l.kept \ {o | ∃ c, (o, c) ∈ bytes}, l.accepted \ {o | ∃ c, (o, c) ∈ bytes}⟩
  | .moved offset n error =>
    let l := { l with kept := l.kept ∪ copied offset n }
    error.elim l l.close
  | .returned error => l.close error

/-- An event, with the ledger. -/
def watch (biosize : ℕ) (w : File × Ledger) (event : Event) : Answer × File × Ledger :=
  let r := step biosize w.1 event
  (r.1, r.2, w.2.record r.1)

/-- The place is in the dirty range of its block. -/
def File.InDirtyRange (biosize : ℕ) (s : File) (o : ℤ) : Prop :=
  ∃ bp, s.cache (o / biosize) = some bp ∧ (bp.dirtyoff : ℤ) ≤ o % biosize ∧
  o % biosize < bp.dirtyend

/-- The bytes that an answer sends. -/
def Answer.bytes : Answer → List (ℤ × Cell)
  | .sent bytes => bytes
  | _ => []

/-- What is sent was stored for its place, and what was accepted is in the dirty range of its
block behind the event. -/
def Right (biosize : ℕ) (w : File × Ledger) (event : Event) : Prop :=
  (∀ b ∈ (watch biosize w event).1.bytes, b.2.place = some b.1) ∧
    ∀ o ∈ (watch biosize w event).2.2.accepted, (watch biosize w event).2.1.InDirtyRange biosize o

/-! ## The condition -/

/-- The iovec from which the next byte is copied. -/
def current : List (List (Option (BitVec 8))) → List (Option (BitVec 8))
  | [] => []
  | [] :: vs => current vs
  | (c :: cs) :: _ => c :: cs

/-- All bytes of the copy are in one iovec, and a byte that the copy does not get was stored in the
buffer for its place before. -/
def Uio.Covered (biosize : ℕ) (uio : Uio) (bp : Buf) : Prop :=
  uio.n biosize ≤ (current uio.iov).length ∧ ∀ i < uio.n biosize,
    i < (readable (current uio.iov)).length ∨
      (bp.addr (uio.on biosize + i)).place = some (uio.offset + BitVec.ofNat 32 i).toInt

/-- A turn that copies is covered. -/
def Covered (biosize : ℕ) (w : File × Ledger) (event : Event) : Prop :=
  ∀ uio leftover, event = .turn leftover → w.1.call = some uio →
    (w.1.getblk (uio.lbn biosize) leftover).busy = false →
      (w.1.getblk (uio.lbn biosize) leftover).Contiguous (uio.on biosize) (uio.n biosize) →
        uio.Covered biosize (w.1.getblk (uio.lbn biosize) leftover)

/-! ## Copies from user space -/

/-- `uiotofunc1` as `uiomove` calls it goes on behind an error. -/
theorem uiotofunc1_cons (v : List (Option (BitVec 8))) (vs : List (List (Option (BitVec 8)))) :
    uiotofunc1 cp 1 len addr (v :: vs) offset =
      if len = 0 then (0, addr, ⟨v :: vs, offset⟩)
      else if v.length ≤ len then
        uiotofunc1 cp 1 (len - v.length) (copyin v offset cp addr).2 vs
          (offset + BitVec.ofNat 32 v.length)
      else
        (0, (copyin (v.take len) offset cp addr).2,
          ⟨v.drop len :: vs, offset + BitVec.ofNat 32 len⟩) := by
  rw [uiotofunc1]
  by_cases hzero : len = 0
  · rw [if_pos hzero, if_pos hzero]
  · rw [if_neg hzero, if_neg hzero]
    dsimp only
    rw [if_neg fun horder ↦ horder.1 rfl]
    by_cases hle : v.length ≤ len
    · rw [Nat.min_eq_left hle, if_pos rfl, if_pos hle, List.take_length]
    · have hlt : len < v.length := Nat.lt_of_not_le hle
      rw [Nat.min_eq_right (Nat.le_of_lt hlt), if_neg (Nat.ne_of_gt hlt), if_neg hle]

/-- All errors are dropped. -/
theorem uiotofunc1_error : (uiotofunc1 cp 1 len addr iov offset).1 = 0 := by
  induction iov generalizing len addr offset with
  | nil => rfl
  | cons v vs ih =>
    rw [uiotofunc1_cons]
    split_ifs
    · rfl
    · exact ih
    · rfl

theorem resid_cons (v : List (Option (BitVec 8))) (vs : List (List (Option (BitVec 8))))
    (offset : BitVec 32) :
    Uio.resid ⟨v :: vs, offset⟩ = v.length + Uio.resid ⟨vs, offset⟩ := by
  rw [Uio.resid, Uio.resid, List.map_cons, List.sum_cons]

/-- The uio is advanced by the length. -/
theorem uiotofunc1_advance (hlen : len ≤ Uio.resid ⟨iov, offset⟩) :
    (uiotofunc1 cp 1 len addr iov offset).2.2.offset = offset + BitVec.ofNat 32 len ∧
      (uiotofunc1 cp 1 len addr iov offset).2.2.resid = Uio.resid ⟨iov, offset⟩ - len := by
  induction iov generalizing len addr offset with
  | nil =>
    have hzero : len = 0 := Nat.le_zero.mp hlen
    rw [hzero]
    exact ⟨(BitVec.add_zero offset).symm, rfl⟩
  | cons v vs ih =>
    rw [resid_cons] at hlen ⊢
    rw [uiotofunc1_cons]
    split_ifs with hzero hle
    · rw [hzero]
      exact ⟨(BitVec.add_zero offset).symm, resid_cons v vs offset⟩
    · obtain ⟨hoffset, hresid⟩ := @ih (len - v.length)
        (copyin v offset cp addr).2 (offset + BitVec.ofNat 32 v.length)
        (by change _ ≤ Uio.resid ⟨vs, offset⟩; omega)
      rw [hoffset, hresid]
      constructor
      · rw [BitVec.add_assoc, ← BitVec.ofNat_add, Nat.add_sub_cancel' hle]
      · change Uio.resid ⟨vs, offset⟩ - (len - v.length) = _
        omega
    · refine ⟨rfl, ?_⟩
      rw [resid_cons, List.length_drop]
      change _ + Uio.resid ⟨vs, offset⟩ = _
      omega

theorem copyin_nil : (copyin [] offset cp addr).2 = addr := by
  funext i
  rw [copyin]
  exact ite_self _

/-- A copy from one iovec. -/
theorem uiotofunc1_current (hlen : len ≤ (current iov).length) :
    (uiotofunc1 cp 1 len addr iov offset).2.1 =
      (copyin ((current iov).take len) offset cp addr).2 := by
  induction iov generalizing len addr offset with
  | nil =>
    have hnil : (current []).take len = [] := List.take_nil
    rw [hnil, copyin_nil]
    rfl
  | cons v vs ih =>
    rw [uiotofunc1_cons]
    by_cases hzero : len = 0
    · rw [if_pos hzero, hzero, List.take_zero, copyin_nil]
    · rw [if_neg hzero]
      cases v with
      | nil =>
        have hle : ([] : List (Option (BitVec 8))).length ≤ len := Nat.zero_le len
        have hstay : offset + BitVec.ofNat 32 ([] : List (Option (BitVec 8))).length = offset :=
          BitVec.add_zero offset
        rw [if_pos hle, copyin_nil, hstay]
        exact ih hlen
      | cons c cs =>
        by_cases hle : (c :: cs).length ≤ len
        · have heq : len = (c :: cs).length := Nat.le_antisymm hlen hle
          rw [if_pos hle, heq, Nat.sub_self, current, List.take_length]
          cases vs with
          | nil => rfl
          | cons v' vs' => rw [uiotofunc1_cons, if_pos rfl]
        · rw [if_neg hle, current]

theorem readable_take (v : List (Option (BitVec 8))) (n : ℕ) :
    readable (v.take n) = (readable v).take n := by
  induction v generalizing n with
  | nil =>
    rw [List.take_nil]
    exact List.take_nil.symm
  | cons c cs ih =>
    cases n with
    | zero => rfl
    | succ n =>
      cases c with
      | none => rfl
      | some c => rw [List.take_succ_cons, readable, readable, List.take_succ_cons, ih]

/-- What a copy leaves behind in a buffer. -/
theorem copyin_place {v : List (Option (BitVec 8))} {i : ℕ} :
    ((copyin (v.take n) offset cp addr).2 i).place =
      if cp ≤ i ∧ i < cp + min n (readable v).length then
        some (offset + BitVec.ofNat 32 (i - cp)).toInt
      else (addr i).place := by
  rw [copyin, readable_take]
  dsimp only
  have hlength : ((readable v).take n).length = min n (readable v).length := List.length_take
  by_cases hle : cp ≤ i
  · rw [if_pos hle]
    by_cases hlt : i - cp < ((readable v).take n).length
    · rw [if_pos ⟨hle, by omega⟩, List.getElem?_eq_getElem hlt]
      rfl
    · rw [if_neg (by omega), List.getElem?_eq_none (Nat.le_of_not_lt hlt)]
      rfl
  · rw [if_neg hle, if_neg fun h ↦ hle h.1]

/-! ## Places -/

theorem on_eq (hk : k < 32) (uio : Uio) : uio.on (2 ^ k) = uio.offset.toNat % 2 ^ k := by
  have hpos : 0 < 2 ^ k := Nat.two_pow_pos k
  have hlt : 2 ^ k - 1 < 2 ^ 32 := by
    have hpow : 2 ^ k < 2 ^ 32 := Nat.pow_lt_pow_right (by decide) hk
    omega
  rw [Uio.on, BitVec.toNat_and, BitVec.toNat_ofNat, Nat.mod_eq_of_lt hlt,
    Nat.and_two_pow_sub_one_eq_mod]

theorem on_lt (hk : k < 32) (uio : Uio) : uio.on (2 ^ k) < 2 ^ k := by
  rw [on_eq hk]
  exact Nat.mod_lt _ (Nat.two_pow_pos k)

/-- The place of the next byte is not negative, or at the start of a block. -/
def Uio.Regular (biosize : ℕ) (uio : Uio) : Prop :=
  0 ≤ uio.offset.toInt ∨ uio.offset.toNat % biosize = 0

/-- No block crosses the end of the places that are not negative, and none the end of all. -/
theorem block_end_le {b m x : ℕ} (hx : x < b * m) : b * (x / b) + b ≤ b * m := by
  have hlt : x / b < m := Nat.div_lt_of_lt_mul hx
  calc b * (x / b) + b = b * (x / b + 1) := (Nat.mul_succ b (x / b)).symm
    _ ≤ b * m := Nat.mul_le_mul_left b hlt

/-- The bytes of a block follow each other. -/
theorem Uio.Regular.place (hk : k < 32) (huio : uio.Regular (2 ^ k)) {i : ℕ}
    (hi : uio.on (2 ^ k) + i < 2 ^ k) :
    (uio.offset + BitVec.ofNat 32 i).toInt =
      uio.lbn (2 ^ k) * (2 ^ k : ℕ) + (uio.on (2 ^ k) + i : ℕ) := by
  have hhalf : 2 ^ k * 2 ^ (31 - k) = 2 ^ 31 := by
    rw [← Nat.pow_add, Nat.add_sub_cancel' (by omega)]
  rw [on_eq hk] at hi ⊢
  rw [Uio.lbn, BitVec.toInt_eq_toNat_cond, BitVec.toInt_eq_toNat_cond, BitVec.toNat_add,
    BitVec.toNat_ofNat]
  have hx := uio.offset.isLt
  have hsplit := Nat.div_add_mod uio.offset.toNat (2 ^ k)
  by_cases hlow : uio.offset.toNat < 2 ^ 31
  · have hend : 2 ^ k * (uio.offset.toNat / 2 ^ k) + 2 ^ k ≤ 2 ^ 31 := by
      rw [← hhalf] at hlow ⊢
      exact block_end_le hlow
    rw [if_pos (by omega), if_pos (by omega), ← Int.ofNat_tdiv]
    generalize 2 ^ k = b at *
    have hmul : ((uio.offset.toNat / b : ℕ) : ℤ) * b = (b * (uio.offset.toNat / b) : ℕ) := by
      rw [Nat.mul_comm, Int.natCast_mul]
    rw [hmul]
    omega
  · have hstart : uio.offset.toNat % 2 ^ k = 0 := by
      rcases huio with hpos | hzero
      · rw [BitVec.toInt_eq_toNat_cond, if_neg (by omega)] at hpos
        omega
      · exact hzero
    have htwice : 2 ^ k * (2 ^ (31 - k) * 2) = 2 ^ 32 := by
      rw [← Nat.mul_assoc, hhalf]
      rfl
    have hend : 2 ^ k * (uio.offset.toNat / 2 ^ k) + 2 ^ k ≤ 2 ^ 32 := by
      rw [← htwice] at hx ⊢
      exact block_end_le hx
    have hdvd : ((2 ^ k : ℕ) : ℤ) ∣ (uio.offset.toNat : ℤ) - (2 ^ 32 : ℕ) := by
      apply Int.dvd_sub
      · exact Int.natCast_dvd_natCast.mpr (Nat.dvd_of_mod_eq_zero hstart)
      · exact Int.natCast_dvd_natCast.mpr ⟨_, htwice.symm⟩
    rw [if_neg (by omega), if_neg (by omega)]
    have hcancel := Int.tdiv_mul_cancel hdvd
    generalize 2 ^ k = b at *
    omega

/-- Behind a whole block the next byte is at the start of a block. -/
theorem regular_next (hk : k < 32) (uio : Uio) (iov : List (List (Option (BitVec 8)))) :
    Uio.Regular (2 ^ k)
      ⟨iov, uio.offset + BitVec.ofNat 32 (2 ^ k - uio.on (2 ^ k))⟩ := by
  right
  have hdvd : 2 ^ k ∣ 2 ^ 32 := Nat.pow_dvd_pow 2 (Nat.le_of_lt hk)
  have hon := on_lt hk uio
  rw [on_eq hk] at hon ⊢
  dsimp only
  rw [BitVec.toNat_add, BitVec.toNat_ofNat, Nat.add_mod_mod, Nat.mod_mod_of_dvd _ hdvd, Nat.add_mod,
    Nat.add_mod_mod, Nat.add_sub_cancel' (Nat.le_of_lt hon), Nat.mod_self]

/-- The block of a place and where it is in it. -/
theorem place_in_block {b j : ℕ} (hj : j < b) :
    (lbn * (b : ℤ) + (j : ℕ)) / b = lbn ∧ (lbn * (b : ℤ) + (j : ℕ)) % b = j := by
  have hpos : (0 : ℤ) < b := by omega
  rw [Int.add_comm, Int.add_mul_ediv_right _ _ (Int.ne_of_gt hpos), Int.add_mul_emod_self_right]
  constructor
  · rw [Int.ediv_eq_zero_of_lt (by omega) (by omega), Int.zero_add]
  · exact Int.emod_eq_of_lt (by omega) (by omega)

/-! ## The invariant -/

/-- The bytes of the dirty range were stored for their places. -/
structure Buf.Sound (biosize : ℕ) (lbn : ℤ) (bp : Buf) : Prop where
  le : bp.dirtyend ≤ biosize
  place : ∀ i, bp.dirtyoff ≤ i → i < bp.dirtyend →
    (bp.addr i).place = some (lbn * biosize + (i : ℕ))

/-- The buffer is to be written, and the place is in its dirty range. -/
def Buf.Holds (biosize : ℕ) (bp : Buf) (o : ℤ) : Prop :=
  (bp.delwri ∨ bp.busy) ∧ (bp.dirtyoff : ℤ) ≤ o % biosize ∧ o % biosize < bp.dirtyend

/-- A place of the ledger. -/
def Ledger.Has (l : Ledger) (o : ℤ) : Prop := o ∈ l.kept ∨ o ∈ l.accepted

/-- The invariant. -/
structure Inv (biosize : ℕ) (s : File) (l : Ledger) : Prop where
  sound : ∀ lbn bp, s.cache lbn = some bp → bp.Sound biosize lbn
  held : ∀ o, l.Has o → ∃ bp, s.cache (o / biosize) = some bp ∧ bp.Holds biosize o
  call : ∀ uio, s.call = some uio → uio.Regular biosize

variable {l l' : Ledger}

theorem Inv.inDirtyRange (hinv : Inv biosize s l) (ho : o ∈ l.accepted) :
    s.InDirtyRange biosize o := by
  obtain ⟨bp, hbp, -, hrange⟩ := hinv.held o (Or.inr ho)
  exact ⟨bp, hbp, hrange⟩

/-- The invariant is about the cache and the call. -/
theorem Inv.mono {t : File} (hinv : Inv biosize s l) (hcache : t.cache = s.cache)
    (hcall : ∀ uio, t.call = some uio → uio.Regular biosize) (hhas : ∀ o, l'.Has o → l.Has o) :
    Inv biosize t l' where
  sound lbn bp hbp := hinv.sound lbn bp (hcache ▸ hbp)
  held o ho := hcache ▸ hinv.held o (hhas o ho)
  call := hcall

/-- A buffer is put back. -/
theorem Inv.put (hinv : Inv biosize s l) (hbp : bp.Sound biosize lbn)
    (hin : ∀ o, l'.Has o → o / biosize = lbn → bp.Holds biosize o)
    (hout : ∀ o, l'.Has o → o / biosize ≠ lbn → l.Has o) :
    Inv biosize (s.put lbn bp) l' where
  sound lbn' bp' hbp' := by
    change Function.update s.cache lbn (some bp) lbn' = some bp' at hbp'
    by_cases heq : lbn' = lbn
    · rw [heq, Function.update_self, Option.some_inj] at hbp'
      rw [heq, ← hbp']
      exact hbp
    · rw [Function.update_of_ne heq] at hbp'
      exact hinv.sound lbn' bp' hbp'
  held o ho := by
    change ∃ bp', Function.update s.cache lbn (some bp) (o / biosize) = some bp' ∧ _
    by_cases heq : o / biosize = lbn
    · rw [heq, Function.update_self]
      exact ⟨bp, rfl, hin o ho heq⟩
    · rw [Function.update_of_ne heq]
      exact hinv.held o (hout o ho heq)
  call := hinv.call

theorem close_has {error : ℕ} (ho : (l.close error).Has o) : l.Has o := by
  rw [Ledger.Has, Ledger.close] at ho
  split_ifs at ho
  · exact (ho.resolve_left id).symm
  · exact Or.inr (ho.resolve_left id)

/-! ## One step -/

theorem getblk_sound (hinv : Inv biosize s l) (lbn : ℤ) (leftover : ℕ → BitVec 8) :
    (s.getblk lbn leftover).Sound biosize lbn := by
  rw [File.getblk]
  cases hbp : s.cache lbn with
  | none => exact ⟨Nat.zero_le _, fun i _ hi ↦ absurd hi (Nat.not_lt_zero i)⟩
  | some bp => exact hinv.sound lbn bp hbp

theorem getblk_holds (hinv : Inv biosize s l) (ho : l.Has o) (hlbn : o / biosize = lbn)
    (leftover : ℕ → BitVec 8) : (s.getblk lbn leftover).Holds biosize o := by
  obtain ⟨bp, hbp, hholds⟩ := hinv.held o ho
  rw [File.getblk, ← hlbn, hbp]
  exact hholds

theorem Inv.nfsWrite (hinv : Inv biosize s l) (uio : Uio) :
    Inv biosize (nfsWrite s uio).2 (l.record (nfsWrite s uio).1) := by
  rw [Bio.nfsWrite]
  split_ifs with hcall hneg hresid
  · exact hinv
  · exact hinv.mono rfl hinv.call fun o ↦ close_has
  · exact hinv.mono rfl hinv.call fun o ↦ close_has
  · refine hinv.mono rfl (fun uio' huio ↦ ?_) fun o ↦ id
    rw [← Option.some_inj.mp huio]
    exact Or.inl (Int.not_lt.mp hneg)

/-- The start of output leaves the dirty range. -/
theorem Inv.output (hinv : Inv biosize s l) (hbp : bp.Sound biosize lbn)
    (hholds : ∀ o, l.Has o → o / biosize = lbn → bp.Holds biosize o) :
    Inv biosize (s.put lbn bp.output) l :=
  hinv.put ⟨hbp.le, hbp.place⟩ (fun o ho hlbn ↦ ⟨Or.inr rfl, (hholds o ho hlbn).2⟩)
    fun _ ho _ ↦ ho

theorem Inv.bawrite (hinv : Inv biosize s l) (lbn : ℤ) :
    Inv biosize (bawrite s lbn).2 (l.record (bawrite s lbn).1) := by
  rw [Bio.bawrite]
  cases hbp : s.cache lbn with
  | none => exact hinv
  | some bp =>
    dsimp only [Option.elim, Ledger.record]
    split_ifs
    · refine hinv.output (hinv.sound lbn bp hbp) fun o ho hlbn ↦ ?_
      obtain ⟨bp', hbp', hholds⟩ := hinv.held o ho
      rw [hlbn, hbp] at hbp'
      rw [Option.some_inj.mp hbp']
      exact hholds
    · exact hinv

theorem Inv.recycle (hinv : Inv biosize s l) (lbn : ℤ) :
    Inv biosize (recycle s lbn).2 (l.record (recycle s lbn).1) := by
  rw [Bio.recycle]
  cases hbp : s.cache lbn with
  | none => exact hinv
  | some bp =>
    dsimp only [Option.elim, Ledger.record]
    split_ifs with hfree
    · refine ⟨fun lbn' bp' hbp' ↦ ?_, fun o ho ↦ ?_, hinv.call⟩
      · change Function.update s.cache lbn none lbn' = some bp' at hbp'
        by_cases heq : lbn' = lbn
        · rw [heq, Function.update_self] at hbp'
          cases hbp'
        · rw [Function.update_of_ne heq] at hbp'
          exact hinv.sound lbn' bp' hbp'
      · obtain ⟨bp', hbp', hholds⟩ := hinv.held o ho
        have hne : o / biosize ≠ lbn := by
          rintro heq
          rw [heq, hbp] at hbp'
          rw [← Option.some_inj.mp hbp'] at hholds
          exact hholds.1.elim hfree.2 hfree.1
        exact ⟨bp', (Function.update_of_ne hne none s.cache).trans hbp', hholds⟩
    · exact hinv

/-- The output of a buffer sends all of its bytes that are in the ledger. -/
theorem Inv.written (hpos : 0 < biosize) (hinv : Inv biosize s l) (lbn : ℤ) :
    Inv biosize (written biosize s lbn).2 (l.record (written biosize s lbn).1) ∧
      ∀ b ∈ (written biosize s lbn).1.bytes, b.2.place = some b.1 := by
  rw [Bio.written]
  cases hbp : s.cache lbn with
  | none => exact ⟨hinv, fun b hb ↦ absurd hb List.not_mem_nil⟩
  | some bp =>
    dsimp only [Option.elim]
    split_ifs with hbusy
    · have hsound := hinv.sound lbn bp hbp
      constructor
      · refine hinv.put ⟨Nat.zero_le _, fun i _ hi ↦ absurd hi (Nat.not_lt_zero i)⟩
          (fun o ho hlbn ↦ ?_) fun o ho _ ↦ ho.imp And.left And.left
        obtain ⟨bp', hbp', hholds⟩ := hinv.held o (ho.imp And.left And.left)
        rw [hlbn, hbp] at hbp'
        rw [← Option.some_inj.mp hbp'] at hholds
        apply absurd _ (ho.elim And.right And.right)
        have hnonneg := Int.emod_nonneg o (Int.ne_of_gt (Int.natCast_pos.mpr hpos))
        refine ⟨bp.addr (o % biosize).toNat, List.mem_map.mpr ⟨(o % biosize).toNat, ?_, ?_⟩⟩
        · rw [List.mem_range'_1]
          have hrange := hholds.2
          omega
        · rw [← hlbn, Int.toNat_of_nonneg hnonneg, Int.ediv_mul_add_emod]
      · intro b hb
        obtain ⟨i, hi, rfl⟩ := List.mem_map.mp hb
        rw [List.mem_range'_1] at hi
        exact hsound.place i hi.1 (by omega)
    · exact ⟨hinv, fun b hb ↦ absurd hb List.not_mem_nil⟩

/-! ## A turn of the loop -/

theorem grow_cache (s : File) (uio : Uio) : (s.grow biosize uio).cache = s.cache := by
  rw [File.grow]
  split_ifs <;> rfl

theorem grow_call (s : File) (uio : Uio) : (s.grow biosize uio).call = s.call := by
  rw [File.grow]
  split_ifs <;> rfl

theorem Inv.grow (hinv : Inv biosize s l) (uio : Uio) : Inv biosize (s.grow biosize uio) l :=
  hinv.mono (grow_cache s uio) (fun uio' huio ↦ hinv.call uio' (grow_call s uio ▸ huio)) fun _ ↦ id

/-- A contiguous write makes the dirty range the union of both. -/
theorem mem_extend (hbp : bp.Contiguous on n) {i : ℕ} (hoff : (bp.extend on n).dirtyoff ≤ i)
    (hend : i < (bp.extend on n).dirtyend) :
    on ≤ i ∧ i < on + n ∨ bp.dirtyoff ≤ i ∧ i < bp.dirtyend := by
  rw [Buf.extend] at hoff hend
  rw [Buf.Contiguous] at hbp
  split_ifs at hoff hend with hdirty
  · have hboth := hbp hdirty
    dsimp only at hoff hend
    omega
  · exact Or.inl ⟨hoff, hend⟩

theorem extend_range (bp : Buf) (on n : ℕ) :
    (bp.extend on n).dirtyoff ≤ on ∧ on + n ≤ (bp.extend on n).dirtyend ∧
      (bp.dirtyend > 0 →
        (bp.extend on n).dirtyoff ≤ bp.dirtyoff ∧ bp.dirtyend ≤ (bp.extend on n).dirtyend) := by
  rw [Buf.extend]
  split_ifs with hdirty
  · dsimp only
    omega
  · exact ⟨Nat.le_refl on, Nat.le_refl _, fun h ↦ absurd h hdirty⟩

theorem extend_end_le (hbp : bp.dirtyend ≤ biosize) (hn : on + n ≤ biosize) :
    (bp.extend on n).dirtyend ≤ biosize := by
  rw [Buf.extend]
  split_ifs
  · exact Nat.max_le.mpr ⟨hn, hbp⟩
  · exact hn

theorem extend_addr (bp : Buf) (on n : ℕ) : (bp.extend on n).addr = bp.addr := by
  rw [Buf.extend]
  split_ifs <;> rfl

theorem on_add_n_le (hk : k < 32) (uio : Uio) : uio.on (2 ^ k) + uio.n (2 ^ k) ≤ 2 ^ k := by
  have hlt := on_lt hk uio
  rw [Uio.n]
  omega

/-- A covered copy keeps the bytes of the dirty range in their places. -/
theorem copy_sound (hk : k < 32) (huio : uio.Regular (2 ^ k))
    (hbp : bp.Sound (2 ^ k) (uio.lbn (2 ^ k)))
    (hcontiguous : bp.Contiguous (uio.on (2 ^ k)) (uio.n (2 ^ k)))
    (hcovered : uio.Covered (2 ^ k) bp)
    {bp' : Buf} (hoff : bp'.dirtyoff = (bp.extend (uio.on (2 ^ k)) (uio.n (2 ^ k))).dirtyoff)
    (hend : bp'.dirtyend = (bp.extend (uio.on (2 ^ k)) (uio.n (2 ^ k))).dirtyend)
    (haddr : bp'.addr = (uiomove bp.addr (uio.on (2 ^ k)) (uio.n (2 ^ k)) uio).2.1) :
    bp'.Sound (2 ^ k) (uio.lbn (2 ^ k)) := by
  have hon := on_add_n_le hk uio
  refine ⟨hend ▸ extend_end_le hbp.le hon, fun i hi hi' ↦ ?_⟩
  rw [hoff] at hi
  rw [hend] at hi'
  rw [haddr, uiomove, uiotofunc1_current hcovered.1, copyin_place]
  split_ifs with hcopied
  · have hplace := huio.place hk (i := i - uio.on (2 ^ k)) (by omega)
    rw [Nat.add_sub_cancel' hcopied.1] at hplace
    rw [hplace]
  · rcases mem_extend hcontiguous hi hi' with hnew | hold
    · have hplace := huio.place hk (i := i - uio.on (2 ^ k)) (by omega)
      have hkept := (hcovered.2 (i - uio.on (2 ^ k)) (by omega)).resolve_left (by omega)
      rw [Nat.add_sub_cancel' hnew.1] at hplace hkept
      rw [hkept, hplace]
    · exact hbp.place i hold.1 hold.2

/-- The places of the copy are in the dirty range behind it. -/
theorem copied_in_block (hk : k < 32) (huio : uio.Regular (2 ^ k))
    (ho : o ∈ copied uio.offset (uio.n (2 ^ k))) :
    o / (2 ^ k : ℕ) = uio.lbn (2 ^ k) ∧ (uio.on (2 ^ k) : ℤ) ≤ o % (2 ^ k : ℕ) ∧
      o % (2 ^ k : ℕ) < (uio.on (2 ^ k) + uio.n (2 ^ k) : ℕ) := by
  obtain ⟨i, hi, rfl⟩ := ho
  have hon := on_add_n_le hk uio
  have hblock : uio.on (2 ^ k) + i < 2 ^ k := by omega
  rw [huio.place hk hblock, (place_in_block hblock).1, (place_in_block hblock).2]
  omega

/-- A turn that copies keeps the invariant. -/
theorem Inv.copyTurn (hk : k < 32) (hinv : Inv (2 ^ k) s l) (huio : uio.Regular (2 ^ k))
    (hbp : bp.Sound (2 ^ k) (uio.lbn (2 ^ k)))
    (hholds : ∀ o, l.Has o → o / (2 ^ k : ℕ) = uio.lbn (2 ^ k) → bp.Holds (2 ^ k) o)
    (hcontiguous : bp.Contiguous (uio.on (2 ^ k)) (uio.n (2 ^ k)))
    (hcovered : uio.Covered (2 ^ k) bp) :
    Inv (2 ^ k) (copyTurn (2 ^ k) uio s bp).2 (l.record (copyTurn (2 ^ k) uio s bp).1) ∧
      (copyTurn (2 ^ k) uio s bp).1.bytes = [] := by
  have herror : ¬(uiomove bp.addr (uio.on (2 ^ k)) (uio.n (2 ^ k)) uio).1 ≠ 0 :=
    not_not_intro uiotofunc1_error
  have hle : uio.n (2 ^ k) ≤ Uio.resid ⟨uio.iov, uio.offset⟩ := Nat.min_le_right _ uio.resid
  have hoffset : (uiomove bp.addr (uio.on (2 ^ k)) (uio.n (2 ^ k)) uio).2.2.offset =
      uio.offset + BitVec.ofNat 32 (uio.n (2 ^ k)) := (uiotofunc1_advance hle).1
  have hresid : (uiomove bp.addr (uio.on (2 ^ k)) (uio.n (2 ^ k)) uio).2.2.resid =
      uio.resid - uio.n (2 ^ k) := (uiotofunc1_advance hle).2
  rw [Bio.copyTurn]
  dsimp only
  rw [extend_addr, if_neg herror]
  generalize hbuf : (if uio.n (2 ^ k) + uio.on (2 ^ k) = 2 ^ k then Buf.output _ else _) = bp'
  obtain ⟨hoff, hend, haddr, hdirty⟩ :
      bp'.dirtyoff = (bp.extend (uio.on (2 ^ k)) (uio.n (2 ^ k))).dirtyoff ∧
      bp'.dirtyend = (bp.extend (uio.on (2 ^ k)) (uio.n (2 ^ k))).dirtyend ∧
      bp'.addr = (uiomove bp.addr (uio.on (2 ^ k)) (uio.n (2 ^ k)) uio).2.1 ∧
      (bp'.delwri ∨ bp'.busy) := by
    rw [← hbuf]
    split_ifs
    · exact ⟨rfl, rfl, rfl, Or.inr rfl⟩
    · exact ⟨rfl, rfl, rfl, Or.inl rfl⟩
  have hput : Inv (2 ^ k) (s.put (uio.lbn (2 ^ k)) bp')
      { l with kept := l.kept ∪ copied uio.offset (uio.n (2 ^ k)) } := by
    have hextend := extend_range bp (uio.on (2 ^ k)) (uio.n (2 ^ k))
    refine hinv.put (copy_sound hk huio hbp hcontiguous hcovered hoff hend haddr)
      (fun o ho hlbn ↦ ⟨hdirty, ?_⟩) fun o ho hlbn ↦ ?_
    · rw [hoff, hend]
      rcases ho with (hkept | hcopied) | haccepted
      · have hold := (hholds o (Or.inl hkept) hlbn).2
        have hrange := hextend.2.2 (by omega)
        omega
      · have hnew := (copied_in_block hk huio hcopied).2
        omega
      · have hold := (hholds o (Or.inr haccepted) hlbn).2
        have hrange := hextend.2.2 (by omega)
        omega
    · rcases ho with (hkept | hcopied) | haccepted
      · exact Or.inl hkept
      · exact absurd (copied_in_block hk huio hcopied).1 hlbn
      · exact Or.inr haccepted
  split_ifs with hmore
  · refine ⟨hput.mono rfl (fun uio' huio' ↦ ?_) fun _ ↦ id, rfl⟩
    have hrest := hmore.1
    rw [hresid] at hrest
    have hwhole : uio.n (2 ^ k) = 2 ^ k - uio.on (2 ^ k) := by
      rw [Uio.n] at hrest ⊢
      omega
    have hnext := regular_next hk uio
      (uiomove bp.addr (uio.on (2 ^ k)) (uio.n (2 ^ k)) uio).2.2.iov
    rw [← hwhole, ← hoffset] at hnext
    rw [← Option.some_inj.mp huio']
    exact hnext
  · refine ⟨hput.mono rfl (fun uio' huio' ↦ ?_) fun _ ↦ close_has, rfl⟩
    exact absurd huio'.symm (Option.some_ne_none uio')

/-- A covered turn keeps the invariant. -/
theorem Inv.turn (hk : k < 32) (hinv : Inv (2 ^ k) s l)
    (hcovered : Covered (2 ^ k) (s, l) (.turn leftover)) :
    Inv (2 ^ k) (turn (2 ^ k) s leftover).2 (l.record (turn (2 ^ k) s leftover).1) ∧
      (turn (2 ^ k) s leftover).1.bytes = [] := by
  rw [Bio.turn]
  cases hcall : s.call with
  | none => exact ⟨hinv, rfl⟩
  | some uio =>
    dsimp only [Option.elim]
    have hgrow := hinv.grow uio
    have hsame : (s.grow (2 ^ k) uio).getblk (uio.lbn (2 ^ k)) leftover =
        s.getblk (uio.lbn (2 ^ k)) leftover := by
      rw [File.getblk, File.getblk, grow_cache]
    have hsound := getblk_sound hinv (uio.lbn (2 ^ k)) leftover
    have hholds (o : ℤ) (ho : l.Has o) (hlbn : o / (2 ^ k : ℕ) = uio.lbn (2 ^ k)) :
        (s.getblk (uio.lbn (2 ^ k)) leftover).Holds (2 ^ k) o :=
      getblk_holds hinv ho hlbn leftover
    rw [hsame]
    split_ifs with hbusy hcontiguous
    · exact ⟨hgrow, rfl⟩
    · exact hgrow.copyTurn hk (hinv.call uio hcall) hsound hholds hcontiguous
        (hcovered uio leftover rfl hcall (Bool.eq_false_of_not_eq_true hbusy) hcontiguous)
    · exact ⟨hgrow.output hsound hholds, rfl⟩

/-- A covered event keeps the invariant and sends what was stored for its places. -/
theorem Inv.step (hk : k < 32) (hinv : Inv (2 ^ k) s l) {event : Event}
    (hcovered : Covered (2 ^ k) (s, l) event) :
    Inv (2 ^ k) (step (2 ^ k) s event).2 (l.record (step (2 ^ k) s event).1) ∧
      ∀ b ∈ (step (2 ^ k) s event).1.bytes, b.2.place = some b.1 := by
  cases event with
  | nfsWrite uio =>
    refine ⟨hinv.nfsWrite uio, fun b hb ↦ ?_⟩
    rw [Bio.step, Bio.nfsWrite] at hb
    split_ifs at hb <;> exact absurd hb List.not_mem_nil
  | turn leftover =>
    obtain ⟨hnext, hbytes⟩ := hinv.turn hk hcovered
    exact ⟨hnext, fun b hb ↦ absurd (hbytes ▸ hb) List.not_mem_nil⟩
  | bawrite lbn => exact ⟨hinv.bawrite lbn, fun b hb ↦ absurd hb List.not_mem_nil⟩
  | written lbn => exact hinv.written (Nat.two_pow_pos k) lbn
  | recycle lbn => exact ⟨hinv.recycle lbn, fun b hb ↦ absurd hb List.not_mem_nil⟩

/-! ## Runs -/

/-- No call is in progress, and every buffer is clean. -/
def File.Clean (s : File) : Prop :=
  s.call = none ∧ ∀ lbn bp, s.cache lbn = some bp → bp.dirtyoff = 0 ∧ bp.dirtyend = 0

theorem inv_of_clean (hclean : s.Clean) : Inv biosize s ⟨∅, ∅⟩ where
  sound lbn bp hbp := by
    have hend := (hclean.2 lbn bp hbp).2
    exact ⟨hend ▸ Nat.zero_le _, fun i _ hi ↦ absurd (hend ▸ hi) (Nat.not_lt_zero i)⟩
  held o ho := absurd ho (not_or.mpr ⟨Set.notMem_empty o, Set.notMem_empty o⟩)
  call uio huio := absurd (huio.symm.trans hclean.1) (Option.some_ne_none uio)

/-- A file of which nothing is in memory. -/
def emptyFile : File := ⟨0, false, fun _ ↦ none, none⟩

theorem emptyFile_clean : emptyFile.Clean :=
  ⟨rfl, fun _ bp hbp ↦ absurd hbp.symm (Option.some_ne_none bp)⟩

end Bsd386.Nfs.Bio
