import Bsd386.Kern.Subr.Rlist
import Mathlib.Algebra.GroupWithZero.Nat
import Mathlib.Data.List.Nodup
import Mathlib.Data.Nat.Bitwise
import Mathlib.Logic.Function.Basic

/-!
# The swap pager

`kern/vm/swap_pgr.c` keeps the pages of anonymous objects on the swap device. The backing store of
an object is an array of swap blocks of one size; a block gets its place on the device, from the
resource list of swap space, when the first of its pages is written, and a mask says which of its
pages are there.

A request is checked, waits for a swap buffer header, and then its page is in transfer. Other
requests are taken up at any time meanwhile. A page is the contents of eight consecutive disk
blocks. Transfers succeed.
-/

namespace Bsd386.Kern.Vm.SwapPager

open Function Kern.Subr

/-! ## Sizes -/

/-- Disk blocks of 512 bytes. -/
def btodb (bytes : ℕ) : ℕ := bytes / 512

/-- Bytes in disk blocks. -/
def dbtob (db : ℕ) : ℕ := unsigned (db * 512)

/-- Pages of 4096 bytes. -/
def atop (x : ℕ) : ℕ := x / 4096

/-- `round_page` -/
def roundPage (x : ℕ) : ℕ := unsigned (x + 4095) / 4096 * 4096

/-- `struct swtab`: the largest size of an object, and the size of its swap blocks. -/
structure Swtab where
  stOsize : ℕ
  stBsize : ℕ

/-- The loop of `swap_pager_init` that fills in the table of object size against allocation
size. The last entry has no largest size. -/
def fillSwtab (maxbsize : ℕ) : ℕ → ℕ → List Swtab
  | 0, bsize => [⟨0, bsize⟩]
  | n + 1, bsize =>
    if maxbsize ≤ bsize then [⟨0, bsize⟩]
    else ⟨64 * dbtob bsize, bsize⟩ :: fillSwtab maxbsize n (bsize * 2)

/-- `swtab`, with `DMMIN` and `DMMAX` for the bounds. -/
def swtab : List Swtab :=
  let dmmin := 8
  let dmmax := 4096
  fillSwtab (min (btodb (4 * 8 * 4096)) dmmax) 16 (max (btodb 4096) dmmin)

/-- The size of the swap blocks for an object. -/
def bsizeFor (size : ℕ) : List Swtab → ℕ
  | [] => 0
  | swt :: rest => if swt.stOsize = 0 ∨ size ≤ swt.stOsize then swt.stBsize else bsizeFor size rest

/-! ## Pagers -/

/-- `struct swblock`: the valid pages of a block, and one more than its starting disk block, or
zero when it has no place yet. -/
structure Swblock where
  swbMask : ℕ
  swbBlock : ℕ

/-- `struct swpager` -/
structure Swpager where
  swBsize : ℕ
  swNblocks : ℕ
  swBlocks : ℕ → Swblock
  swPoip : ℕ

namespace Swpager

/-- The block that an offset lies in. -/
def index (swp : Swpager) (off : ℕ) : ℕ := off / dbtob swp.swBsize

/-- The offset within the block. -/
def within (swp : Swpager) (off : ℕ) : ℕ := off % dbtob swp.swBsize

/-- The block that an offset lies in. -/
def swb (swp : Swpager) (off : ℕ) : Swblock := swp.swBlocks (swp.index off)

/-- The disk block that a page begins at. -/
def blkno (swp : Swpager) (off : ℕ) : ℕ := (swp.swb off).swbBlock - 1 + btodb (swp.within off)

/-- The block that an offset lies in changes. -/
def setSwb (swp : Swpager) (off : ℕ) (swb : Swblock) : Swpager :=
  { swp with swBlocks := update swp.swBlocks (swp.index off) swb }

/-- The block that an offset lies in is given a place on the device. -/
def place (swp : Swpager) (off loc : ℕ) : Swpager :=
  swp.setSwb off { swp.swb off with swbBlock := loc + 1 }

/-- The page at an offset is recorded as valid. -/
def record (swp : Swpager) (off : ℕ) : Swpager :=
  swp.setSwb off
    { swp.swb off with swbMask := (swp.swb off).swbMask ||| (1 <<< atop (swp.within off)) }

end Swpager

/-- The pager that `swap_pager_alloc` makes for an object. -/
def swapPagerAlloc (size : ℕ) : Swpager :=
  let size := roundPage size
  let bsize := bsizeFor size swtab
  { swBsize := bsize
    swNblocks := (btodb size + bsize - 1) / bsize
    swBlocks := fun _ ↦ ⟨0, 0⟩
    swPoip := 0 }

/-- `swap_pager_haspage` -/
def swapPagerHaspage (swp : Swpager) (offset : ℕ) : Bool :=
  let ix := offset / dbtob swp.swBsize
  if swp.swNblocks ≤ ix then false
  else
    let swb := swp.swBlocks ix
    let ix := if swb.swbBlock ≠ 0 then atop (offset % dbtob swp.swBsize) else ix
    swb.swbBlock ≠ 0 && swb.swbMask.testBit ix

/-! ## Requests -/

variable {P M S : Type} [DecidableEq P] [DecidableEq M]

/-- The contents of a page. -/
abbrev Page (S : Type) : Type := Fin 8 → S

/-- The `flags` of a request, with what is written. -/
inductive Op (S : Type)
  | read
  | write (async : Bool) (data : Page S)

/-- `B_ASYNC` -/
def Op.async : Op S → Bool
  | .read => false
  | .write async _ => async

/-- A page at an offset of a pager is to be read or written. -/
structure Request (P M S : Type) where
  swp : P
  m : M
  off : ℕ
  op : Op S

/-- A page in transfer: what a swap buffer header, and for an asynchronous write a cleaning entry on
the inuse queue, hold. -/
structure Buf (P M S : Type) extends Request P M S where
  bBlkno : ℕ

/-- The swap device and its pagers. -/
structure System (P M S : Type) where
  swapmap : List Rlist
  pagers : P → Option Swpager
  waiting : List (Request P M S)
  transfers : List (Buf P M S)
  disk : ℕ → S

namespace System

/-- `swap_pager_clean`: the page is already being cleaned. -/
def swapPagerClean (s : System P M S) (m : M) : Bool :=
  s.transfers.any fun b ↦ b.op.async && b.m = m

/-- `queue_empty(&swap_pager_free)`: each of the `NPENDINGIO` cleaning entries is in use. -/
def noClean (s : System P M S) : Bool := 64 ≤ s.transfers.countP fun b ↦ b.op.async

/-- `swap_pager_io` until it has a swap buffer header. There is no result when it fails. -/
def swapPagerIo (s : System P M S) (r : Request P M S) : Option (System P M S) :=
  match s.pagers r.swp with
  | none => none
  | some swp =>
    if r.op.async ∧ (s.swapPagerClean r.m ∨ s.noClean) then none
    else if swp.swNblocks ≤ swp.index r.off ∨ 32 ≤ atop (swp.within r.off) then none
    else
      match r.op with
      | .read =>
        if (swp.swb r.off).swbBlock = 0 ∨
            (swp.swb r.off).swbMask.testBit (atop (swp.within r.off)) = false then none
        else some { s with waiting := r :: s.waiting }
      | .write _ _ =>
        if (swp.swb r.off).swbBlock = 0 then
          match rlistAlloc swp.swBsize s.swapmap with
          | none => none
          | some (loc, swapmap) =>
            some { s with
              swapmap
              pagers := update s.pagers r.swp (some (swp.place r.off loc))
              waiting := r :: s.waiting }
        else some { s with waiting := r :: s.waiting }

/-- `swap_pager_io` from there until the transfer has been started, for the request that waits
between the others. -/
def startIo (s : System P M S) (before after : List (Request P M S)) (r : Request P M S) :
    Except Fault (System P M S) :=
  match s.pagers r.swp with
  | none => .error .nullPointer
  | some swp =>
    let b : Buf P M S := { r with bBlkno := swp.blkno r.off }
    if r.op.async then
      if s.noClean then .error (.panic "swpg_io: lost spc")
      else .ok { s with
        pagers := update s.pagers r.swp
          (some { swp.record r.off with swPoip := swp.swPoip + 1 })
        waiting := before ++ after
        transfers := b :: s.transfers }
    else .ok { s with
      waiting := before ++ after
      transfers := b :: s.transfers }

/-- Write a page to the disk. -/
def writePage (disk : ℕ → S) (blkno : ℕ) (data : Page S) (x : ℕ) : S :=
  if h : blkno ≤ x ∧ x < blkno + 8 then data ⟨x - blkno, by omega⟩ else disk x

/-- Read a page from the disk. -/
def readPage (disk : ℕ → S) (blkno : ℕ) : Page S := fun i ↦ disk (blkno + i)

/-- A transfer between others is done: `swap_pager_iodone` for an asynchronous write. -/
def iodone (s : System P M S) (before after : List (Buf P M S)) (b : Buf P M S) : System P M S :=
  { s with
    pagers :=
      if b.op.async then
        update s.pagers b.swp
          ((s.pagers b.swp).map fun swp ↦ { swp with swPoip := swp.swPoip - 1 })
      else s.pagers
    transfers := before ++ after
    disk :=
      match b.op with
      | .read => s.disk
      | .write _ data => writePage s.disk b.bBlkno data }

/-- The loop of `swap_pager_dealloc` that frees left over swap blocks. -/
def freeBlocks (space : Bool) (swp : Swpager) : List ℕ → List Rlist → Except Fault (List Rlist)
  | [], swapmap => .ok swapmap
  | i :: rest, swapmap =>
    let block := (swp.swBlocks i).swbBlock
    if block ≠ 0 then
      match rlistFree space swapmap (block - 1) (block - 1 + swp.swBsize - 1) with
      | .ok swapmap => freeBlocks space swp rest swapmap
      | .error fault => .error fault
    else freeBlocks space swp rest swapmap

/-- `swap_pager_dealloc` when all pageouts have finished. -/
def swapPagerDealloc (s : System P M S) (space : Bool) (p : P) (swp : Swpager) :
    Except Fault (System P M S) :=
  match freeBlocks space swp (List.range swp.swNblocks) s.swapmap with
  | .ok swapmap => .ok { s with swapmap, pagers := update s.pagers p none }
  | .error fault => .error fault

end System

end Bsd386.Kern.Vm.SwapPager

/-!
# Swap blocks and swap space

Every swap block that has a place on the device has one of its own: the ranges of disk blocks of
any two swap blocks are disjoint, and none of them is free. This holds whatever the pagers do,
since the places come from the resource list and go back to it as a whole.
-/

namespace Bsd386.Kern.Vm.SwapPager

open Function Kern.Subr

variable {P : Type} {pagers : P → Option Swpager} {p : P}
  {swp swp' : Swpager} {swapmap swapmap' : List Rlist} {off i : ℕ}

namespace Swpager

/-- The size of the blocks is a number of pages, no more than fit into the mask, and the blocks
behind the last one have no place. -/
structure Sized (swp : Swpager) : Prop where
  pages : 8 ∣ swp.swBsize
  pos : 0 < swp.swBsize
  le_mask : swp.swBsize ≤ 256
  unplaced : ∀ i, swp.swNblocks ≤ i → (swp.swBlocks i).swbBlock = 0

/-- The disk blocks of a swap block. -/
def extent (swp : Swpager) (i : ℕ) : Set ℕ :=
  {x | (swp.swBlocks i).swbBlock ≠ 0 ∧ (swp.swBlocks i).swbBlock - 1 ≤ x ∧
    x < (swp.swBlocks i).swbBlock - 1 + swp.swBsize}

/-- The pagers have the same blocks in the same places. -/
structure Same (swp swp' : Swpager) : Prop where
  swBsize : swp'.swBsize = swp.swBsize
  swNblocks : swp'.swNblocks = swp.swNblocks
  swbBlock : ∀ i, (swp'.swBlocks i).swbBlock = (swp.swBlocks i).swbBlock

theorem Sized.dbtob (h : swp.Sized) : dbtob swp.swBsize = swp.swBsize * 512 := by
  have hle := h.le_mask
  exact unsigned_of_lt (by omega)

theorem Same.extent (h : Same swp swp') (i : ℕ) : swp'.extent i = swp.extent i := by
  rw [Swpager.extent, Swpager.extent, h.swbBlock, h.swBsize]

theorem Same.sized (h : Same swp swp') (hsized : swp.Sized) : swp'.Sized where
  pages := h.swBsize ▸ hsized.pages
  pos := h.swBsize ▸ hsized.pos
  le_mask := h.swBsize ▸ hsized.le_mask
  unplaced := fun i hi ↦ (h.swbBlock i).trans (hsized.unplaced i (h.swNblocks ▸ hi))

theorem extent_of_eq_zero (h : (swp.swBlocks i).swbBlock = 0) : swp.extent i = ∅ :=
  Set.eq_empty_of_forall_notMem fun _ hx ↦ hx.1 h

/-! ### Changes of one block -/

@[simp]
theorem swBsize_setSwb (swp : Swpager) (off : ℕ) (swb : Swblock) :
    (swp.setSwb off swb).swBsize = swp.swBsize := rfl

@[simp]
theorem swNblocks_setSwb (swp : Swpager) (off : ℕ) (swb : Swblock) :
    (swp.setSwb off swb).swNblocks = swp.swNblocks := rfl

@[simp]
theorem index_setSwb (swp : Swpager) (off : ℕ) (swb : Swblock) (o : ℕ) :
    (swp.setSwb off swb).index o = swp.index o := rfl

@[simp]
theorem within_setSwb (swp : Swpager) (off : ℕ) (swb : Swblock) (o : ℕ) :
    (swp.setSwb off swb).within o = swp.within o := rfl

theorem swBlocks_setSwb (swp : Swpager) (off : ℕ) (swb : Swblock) :
    (swp.setSwb off swb).swBlocks = update swp.swBlocks (swp.index off) swb := rfl

@[simp]
theorem swb_setSwb (swp : Swpager) (off : ℕ) (swb : Swblock) :
    (swp.setSwb off swb).swb off = swb := by
  rw [Swpager.swb, index_setSwb, swBlocks_setSwb, update_self]

theorem same_record (swp : Swpager) (off : ℕ) : Same swp (swp.record off) where
  swBsize := rfl
  swNblocks := rfl
  swbBlock := fun i ↦ by
    rw [record, swBlocks_setSwb]
    rcases eq_or_ne i (swp.index off) with rfl | hne
    · rw [update_self]
      rfl
    · rw [update_of_ne hne]

theorem extent_place (swp : Swpager) (off loc : ℕ) :
    (swp.place off loc).extent (swp.index off) = Set.Ico loc (loc + swp.swBsize) := by
  ext x
  simp only [extent, place, swBlocks_setSwb, update_self, swBsize_setSwb, Set.mem_ofPred_eq,
    Set.mem_Ico, Nat.add_sub_cancel]
  exact and_iff_right (Nat.succ_ne_zero loc)

theorem extent_place_of_ne (swp : Swpager) (off loc : ℕ) (h : i ≠ swp.index off) :
    (swp.place off loc).extent i = swp.extent i := by
  rw [extent, extent, place, swBlocks_setSwb, update_of_ne h]
  rfl

theorem Sized.place (h : swp.Sized) (hindex : swp.index off < swp.swNblocks) (loc : ℕ) :
    (swp.place off loc).Sized where
  pages := h.pages
  pos := h.pos
  le_mask := h.le_mask
  unplaced := fun i hi ↦ by
    have hne : i ≠ swp.index off := (hindex.trans_le hi).ne'
    rw [Swpager.place, swBlocks_setSwb, update_of_ne hne]
    exact h.unplaced i hi

theorem sized_swapPagerAlloc (size : ℕ) : (swapPagerAlloc size).Sized := by
  have htable : ∀ swt ∈ swtab, 8 ∣ swt.stBsize ∧ 0 < swt.stBsize ∧ swt.stBsize ≤ 256 := by decide
  have hlast : ∃ swt ∈ swtab, swt.stOsize = 0 := by decide
  have hfind : ∀ (l : List Swtab) (size : ℕ), (∃ swt ∈ l, swt.stOsize = 0) →
      ∃ swt ∈ l, bsizeFor size l = swt.stBsize := by
    intro l size
    induction l with
    | nil => exact fun ⟨_, hmem, _⟩ ↦ absurd hmem List.not_mem_nil
    | cons swt rest ih =>
      rintro ⟨last, hmem, hzero⟩
      rw [bsizeFor]
      by_cases hfit : swt.stOsize = 0 ∨ size ≤ swt.stOsize
      · exact ⟨swt, List.mem_cons_self, if_pos hfit⟩
      · have hrest : last ∈ rest := by
          rcases List.mem_cons.1 hmem with rfl | hrest
          · exact absurd (Or.inl hzero) hfit
          · exact hrest
        obtain ⟨found, hfound, heq⟩ := ih ⟨last, hrest, hzero⟩
        exact ⟨found, List.mem_cons_of_mem swt hfound, (if_neg hfit).trans heq⟩
  obtain ⟨swt, hmem, heq⟩ := hfind swtab (roundPage size) hlast
  obtain ⟨hpages, hpos, hle⟩ := htable swt hmem
  have hbsize : (swapPagerAlloc size).swBsize = swt.stBsize := heq
  exact ⟨hbsize ▸ hpages, hbsize ▸ hpos, hbsize ▸ hle, fun _ _ ↦ rfl⟩

end Swpager

/-! ## The places of all blocks -/

/-- The disk blocks of the swap block with an index in the array of a pager. -/
def extentAt (pagers : P → Option Swpager) (k : P × ℕ) : Set ℕ :=
  {x | ∃ swp, pagers k.1 = some swp ∧ x ∈ swp.extent k.2}

/-- No disk block is both free and part of a swap block, or part of two. -/
structure Mapped (swapmap : List Rlist) (pagers : P → Option Swpager) : Prop where
  wellformed : Wellformed swapmap
  sized : ∀ p swp, pagers p = some swp → swp.Sized
  bounded : ∀ k, ∀ x ∈ extentAt pagers k, x < 2 ^ 32 - 1
  free : ∀ k, Disjoint (extentAt pagers k) (Subr.denote swapmap)
  apart : ∀ k l, k ≠ l → Disjoint (extentAt pagers k) (extentAt pagers l)

theorem extentAt_of_some (h : pagers p = some swp) (i : ℕ) :
    extentAt pagers (p, i) = swp.extent i := by
  ext x
  constructor
  · rintro ⟨swp', hswp', hx⟩
    rwa [Option.some_inj.1 (h.symm.trans hswp')]
  · exact fun hx ↦ ⟨swp, h, hx⟩

theorem extentAt_of_none (h : pagers p = none) (i : ℕ) : extentAt pagers (p, i) = ∅ := by
  refine Set.eq_empty_of_forall_notMem ?_
  rintro x ⟨swp, hswp, -⟩
  exact absurd (h.symm.trans hswp).symm (Option.some_ne_none swp)

theorem lt_of_mem_denote {x : ℕ} (h : Wellformed swapmap) (hx : x ∈ Subr.denote swapmap) :
    x < 2 ^ 32 - 1 := by
  obtain ⟨segment, hmem, -, hle⟩ := mem_denote.1 hx
  exact hle.trans_lt (h.bounded segment hmem)

variable [DecidableEq P]

theorem extentAt_update_of_ne {q : P} (o : Option Swpager) (h : q ≠ p) (i : ℕ) :
    extentAt (update pagers p o) (q, i) = extentAt pagers (q, i) := by
  unfold extentAt
  rw [update_of_ne h]

namespace Mapped

/-- A pager whose blocks stay where they are may change. -/
theorem update_same (h : Mapped swapmap pagers) (hp : pagers p = some swp)
    (hsame : swp.Same swp') : Mapped swapmap (update pagers p (some swp')) := by
  have hextent : extentAt (update pagers p (some swp')) = extentAt pagers := by
    funext ⟨q, i⟩
    rcases eq_or_ne q p with rfl | hne
    · rw [extentAt_of_some hp, extentAt_of_some (update_self q (some swp') pagers), hsame.extent]
    · exact extentAt_update_of_ne _ hne i
  refine ⟨h.wellformed, fun q swpq hq ↦ ?_, ?_, ?_, ?_⟩
  · rcases eq_or_ne q p with rfl | hne
    · rw [update_self] at hq
      rw [← Option.some_inj.1 hq]
      exact hsame.sized (h.sized q swp hp)
    · rw [update_of_ne hne] at hq
      exact h.sized q swpq hq
  · rw [hextent]
    exact h.bounded
  · rw [hextent]
    exact h.free
  · rw [hextent]
    exact h.apart

/-- A new pager has no blocks yet. -/
theorem alloc (h : Mapped swapmap pagers) (hp : pagers p = none) (size : ℕ) :
    Mapped swapmap (update pagers p (some (swapPagerAlloc size))) := by
  have hextent : extentAt (update pagers p (some (swapPagerAlloc size))) = extentAt pagers := by
    funext ⟨q, i⟩
    rcases eq_or_ne q p with rfl | hne
    · rw [extentAt_of_none hp, extentAt_of_some (update_self q _ pagers)]
      exact Swpager.extent_of_eq_zero rfl
    · exact extentAt_update_of_ne _ hne i
  refine ⟨h.wellformed, fun q swpq hq ↦ ?_, ?_, ?_, ?_⟩
  · rcases eq_or_ne q p with rfl | hne
    · rw [update_self] at hq
      rw [← Option.some_inj.1 hq]
      exact Swpager.sized_swapPagerAlloc size
    · rw [update_of_ne hne] at hq
      exact h.sized q swpq hq
  · rw [hextent]
    exact h.bounded
  · rw [hextent]
    exact h.free
  · rw [hextent]
    exact h.apart

/-- A block without a place gets one that nobody has. -/
theorem place {loc : ℕ} (h : Mapped swapmap pagers) (hp : pagers p = some swp)
    (hindex : swp.index off < swp.swNblocks)
    (halloc : rlistAlloc swp.swBsize swapmap = some (loc, swapmap')) :
    Mapped swapmap' (update pagers p (some (swp.place off loc))) := by
  have hsized := h.sized p swp hp
  have hresult := rlistAlloc_some hsized.pos h.wellformed halloc
  have hnew : extentAt (update pagers p (some (swp.place off loc))) (p, swp.index off) =
      Set.Ico loc (loc + swp.swBsize) := by
    rw [extentAt_of_some (update_self p _ pagers), Swpager.extent_place]
  have hother : ∀ k, k ≠ (p, swp.index off) →
      extentAt (update pagers p (some (swp.place off loc))) k = extentAt pagers k := by
    rintro ⟨q, i⟩ hne
    rcases eq_or_ne q p with rfl | hq
    · have hi : i ≠ swp.index off := fun hi ↦ hne (congrArg _ hi)
      rw [extentAt_of_some hp, extentAt_of_some (update_self q _ pagers),
        Swpager.extent_place_of_ne swp off loc hi]
    · exact extentAt_update_of_ne _ hq i
  have hclear : ∀ k, Disjoint (extentAt pagers k) (Set.Ico loc (loc + swp.swBsize)) :=
    fun k ↦ (h.free k).mono_right hresult.was_free
  refine ⟨hresult.wellformed, fun q swpq hq ↦ ?_, fun k ↦ ?_, fun k ↦ ?_, fun k l hkl ↦ ?_⟩
  · rcases eq_or_ne q p with rfl | hne
    · rw [update_self] at hq
      rw [← Option.some_inj.1 hq]
      exact hsized.place hindex loc
    · rw [update_of_ne hne] at hq
      exact h.sized q swpq hq
  · rcases eq_or_ne k (p, swp.index off) with rfl | hk
    · rw [hnew]
      exact fun x hx ↦ lt_of_mem_denote h.wellformed (hresult.was_free hx)
    · rw [hother k hk]
      exact h.bounded k
  · rw [hresult.denote_eq]
    rcases eq_or_ne k (p, swp.index off) with rfl | hk
    · rw [hnew]
      exact Set.disjoint_sdiff_right
    · rw [hother k hk]
      exact (h.free k).mono_right Set.sdiff_subset
  · rcases eq_or_ne k (p, swp.index off) with rfl | hk
    · rw [hnew, hother l hkl.symm]
      exact (hclear l).symm
    · rw [hother k hk]
      rcases eq_or_ne l (p, swp.index off) with rfl | hl
      · rw [hnew]
        exact hclear k
      · rw [hother l hl]
        exact h.apart k l hkl

/-- The places of the blocks of a pager are given back. -/
theorem freeBlocks_spec (space : Bool) (l : List ℕ) (hnodup : l.Nodup) (hpos : 0 < swp.swBsize)
    (hwf : Wellformed swapmap) (hbounded : ∀ i, ∀ x ∈ swp.extent i, x < 2 ^ 32 - 1)
    (hfree : ∀ i ∈ l, Disjoint (swp.extent i) (Subr.denote swapmap))
    (hapart : ∀ i j, i ≠ j → Disjoint (swp.extent i) (swp.extent j))
    (h : System.freeBlocks space swp l swapmap = .ok swapmap') :
    Wellformed swapmap' ∧
      Subr.denote swapmap' = Subr.denote swapmap ∪ {x | ∃ i ∈ l, x ∈ swp.extent i} := by
  induction l generalizing swapmap with
  | nil =>
    obtain rfl := Except.ok.inj h
    refine ⟨hwf, ?_⟩
    simp
  | cons i rest ih =>
    obtain ⟨hnot, hrest⟩ := List.nodup_cons.1 hnodup
    have hsplit : {x | ∃ j ∈ i :: rest, x ∈ swp.extent j} =
        swp.extent i ∪ {x | ∃ j ∈ rest, x ∈ swp.extent j} := by
      ext x
      simp
    rw [System.freeBlocks] at h
    by_cases hzero : (swp.swBlocks i).swbBlock = 0
    · rw [if_neg (not_not.2 hzero)] at h
      obtain ⟨hwf', hdenote⟩ := ih hrest hwf (fun j hj ↦ hfree j (List.mem_cons_of_mem i hj)) h
      rw [hsplit, Swpager.extent_of_eq_zero hzero, Set.empty_union]
      exact ⟨hwf', hdenote⟩
    · rw [if_pos hzero] at h
      set start := (swp.swBlocks i).swbBlock - 1
      have hextent : swp.extent i = Set.Icc start (start + swp.swBsize - 1) := by
        ext x
        simp only [Swpager.extent, Set.mem_ofPred_eq, Set.mem_Icc]
        omega
      have hlast : start + swp.swBsize - 1 < 2 ^ 32 - 1 := by
        refine hbounded i _ ?_
        rw [hextent, Set.mem_Icc]
        omega
      have hdisj := hfree i List.mem_cons_self
      rw [hextent] at hdisj
      rcases rlistFree_spec space (by omega) hlast hwf hdisj with
        ⟨list, hok, hwf₁, hdenote₁⟩ | ⟨-, herr⟩
      · rw [hok] at h
        have hfree₁ : ∀ j ∈ rest, Disjoint (swp.extent j) (Subr.denote list) := by
          intro j hj
          rw [hdenote₁, Set.disjoint_union_right, ← hextent]
          refine ⟨hfree j (List.mem_cons_of_mem i hj), hapart j i ?_⟩
          rintro rfl
          exact hnot hj
        obtain ⟨hwf', hdenote⟩ := ih hrest hwf₁ hfree₁ h
        refine ⟨hwf', ?_⟩
        rw [hdenote, hdenote₁, hsplit, hextent, Set.union_assoc]
      · rw [herr] at h
        exact absurd h (by simp)

/-- A pager goes away with its blocks. -/
theorem dealloc {space : Bool} (h : Mapped swapmap pagers) (hp : pagers p = some swp)
    (hfree : System.freeBlocks space swp (List.range swp.swNblocks) swapmap = .ok swapmap') :
    Mapped swapmap' (update pagers p none) := by
  have hat : ∀ i, extentAt pagers (p, i) = swp.extent i := extentAt_of_some hp
  have hbounded : ∀ i, ∀ x ∈ swp.extent i, x < 2 ^ 32 - 1 := fun i ↦ hat i ▸ h.bounded (p, i)
  have hdisj : ∀ i, Disjoint (swp.extent i) (Subr.denote swapmap) := fun i ↦ hat i ▸ h.free (p, i)
  have hapart : ∀ i j, i ≠ j → Disjoint (swp.extent i) (swp.extent j) := by
    intro i j hne
    rw [← hat i, ← hat j]
    exact h.apart _ _ fun heq ↦ hne (congrArg Prod.snd heq)
  obtain ⟨hwf, hdenote⟩ := freeBlocks_spec space (List.range swp.swNblocks) List.nodup_range
    (h.sized p swp hp).pos h.wellformed hbounded (fun i _ ↦ hdisj i) hapart hfree
  have hgone : ∀ i, extentAt (update pagers p none) (p, i) = ∅ :=
    extentAt_of_none (update_self p none pagers)
  refine ⟨hwf, fun q swpq hq ↦ ?_, ?_, ?_, ?_⟩
  · rcases eq_or_ne q p with rfl | hne
    · rw [update_self] at hq
      exact absurd hq.symm (Option.some_ne_none swpq)
    · rw [update_of_ne hne] at hq
      exact h.sized q swpq hq
  · rintro ⟨q, i⟩
    rcases eq_or_ne q p with rfl | hne
    · rw [hgone i]
      exact fun x hx ↦ absurd hx (Set.notMem_empty x)
    · rw [extentAt_update_of_ne none hne]
      exact h.bounded (q, i)
  · rintro ⟨q, i⟩
    rcases eq_or_ne q p with rfl | hne
    · rw [hgone i]
      exact Set.empty_disjoint _
    · rw [extentAt_update_of_ne none hne, hdenote, Set.disjoint_union_right]
      refine ⟨h.free (q, i), Set.disjoint_left.2 ?_⟩
      rintro x hx ⟨j, -, hj⟩
      have hqp : (q, i) ≠ (p, j) := fun heq ↦ hne (congrArg Prod.fst heq)
      exact Set.disjoint_left.1 (h.apart _ _ hqp) hx ((hat j).symm ▸ hj)
  · rintro ⟨q, i⟩ ⟨r, j⟩ hkl
    rcases eq_or_ne q p with rfl | hq
    · rw [hgone i]
      exact Set.empty_disjoint _
    · rcases eq_or_ne r p with rfl | hr
      · rw [hgone j]
        exact Set.disjoint_empty _
      · rw [extentAt_update_of_ne none hq, extentAt_update_of_ne none hr]
        exact h.apart _ _ hkl

end Mapped

end Bsd386.Kern.Vm.SwapPager
