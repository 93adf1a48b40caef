import Bsd386.Kern.Vm.SwapPager.Basic

/-!
# Transfers

A request that has been taken up, or is in transfer, names a page of a block that has a place, and
its transfer goes to that place. Pages of different offsets or different pagers have different
places, so that writing one leaves the others alone.
-/

namespace Bsd386.Kern.Vm.SwapPager

open Function Kern.Subr

variable {P M S : Type} {pagers : P → Option Swpager} {p q : P}
  {swp swp' swq : Swpager} {swapmap swapmap' : List Rlist} {off o i : ℕ}

/-! ## Pages of the disk -/

namespace System

theorem readPage_writePage (disk : ℕ → S) (blkno : ℕ) (data : Page S) :
    readPage (writePage disk blkno data) blkno = data := by
  funext i
  have hin : blkno ≤ blkno + i ∧ blkno + i < blkno + 8 := by omega
  rw [readPage, writePage, dif_pos hin]
  congr 1
  exact Fin.ext (Nat.add_sub_cancel_left ..)

theorem readPage_writePage_of_disjoint {b c : ℕ} (disk : ℕ → S) (data : Page S)
    (h : Disjoint (Set.Ico b (b + 8)) (Set.Ico c (c + 8))) :
    readPage (writePage disk c data) b = readPage disk b := by
  funext i
  have hout : ¬ (c ≤ b + i ∧ b + i < c + 8) := by
    refine Set.disjoint_left.1 h ⟨?_, ?_⟩
    · omega
    · omega
  rw [readPage, readPage, writePage, dif_neg hout]

end System

/-! ## Pages of a pager -/

namespace Swpager

/-- The page at an offset belongs to a block that has a place. -/
structure Has (swp : Swpager) (off : ℕ) : Prop where
  aligned : 4096 ∣ off
  index_lt : swp.index off < swp.swNblocks
  placed : (swp.swb off).swbBlock ≠ 0

/-- The mask has the page at an offset. -/
def Marked (swp : Swpager) (off : ℕ) : Prop :=
  (swp.swb off).swbMask.testBit (atop (swp.within off)) = true

/-- Blocks get places and pages are marked, but neither goes away. -/
structure Grows (swp swp' : Swpager) : Prop where
  swBsize : swp'.swBsize = swp.swBsize
  swNblocks : swp'.swNblocks = swp.swNblocks
  swbBlock : ∀ i, (swp.swBlocks i).swbBlock ≠ 0 →
    (swp'.swBlocks i).swbBlock = (swp.swBlocks i).swbBlock
  swbMask : ∀ i k, (swp.swBlocks i).swbMask.testBit k = true →
    (swp'.swBlocks i).swbMask.testBit k = true

theorem Grows.refl (swp : Swpager) : Grows swp swp :=
  ⟨rfl, rfl, fun _ _ ↦ rfl, fun _ _ h ↦ h⟩

theorem Grows.index (h : Grows swp swp') (off : ℕ) : swp'.index off = swp.index off := by
  rw [Swpager.index, Swpager.index, h.swBsize]

theorem Grows.within (h : Grows swp swp') (off : ℕ) : swp'.within off = swp.within off := by
  rw [Swpager.within, Swpager.within, h.swBsize]

theorem Grows.block_eq (h : Grows swp swp') (hhas : swp.Has off) :
    (swp'.swb off).swbBlock = (swp.swb off).swbBlock := by
  rw [swb, h.index]
  exact h.swbBlock _ hhas.placed

theorem Grows.has (h : Grows swp swp') (hhas : swp.Has off) : swp'.Has off where
  aligned := hhas.aligned
  index_lt := by
    rw [h.index, h.swNblocks]
    exact hhas.index_lt
  placed := by
    rw [h.block_eq hhas]
    exact hhas.placed

theorem Grows.blkno (h : Grows swp swp') (hhas : swp.Has off) :
    swp'.blkno off = swp.blkno off := by
  rw [Swpager.blkno, Swpager.blkno, h.block_eq hhas, h.within]

theorem Grows.marked (h : Grows swp swp') (hmarked : swp.Marked off) : swp'.Marked off := by
  rw [Marked, swb, h.index, h.within]
  exact h.swbMask _ _ hmarked

theorem grows_place (loc : ℕ) (h : (swp.swb off).swbBlock = 0) : Grows swp (swp.place off loc) where
  swBsize := rfl
  swNblocks := rfl
  swbBlock := fun i hi ↦ by
    have hne : i ≠ swp.index off := by
      rintro rfl
      exact hi h
    rw [place, swBlocks_setSwb, update_of_ne hne]
  swbMask := fun i k hk ↦ by
    rw [place, swBlocks_setSwb]
    rcases eq_or_ne i (swp.index off) with rfl | hne
    · rw [update_self]
      exact hk
    · rw [update_of_ne hne]
      exact hk

theorem grows_record (swp : Swpager) (off : ℕ) : Grows swp (swp.record off) where
  swBsize := rfl
  swNblocks := rfl
  swbBlock := fun i _ ↦ (same_record swp off).swbBlock i
  swbMask := fun i k hk ↦ by
    rw [record, swBlocks_setSwb]
    rcases eq_or_ne i (swp.index off) with rfl | hne
    · rw [update_self, Nat.testBit_or]
      exact Bool.or_eq_true_iff.2 (Or.inl hk)
    · rw [update_of_ne hne]
      exact hk

theorem marked_record (swp : Swpager) (off : ℕ) : (swp.record off).Marked off := by
  rw [Marked, record, swb_setSwb, within_setSwb, Nat.testBit_or, Nat.testBit_shiftLeft]
  exact Bool.or_eq_true_iff.2 (Or.inr (by simp))

/-- `swap_pager_haspage` looks at the mask. -/
theorem Has.haspage (h : swp.Has off) :
    swapPagerHaspage swp off = (swp.swb off).swbMask.testBit (atop (swp.within off)) := by
  have hblock : (swp.swBlocks (off / dbtob swp.swBsize)).swbBlock ≠ 0 := h.placed
  have hindex : ¬ swp.swNblocks ≤ off / dbtob swp.swBsize := not_le.2 h.index_lt
  rw [swapPagerHaspage]
  simp only [hindex, if_false, hblock, ne_eq, not_false_eq_true, if_true, decide_true,
    Bool.true_and]
  rfl

theorem marked_of_haspage (h : swapPagerHaspage swp off = true) : swp.Marked off := by
  rw [swapPagerHaspage] at h
  by_cases hindex : swp.swNblocks ≤ off / dbtob swp.swBsize
  · simp [hindex] at h
  · simp only [hindex, if_false, Bool.and_eq_true, decide_eq_true_eq] at h
    obtain ⟨hblock, hbit⟩ := h
    rw [if_pos hblock] at hbit
    exact hbit

/-- A page lies in its block. -/
theorem Has.within_add_le (hsized : swp.Sized) (h : swp.Has off) :
    8 ∣ btodb (swp.within off) ∧ btodb (swp.within off) + 8 ≤ swp.swBsize ∧
      swp.within off = 512 * btodb (swp.within off) := by
  obtain ⟨k, hk⟩ := hsized.pages
  obtain ⟨n, hn⟩ := h.aligned
  have hpos := hsized.pos
  have hmod : swp.within off = 4096 * (n % k) := by
    rw [within, hsized.dbtob, hn, hk, ← Nat.mul_mod_mul_left]
    congr 1
    omega
  have hlt : n % k < k := Nat.mod_lt n (by omega)
  have hbtodb : btodb (swp.within off) = 8 * (n % k) := by
    rw [hmod, btodb]
    omega
  rw [hbtodb, hmod]
  refine ⟨Nat.dvd_mul_right 8 _, ?_, ?_⟩
  · omega
  · omega

theorem Has.page_subset (hsized : swp.Sized) (h : swp.Has off) :
    Set.Ico (swp.blkno off) (swp.blkno off + 8) ⊆ swp.extent (swp.index off) := by
  obtain ⟨-, hle, -⟩ := h.within_add_le hsized
  rintro x ⟨hlo, hhi⟩
  refine ⟨h.placed, ?_, ?_⟩
  · exact (Nat.le_add_right _ _).trans hlo
  · refine hhi.trans_le ?_
    rw [blkno, swb]
    omega

/-- Different pages of a pager have different places. -/
theorem Has.disjoint (hsized : swp.Sized) (h : swp.Has off) (h' : swp.Has o) (hne : off ≠ o)
    (hindex : swp.index off = swp.index o) :
    Disjoint (Set.Ico (swp.blkno off) (swp.blkno off + 8))
      (Set.Ico (swp.blkno o) (swp.blkno o + 8)) := by
  obtain ⟨⟨a, ha⟩, -, hoff⟩ := h.within_add_le hsized
  obtain ⟨⟨b, hb⟩, -, ho⟩ := h'.within_add_le hsized
  have hwithin : btodb (swp.within off) ≠ btodb (swp.within o) := by
    intro heq
    refine hne ?_
    rw [← Nat.div_add_mod off (dbtob swp.swBsize), ← Nat.div_add_mod o (dbtob swp.swBsize)]
    have hmod : swp.within off = swp.within o := by omega
    exact congrArg₂ (fun x y ↦ dbtob swp.swBsize * x + y) hindex hmod
  have hblock : (swp.swb off).swbBlock = (swp.swb o).swbBlock := by
    rw [swb, swb, hindex]
  refine Set.disjoint_left.2 fun x hx hx' ↦ ?_
  rw [Set.mem_Ico, blkno, hblock] at hx
  rw [Set.mem_Ico, blkno] at hx'
  omega

end Swpager

/-- Pages of different pagers or offsets have different places. -/
theorem Mapped.disjoint_pages (h : Mapped swapmap pagers) (hp : pagers p = some swp)
    (hq : pagers q = some swq) (hoff : swp.Has off) (ho : swq.Has o) (hne : (p, off) ≠ (q, o)) :
    Disjoint (Set.Ico (swp.blkno off) (swp.blkno off + 8))
      (Set.Ico (swq.blkno o) (swq.blkno o + 8)) := by
  by_cases hsame : (p, swp.index off) = (q, swq.index o)
  · obtain ⟨rfl, hindex⟩ := Prod.mk.inj hsame
    obtain rfl := Option.some_inj.1 (hp.symm.trans hq)
    exact hoff.disjoint (h.sized p swp hp) ho (fun heq ↦ hne (congrArg _ heq)) hindex
  · have hapart := h.apart _ _ hsame
    rw [extentAt_of_some hp, extentAt_of_some hq] at hapart
    exact hapart.mono (hoff.page_subset (h.sized p swp hp)) (ho.page_subset (h.sized q swq hq))

end Bsd386.Kern.Vm.SwapPager

/-!
# Runs of the swap pagers

Pagers are made and go away, requests are taken up, and their transfers are started and done, in any
order. Whatever is under way names a page of a block that has a place, and its transfer goes to
that place.
-/

namespace Bsd386.Kern.Vm.SwapPager

open Function Kern.Subr

variable {P M S : Type} [DecidableEq P] [DecidableEq M]

/-! ## Runs -/

/-- What happens: a pager is made or goes away, a request is taken up or fails, a transfer is
started or done. -/
inductive Event (P M S : Type)
  | alloc (p : P)
  | dealloc (p : P)
  | request (r : Request P M S)
  | fail (r : Request P M S)
  | start (r : Request P M S)
  | done (r : Request P M S)

/-- A pager goes away when its pageouts are finished, and no other call for it is under way. The
offsets of pages are multiples of the size of a page. -/
inductive Step : System P M S → Event P M S → System P M S → Prop
  | alloc {s : System P M S} {p : P} (size : ℕ) : s.pagers p = none →
    Step s (.alloc p) { s with pagers := update s.pagers p (some (swapPagerAlloc size)) }
  | request {s s' : System P M S} {r : Request P M S} : 4096 ∣ r.off →
    s.swapPagerIo r = some s' → Step s (.request r) s'
  | fail {s : System P M S} {r : Request P M S} : s.swapPagerIo r = none → Step s (.fail r) s
  | start {s s' : System P M S} {before after : List (Request P M S)} {r : Request P M S} :
    s.waiting = before ++ r :: after → s.startIo before after r = .ok s' → Step s (.start r) s'
  | done {s : System P M S} {before after : List (Buf P M S)} {b : Buf P M S} :
    s.transfers = before ++ b :: after → Step s (.done b.toRequest) (s.iodone before after b)
  | dealloc {s s' : System P M S} {p : P} {swp : Swpager} (space : Bool) :
    s.pagers p = some swp → swp.swPoip = 0 → (∀ r ∈ s.waiting, r.swp ≠ p) →
      (∀ b ∈ s.transfers, b.op.async = false → b.swp ≠ p) →
      s.swapPagerDealloc space p swp = .ok s' → Step s (.dealloc p) s'

/-- A run from a system without pagers, in which what happens next meets a condition. -/
inductive Run (cond : System P M S → Event P M S → Prop) : List (Event P M S) → System P M S → Prop
  | init (swapmap : List Rlist) (disk : ℕ → S) : Wellformed swapmap →
    Run cond [] ⟨swapmap, fun _ ↦ none, [], [], disk⟩
  | step {past : List (Event P M S)} {s s' : System P M S} {e : Event P M S} :
    Run cond past s → cond s e → Step s e s' → Run cond (e :: past) s'

/-! ## What a step does -/

variable {s s' : System P M S} {past : List (Event P M S)} {p : P} {r : Request P M S}
  {swp swp' : Swpager} {off : ℕ}

/-- A request that is taken up waits, and the block of its page has a place. -/
theorem System.swapPagerIo_cases (h : s.swapPagerIo r = some s') :
    ∃ swp swp', s.pagers r.swp = some swp ∧ swp.index r.off < swp.swNblocks ∧
      (swp'.swb r.off).swbBlock ≠ 0 ∧
      (swp' = swp ∧ s'.swapmap = s.swapmap ∨ ∃ loc, (swp.swb r.off).swbBlock = 0 ∧
        rlistAlloc swp.swBsize s.swapmap = some (loc, s'.swapmap) ∧ swp' = swp.place r.off loc) ∧
      s'.pagers = update s.pagers r.swp (some swp') ∧ s'.waiting = r :: s.waiting ∧
      s'.transfers = s.transfers ∧ s'.disk = s.disk := by
  rw [swapPagerIo] at h
  rcases hp : s.pagers r.swp with _ | swp
  · simp only [hp] at h
    exact absurd h.symm (Option.some_ne_none s')
  simp only [hp] at h
  have hsame : update s.pagers r.swp (some swp) = s.pagers := by
    rw [← hp, update_eq_self]
  by_cases hclean : r.op.async ∧ (s.swapPagerClean r.m ∨ s.noClean)
  · rw [if_pos hclean] at h
    exact absurd h.symm (Option.some_ne_none s')
  by_cases hbad : swp.swNblocks ≤ swp.index r.off ∨ 32 ≤ atop (swp.within r.off)
  · rw [if_neg hclean, if_pos hbad] at h
    exact absurd h.symm (Option.some_ne_none s')
  rw [if_neg hclean, if_neg hbad] at h
  rw [not_or, not_le] at hbad
  rcases hop : r.op with _ | ⟨async, data⟩
  · simp only [hop] at h
    split_ifs at h with hmask
    rw [not_or] at hmask
    obtain rfl := Option.some_inj.1 h
    exact ⟨swp, swp, rfl, hbad.1, hmask.1, Or.inl ⟨rfl, rfl⟩, hsame.symm, rfl, rfl, rfl⟩
  · simp only [hop] at h
    split_ifs at h with hblock
    · rcases halloc : rlistAlloc swp.swBsize s.swapmap with _ | ⟨loc, swapmap⟩
      · simp only [halloc] at h
        exact absurd h.symm (Option.some_ne_none s')
      · simp only [halloc] at h
        obtain rfl := Option.some_inj.1 h
        refine ⟨swp, swp.place r.off loc, rfl, hbad.1, ?_, Or.inr ⟨loc, hblock, halloc, rfl⟩, rfl,
          rfl, rfl, rfl⟩
        rw [Swpager.place, Swpager.swb_setSwb]
        exact Nat.succ_ne_zero loc
    · obtain rfl := Option.some_inj.1 h
      exact ⟨swp, swp, rfl, hbad.1, hblock, Or.inl ⟨rfl, rfl⟩, hsame.symm, rfl, rfl, rfl⟩

omit [DecidableEq M] in
/-- A transfer that is started goes to the place of its page. An asynchronous write is counted and
enters its page into the mask. -/
theorem System.startIo_cases {before after : List (Request P M S)}
    (h : s.startIo before after r = .ok s') :
    ∃ swp swp', s.pagers r.swp = some swp ∧ swp.Same swp' ∧ swp.Grows swp' ∧
      (r.op.async = true → swp'.Marked r.off) ∧
      swp'.swPoip = swp.swPoip + (if r.op.async then 1 else 0) ∧
      s'.pagers = update s.pagers r.swp (some swp') ∧ s'.swapmap = s.swapmap ∧
      s'.waiting = before ++ after ∧
      s'.transfers = { r with bBlkno := swp.blkno r.off } :: s.transfers ∧ s'.disk = s.disk := by
  rw [startIo] at h
  rcases hp : s.pagers r.swp with _ | swp
  · simp only [hp] at h
    exact absurd h (by simp)
  simp only [hp] at h
  have hsame : update s.pagers r.swp (some swp) = s.pagers := by
    rw [← hp, update_eq_self]
  split_ifs at h with hasync hclean
  · obtain rfl := Except.ok.inj h
    refine ⟨swp, { swp.record r.off with swPoip := swp.swPoip + 1 }, rfl, ?_, ?_, fun _ ↦ ?_, ?_,
      rfl, rfl, rfl, rfl, rfl⟩
    · exact ⟨rfl, rfl, (Swpager.same_record swp r.off).swbBlock⟩
    · have hgrows := Swpager.grows_record swp r.off
      exact ⟨rfl, rfl, hgrows.swbBlock, hgrows.swbMask⟩
    · exact Swpager.marked_record swp r.off
    · rw [if_pos hasync]
  · obtain rfl := Except.ok.inj h
    refine ⟨swp, swp, rfl, ⟨rfl, rfl, fun _ ↦ rfl⟩, Swpager.Grows.refl swp,
      fun htrue ↦ absurd htrue hasync, ?_, hsame.symm, rfl, rfl, rfl, rfl⟩
    rw [if_neg hasync, add_zero]

/-! ## Every run -/

/-- The pagers that stay keep the places and the marks that they have. -/
def GrowsAll (pagers pagers' : P → Option Swpager) : Prop :=
  ∀ p swp, pagers p = some swp → ∃ swp', pagers' p = some swp' ∧ swp.Grows swp'

omit [DecidableEq M] in
theorem growsAll_update (hp : s.pagers p = some swp) (hgrows : swp.Grows swp') :
    GrowsAll s.pagers (update s.pagers p (some swp')) := by
  intro q swq hq
  rcases eq_or_ne q p with rfl | hne
  · obtain rfl := Option.some_inj.1 (hp.symm.trans hq)
    exact ⟨swp', update_self .., hgrows⟩
  · exact ⟨swq, (update_of_ne hne ..).trans hq, Swpager.Grows.refl swq⟩

/-- What is under way names pages that have a place, and goes to that place. -/
structure Sound (s : System P M S) : Prop where
  mapped : Mapped s.swapmap s.pagers
  waiting : ∀ r ∈ s.waiting, ∃ swp, s.pagers r.swp = some swp ∧ swp.Has r.off
  transfers : ∀ b ∈ s.transfers, ∃ swp, s.pagers b.swp = some swp ∧ swp.Has b.off ∧
    b.bBlkno = swp.blkno b.off
  swPoip : ∀ p swp, s.pagers p = some swp →
    swp.swPoip = s.transfers.countP fun b ↦ b.op.async && b.swp = p

omit [DecidableEq M] in
theorem Sound.waiting_of_growsAll (h : Sound s) {pagers : P → Option Swpager}
    (hgrows : GrowsAll s.pagers pagers) {r : Request P M S} (hr : r ∈ s.waiting) :
    ∃ swp, pagers r.swp = some swp ∧ swp.Has r.off := by
  obtain ⟨swp, hp, hhas⟩ := h.waiting r hr
  obtain ⟨swp', hp', hgrows⟩ := hgrows r.swp swp hp
  exact ⟨swp', hp', hgrows.has hhas⟩

omit [DecidableEq M] in
theorem Sound.transfers_of_growsAll (h : Sound s) {pagers : P → Option Swpager}
    (hgrows : GrowsAll s.pagers pagers) {b : Buf P M S} (hb : b ∈ s.transfers) :
    ∃ swp, pagers b.swp = some swp ∧ swp.Has b.off ∧ b.bBlkno = swp.blkno b.off := by
  obtain ⟨swp, hp, hhas, hblkno⟩ := h.transfers b hb
  obtain ⟨swp', hp', hgrows⟩ := hgrows b.swp swp hp
  exact ⟨swp', hp', hgrows.has hhas, hblkno.trans (hgrows.blkno hhas).symm⟩

theorem Sound.request (h : Sound s) (haligned : 4096 ∣ r.off) (hio : s.swapPagerIo r = some s') :
    Sound s' ∧ GrowsAll s.pagers s'.pagers := by
  obtain ⟨swp, swp', hp, hindex, hplaced, hhow, hpagers, hwaiting, htransfers, -⟩ :=
    System.swapPagerIo_cases hio
  have hgrows : swp.Grows swp' := by
    rcases hhow with ⟨rfl, -⟩ | ⟨loc, hzero, -, rfl⟩
    · exact Swpager.Grows.refl swp'
    · exact Swpager.grows_place loc hzero
  have hall : GrowsAll s.pagers s'.pagers := by
    rw [hpagers]
    exact growsAll_update hp hgrows
  have hpoip : swp'.swPoip = swp.swPoip := by
    rcases hhow with ⟨rfl, -⟩ | ⟨loc, -, -, rfl⟩
    · rfl
    · rfl
  refine ⟨⟨?_, ?_, ?_, fun q swq hq ↦ ?_⟩, hall⟩
  · rw [hpagers]
    rcases hhow with ⟨rfl, hmap⟩ | ⟨loc, -, halloc, rfl⟩
    · rw [hmap]
      exact h.mapped.update_same hp ⟨rfl, rfl, fun _ ↦ rfl⟩
    · exact h.mapped.place hp hindex halloc
  · rw [hwaiting]
    refine List.forall_mem_cons.2 ⟨⟨swp', ?_, haligned, ?_, hplaced⟩, fun q hq ↦ ?_⟩
    · rw [hpagers, update_self]
    · rw [hgrows.index, hgrows.swNblocks]
      exact hindex
    · exact h.waiting_of_growsAll hall hq
  · rw [htransfers]
    exact fun b hb ↦ h.transfers_of_growsAll hall hb
  · rw [htransfers]
    rw [hpagers] at hq
    rcases eq_or_ne q r.swp with rfl | hne
    · rw [update_self] at hq
      rw [← Option.some_inj.1 hq, hpoip]
      exact h.swPoip r.swp swp hp
    · rw [update_of_ne hne] at hq
      exact h.swPoip q swq hq

omit [DecidableEq M] in
theorem Sound.start {before after : List (Request P M S)} (h : Sound s)
    (hsplit : s.waiting = before ++ r :: after) (hio : s.startIo before after r = .ok s') :
    Sound s' ∧ GrowsAll s.pagers s'.pagers := by
  obtain ⟨swp, swp', hp, hsame, hgrows, -, hpoip, hpagers, hmap, hwaiting, htransfers, -⟩ :=
    System.startIo_cases hio
  have hall : GrowsAll s.pagers s'.pagers := by
    rw [hpagers]
    exact growsAll_update hp hgrows
  have hr : r ∈ s.waiting := hsplit ▸ List.mem_append_right before List.mem_cons_self
  have hrest : ∀ q ∈ before ++ after, q ∈ s.waiting := by
    intro q hq
    rw [hsplit]
    exact List.Sublist.mem hq ((List.sublist_cons_self r after).append_left before)
  refine ⟨⟨?_, ?_, ?_, fun q swq hq ↦ ?_⟩, hall⟩
  · rw [hpagers, hmap]
    exact h.mapped.update_same hp hsame
  · rw [hwaiting]
    exact fun q hq ↦ h.waiting_of_growsAll hall (hrest q hq)
  · rw [htransfers]
    refine List.forall_mem_cons.2 ⟨?_, fun b hb ↦ h.transfers_of_growsAll hall hb⟩
    obtain ⟨swq, hswq, hhas⟩ := h.waiting r hr
    obtain rfl := Option.some_inj.1 (hp.symm.trans hswq)
    refine ⟨swp', ?_, hgrows.has hhas, (hgrows.blkno hhas).symm⟩
    rw [hpagers]
    exact update_self ..
  · rw [htransfers, List.countP_cons]
    rw [hpagers] at hq
    rcases eq_or_ne q r.swp with rfl | hne
    · rw [update_self] at hq
      rw [← Option.some_inj.1 hq, hpoip, h.swPoip r.swp swp hp]
      simp
    · rw [update_of_ne hne] at hq
      rw [h.swPoip q swq hq]
      simp [hne.symm]

omit [DecidableEq M] in
theorem Sound.done {before after : List (Buf P M S)} {b : Buf P M S} (h : Sound s)
    (hsplit : s.transfers = before ++ b :: after) :
    Sound (s.iodone before after b) ∧ GrowsAll s.pagers (s.iodone before after b).pagers := by
  obtain ⟨swp, hp, -, -⟩ := h.transfers b (hsplit ▸ List.mem_append_right before List.mem_cons_self)
  set swp' := { swp with swPoip := swp.swPoip - (if b.op.async then 1 else 0) } with hswp'
  have hpagers : (s.iodone before after b).pagers = update s.pagers b.swp (some swp') := by
    rw [System.iodone, hp, hswp']
    by_cases hasync : b.op.async
    · rw [if_pos hasync, if_pos hasync]
      rfl
    · rw [if_neg hasync, if_neg hasync]
      change s.pagers = update s.pagers b.swp (some swp)
      rw [← hp, update_eq_self]
  have hall : GrowsAll s.pagers (s.iodone before after b).pagers := by
    rw [hpagers]
    exact growsAll_update hp ⟨rfl, rfl, fun _ _ ↦ rfl, fun _ _ hk ↦ hk⟩
  have hrest : ∀ c ∈ before ++ after, c ∈ s.transfers := by
    intro c hc
    rw [hsplit]
    exact List.Sublist.mem hc ((List.sublist_cons_self b after).append_left before)
  refine ⟨⟨?_, fun q hq ↦ h.waiting_of_growsAll hall hq,
    fun c hc ↦ h.transfers_of_growsAll hall (hrest c hc), fun q swq hq ↦ ?_⟩, hall⟩
  · rw [hpagers]
    exact h.mapped.update_same hp ⟨rfl, rfl, fun _ ↦ rfl⟩
  · rw [hpagers] at hq
    have hcount : ∀ f : Buf P M S → Bool, s.transfers.countP f =
        (before ++ after).countP f + (if f b then 1 else 0) := by
      intro f
      rw [hsplit, List.countP_append, List.countP_append, List.countP_cons, Nat.add_assoc]
    change _ = (before ++ after).countP _
    rcases eq_or_ne q b.swp with rfl | hne
    · rw [update_self] at hq
      have hold := h.swPoip b.swp swp hp
      rw [hcount] at hold
      rw [← Option.some_inj.1 hq, hswp', hold]
      simp
    · rw [update_of_ne hne] at hq
      rw [h.swPoip q swq hq, hcount]
      simp [hne.symm]

omit [DecidableEq M] in
/-- Nothing is under way for a pager that goes away. -/
theorem Sound.idle (h : Sound s) (hp : s.pagers p = some swp) (hpoip : swp.swPoip = 0)
    (hsync : ∀ b ∈ s.transfers, b.op.async = false → b.swp ≠ p) : ∀ b ∈ s.transfers, b.swp ≠ p := by
  intro b hb hbp
  have hcount := h.swPoip p swp hp
  rw [hpoip, eq_comm, List.countP_eq_zero] at hcount
  rcases hasync : b.op.async with _ | _
  · exact hsync b hb hasync hbp
  · exact hcount b hb (by simp [hasync, hbp])

omit [DecidableEq M] in
theorem Sound.dealloc {space : Bool} (h : Sound s) (hp : s.pagers p = some swp)
    (hwaiting : ∀ r ∈ s.waiting, r.swp ≠ p) (htransfers : ∀ b ∈ s.transfers, b.swp ≠ p)
    (hdealloc : s.swapPagerDealloc space p swp = .ok s') :
    Sound s' ∧ s'.pagers = update s.pagers p none ∧ s'.waiting = s.waiting ∧
      s'.transfers = s.transfers ∧ s'.disk = s.disk := by
  rw [System.swapPagerDealloc] at hdealloc
  rcases hfree : System.freeBlocks space swp (List.range swp.swNblocks) s.swapmap with
    fault | swapmap
  · simp only [hfree] at hdealloc
    exact absurd hdealloc (by simp)
  · simp only [hfree] at hdealloc
    obtain rfl := Except.ok.inj hdealloc
    refine ⟨⟨h.mapped.dealloc hp hfree, fun r hr ↦ ?_, fun b hb ↦ ?_, fun q swq hq ↦ ?_⟩, rfl, rfl,
      rfl, rfl⟩
    · obtain ⟨swq, hq, hhas⟩ := h.waiting r hr
      exact ⟨swq, (update_of_ne (hwaiting r hr) ..).trans hq, hhas⟩
    · obtain ⟨swq, hq, hhas⟩ := h.transfers b hb
      exact ⟨swq, (update_of_ne (htransfers b hb) ..).trans hq, hhas⟩
    · rcases eq_or_ne q p with rfl | hne
      · exact absurd ((update_self q none s.pagers).symm.trans hq).symm (Option.some_ne_none swq)
      · exact h.swPoip q swq ((update_of_ne hne ..).symm.trans hq)

omit [DecidableEq M] in
theorem Sound.alloc (h : Sound s) (hp : s.pagers p = none) (size : ℕ) :
    Sound { s with pagers := update s.pagers p (some (swapPagerAlloc size)) } ∧
      GrowsAll s.pagers (update s.pagers p (some (swapPagerAlloc size))) := by
  have hall : GrowsAll s.pagers (update s.pagers p (some (swapPagerAlloc size))) := by
    intro q swq hq
    have hne : q ≠ p := by
      rintro rfl
      exact absurd (hp.symm.trans hq).symm (Option.some_ne_none swq)
    exact ⟨swq, (update_of_ne hne ..).trans hq, Swpager.Grows.refl swq⟩
  refine ⟨⟨h.mapped.alloc hp size, fun r hr ↦ h.waiting_of_growsAll hall hr,
    fun b hb ↦ h.transfers_of_growsAll hall hb, fun q swq hq ↦ ?_⟩, hall⟩
  rcases eq_or_ne q p with rfl | hne
  · obtain rfl := Option.some_inj.1 ((update_self q _ s.pagers).symm.trans hq)
    refine (List.countP_eq_zero.2 fun b hb ↦ ?_).symm
    obtain ⟨swb, hb', -⟩ := h.transfers b hb
    have hne : b.swp ≠ q := by
      rintro rfl
      exact absurd (hp.symm.trans hb').symm (Option.some_ne_none swb)
    simp [hne]
  · exact h.swPoip q swq ((update_of_ne hne ..).symm.trans hq)

end Bsd386.Kern.Vm.SwapPager
