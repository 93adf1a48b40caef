import Bsd386.Kern.Vm.SwapPager.Transfers

/-!
# Reading back what was written

A run of the swap pagers is recorded as the list of what has happened, latest first. A page that has
been written can be read back as long as the mask tells that it is there. An asynchronous write
enters its page into the mask when it is started, but a synchronous write does not, so that a page
that is written synchronously for the first time is lost.
-/

namespace Bsd386.Kern.Vm.SwapPager

open Function Kern.Subr

variable {P M S : Type} [DecidableEq P] [DecidableEq M]

/-- The data of a write. -/
def Op.data : Op S → Option (Page S)
  | .read => none
  | .write _ data => some data

/-- The data of the page at an offset that was written last since the pager was made. -/
def lastPut : List (Event P M S) → P → ℕ → Option (Page S)
  | [], _, _ => none
  | .done r :: past, p, off =>
    if r.swp = p ∧ r.off = off then r.op.data.or (lastPut past p off) else lastPut past p off
  | .alloc q :: past, p, off => if q = p then none else lastPut past p off
  | .dealloc q :: past, p, off => if q = p then none else lastPut past p off
  | _ :: past, p, off => lastPut past p off

/-- A write of the page at an offset is under way. -/
def Writing (s : System P M S) (p : P) (off : ℕ) : Prop :=
  (∃ r ∈ s.waiting, r.swp = p ∧ r.off = off ∧ r.op.data ≠ none) ∨
    ∃ b ∈ s.transfers, b.swp = p ∧ b.off = off ∧ b.op.data ≠ none

/-- A page that has been written is there, and is read back as it was written last unless another
write of it is under way. No two pages share a disk block. -/
structure Kept (past : List (Event P M S)) (s : System P M S) : Prop where
  haspage : ∀ p off data, lastPut past p off = some data →
    ∃ swp, s.pagers p = some swp ∧ swapPagerHaspage swp off = true
  getpage : ∀ p off data, lastPut past p off = some data → ∀ m,
    s.swapPagerIo ⟨p, m, off, .read⟩ ≠ none
  contents : ∀ p off data, lastPut past p off = some data → ¬ Writing s p off →
    ∀ b ∈ s.transfers, b.swp = p → b.off = off → System.readPage s.disk b.bBlkno = data
  apart : ∀ p swp off q swq o, s.pagers p = some swp → swp.Has off → s.pagers q = some swq →
    swq.Has o → (p, off) ≠ (q, o) → Disjoint (Set.Ico (swp.blkno off) (swp.blkno off + 8))
      (Set.Ico (swq.blkno o) (swq.blkno o + 8))

/-- A page is written synchronously only when the mask has it already. -/
def SyncMarked (s : System P M S) : Event P M S → Prop
  | .request r => r.op.async = false → r.op.data ≠ none →
    ∃ swp, s.pagers r.swp = some swp ∧ swapPagerHaspage swp r.off = true
  | _ => True

variable {s s' : System P M S} {past : List (Event P M S)} {p : P} {r : Request P M S}
  {swp swp' : Swpager} {off : ℕ}

/-! ## What is remembered -/

/-- The pages that were written are marked, and so are those that will be written when the transfer
is done. A page that is not being written is on the disk as it was written last. -/
structure Recorded (past : List (Event P M S)) (s : System P M S) : Prop where
  sound : Sound s
  marked : ∀ p off data, lastPut past p off = some data →
    ∃ swp, s.pagers p = some swp ∧ swp.Has off ∧ swp.Marked off
  waiting : ∀ r ∈ s.waiting, r.op.async = false → r.op.data ≠ none →
    ∃ swp, s.pagers r.swp = some swp ∧ swp.Marked r.off
  transfers : ∀ b ∈ s.transfers, b.op.data ≠ none →
    ∃ swp, s.pagers b.swp = some swp ∧ swp.Marked b.off
  stored : ∀ p off data, lastPut past p off = some data → ¬ Writing s p off →
    ∀ swp, s.pagers p = some swp → System.readPage s.disk (swp.blkno off) = data

namespace Recorded

omit [DecidableEq M] in
/-- When pagers only grow and the same pages are written last, what is marked stays marked. -/
theorem marked_of_growsAll {past' : List (Event P M S)} {pagers : P → Option Swpager}
    (h : Recorded past s) (hall : GrowsAll s.pagers pagers)
    (hlast : ∀ p off data, lastPut past' p off = some data → lastPut past p off = some data) :
    ∀ p off data, lastPut past' p off = some data →
      ∃ swp, pagers p = some swp ∧ swp.Has off ∧ swp.Marked off := by
  intro p off data hdata
  obtain ⟨swp, hp, hhas, hmarked⟩ := h.marked p off data (hlast p off data hdata)
  obtain ⟨swp', hp', hgrows⟩ := hall p swp hp
  exact ⟨swp', hp', hgrows.has hhas, hgrows.marked hmarked⟩

omit [DecidableEq M] in
/-- The places of pages that were written do not change when pagers grow. -/
theorem stored_of_growsAll {past' : List (Event P M S)} (h : Recorded past s)
    (hall : GrowsAll s.pagers s'.pagers) (hdisk : s'.disk = s.disk)
    (hlast : ∀ p off data, lastPut past' p off = some data → lastPut past p off = some data)
    (hwriting : ∀ p off, Writing s p off → Writing s' p off) :
    ∀ p off data, lastPut past' p off = some data → ¬ Writing s' p off →
      ∀ swp, s'.pagers p = some swp → System.readPage s'.disk (swp.blkno off) = data := by
  intro p off data hdata hidle swp' hp'
  have hdata := hlast p off data hdata
  obtain ⟨swp, hp, hhas, -⟩ := h.marked p off data hdata
  obtain ⟨swq, hq, hgrows⟩ := hall p swp hp
  obtain rfl := Option.some_inj.1 (hp'.symm.trans hq)
  rw [hdisk, hgrows.blkno hhas]
  exact h.stored p off data hdata (fun hw ↦ hidle (hwriting p off hw)) swp hp

omit [DecidableEq M] in
theorem mem_of_split {α : Type} {l before after : List α} {a b : α} (h : l = before ++ a :: after)
    (hb : b ∈ l) : b = a ∨ b ∈ before ++ after := by
  rw [h, List.mem_append, List.mem_cons] at hb
  rw [List.mem_append]
  tauto

theorem request (h : Recorded past s) (haligned : 4096 ∣ r.off)
    (hcond : SyncMarked s (.request r)) (hio : s.swapPagerIo r = some s') :
    Recorded (.request r :: past) s' := by
  obtain ⟨hsound, hall⟩ := h.sound.request haligned hio
  obtain ⟨swp, swp', hp, -, -, -, hpagers, hwaiting, htransfers, hdisk⟩ :=
    System.swapPagerIo_cases hio
  refine ⟨hsound, h.marked_of_growsAll hall fun _ _ _ hdata ↦ hdata, ?_, ?_,
    h.stored_of_growsAll hall hdisk (fun _ _ _ hdata ↦ hdata) ?_⟩
  · rw [hwaiting]
    refine List.forall_mem_cons.2 ⟨fun hsync hdata ↦ ?_, fun q hq hsync hdata ↦ ?_⟩
    · obtain ⟨swq, hq, hhaspage⟩ := hcond hsync hdata
      obtain ⟨swq', hq', hgrows⟩ := hall r.swp swq hq
      exact ⟨swq', hq', hgrows.marked (Swpager.marked_of_haspage hhaspage)⟩
    · obtain ⟨swq, hpq, hmarked⟩ := h.waiting q hq hsync hdata
      obtain ⟨swq', hq', hgrows⟩ := hall q.swp swq hpq
      exact ⟨swq', hq', hgrows.marked hmarked⟩
  · rw [htransfers]
    intro b hb hdata
    obtain ⟨swq, hpq, hmarked⟩ := h.transfers b hb hdata
    obtain ⟨swq', hq', hgrows⟩ := hall b.swp swq hpq
    exact ⟨swq', hq', hgrows.marked hmarked⟩
  · rintro p off (⟨q, hq, hwrite⟩ | ⟨b, hb, hwrite⟩)
    · exact Or.inl ⟨q, hwaiting ▸ List.mem_cons_of_mem r hq, hwrite⟩
    · exact Or.inr ⟨b, htransfers ▸ hb, hwrite⟩

omit [DecidableEq M] in
theorem start {before after : List (Request P M S)} (h : Recorded past s)
    (hsplit : s.waiting = before ++ r :: after) (hio : s.startIo before after r = .ok s') :
    Recorded (.start r :: past) s' := by
  obtain ⟨hsound, hall⟩ := h.sound.start hsplit hio
  obtain ⟨swp, swp', hp, -, -, hasync, -, hpagers, -, hwaiting, htransfers, hdisk⟩ :=
    System.startIo_cases hio
  refine ⟨hsound, h.marked_of_growsAll hall fun _ _ _ hdata ↦ hdata, ?_, ?_,
    h.stored_of_growsAll hall hdisk (fun _ _ _ hdata ↦ hdata) ?_⟩
  · rw [hwaiting]
    intro q hq hsync hdata
    have hmem : q ∈ s.waiting := by
      rw [hsplit]
      exact List.Sublist.mem hq ((List.sublist_cons_self r after).append_left before)
    obtain ⟨swq, hpq, hmarked⟩ := h.waiting q hmem hsync hdata
    obtain ⟨swq', hq', hgrows⟩ := hall q.swp swq hpq
    exact ⟨swq', hq', hgrows.marked hmarked⟩
  · rw [htransfers]
    refine List.forall_mem_cons.2 ⟨fun hdata ↦ ?_, fun b hb hdata ↦ ?_⟩
    · rcases hflag : r.op.async with _ | _
      · have hr : r ∈ s.waiting := hsplit ▸ List.mem_append_right before List.mem_cons_self
        obtain ⟨swq, hpq, hmarked⟩ := h.waiting r hr hflag hdata
        obtain ⟨swq', hq', hgrows⟩ := hall r.swp swq hpq
        exact ⟨swq', hq', hgrows.marked hmarked⟩
      · exact ⟨swp', by rw [hpagers, update_self], hasync hflag⟩
    · obtain ⟨swq, hpq, hmarked⟩ := h.transfers b hb hdata
      obtain ⟨swq', hq', hgrows⟩ := hall b.swp swq hpq
      exact ⟨swq', hq', hgrows.marked hmarked⟩
  · rintro p off (⟨q, hq, hwrite⟩ | ⟨b, hb, hwrite⟩)
    · rcases mem_of_split hsplit hq with rfl | hq
      · exact Or.inr ⟨_, htransfers ▸ List.mem_cons_self, hwrite⟩
      · exact Or.inl ⟨q, hwaiting ▸ hq, hwrite⟩
    · exact Or.inr ⟨b, htransfers ▸ List.mem_cons_of_mem _ hb, hwrite⟩

omit [DecidableEq M] in
theorem done {before after : List (Buf P M S)} {b : Buf P M S} (h : Recorded past s)
    (hsplit : s.transfers = before ++ b :: after) :
    Recorded (.done b.toRequest :: past) (s.iodone before after b) := by
  obtain ⟨hsound, hall⟩ := h.sound.done hsplit
  have hb : b ∈ s.transfers := hsplit ▸ List.mem_append_right before List.mem_cons_self
  have hrest : ∀ c ∈ before ++ after, c ∈ s.transfers := by
    intro c hc
    rw [hsplit]
    exact List.Sublist.mem hc ((List.sublist_cons_self b after).append_left before)
  obtain ⟨swb, hpb, hhasb, hblkno⟩ := h.sound.transfers b hb
  -- What was written last is what this transfer wrote, or what was written last before
  have hlast : ∀ p off data, lastPut (.done b.toRequest :: past) p off = some data →
      b.swp = p ∧ b.off = off ∧ b.op.data = some data ∨
        lastPut past p off = some data ∧ (b.swp = p → b.off = off → b.op.data = none) := by
    intro p off data hdata
    change (if b.swp = p ∧ b.off = off then b.op.data.or (lastPut past p off)
      else lastPut past p off) = some data at hdata
    by_cases hsame : b.swp = p ∧ b.off = off
    · rw [if_pos hsame] at hdata
      rcases hop : b.op.data with _ | written
      · rw [hop, Option.none_or] at hdata
        exact Or.inr ⟨hdata, fun _ _ ↦ rfl⟩
      · rw [hop, Option.some_or] at hdata
        exact Or.inl ⟨hsame.1, hsame.2, hdata⟩
    · rw [if_neg hsame] at hdata
      exact Or.inr ⟨hdata, fun hp hoff ↦ absurd ⟨hp, hoff⟩ hsame⟩
  refine ⟨hsound, fun p off data hdata ↦ ?_, fun q hq hsync hdata ↦ ?_, fun c hc hdata ↦ ?_,
    fun p off data hdata hidle swp' hp' ↦ ?_⟩
  · rcases hlast p off data hdata with ⟨rfl, rfl, hop⟩ | ⟨hold, -⟩
    · have hne : b.op.data ≠ none := hop ▸ Option.some_ne_none data
      obtain ⟨swp, hp, hmarked⟩ := h.transfers b hb hne
      obtain rfl := Option.some_inj.1 (hpb.symm.trans hp)
      obtain ⟨swp', hp', hgrows⟩ := hall b.swp swb hpb
      exact ⟨swp', hp', hgrows.has hhasb, hgrows.marked hmarked⟩
    · obtain ⟨swp, hp, hhas, hmarked⟩ := h.marked p off data hold
      obtain ⟨swp', hp', hgrows⟩ := hall p swp hp
      exact ⟨swp', hp', hgrows.has hhas, hgrows.marked hmarked⟩
  · obtain ⟨swp, hp, hmarked⟩ := h.waiting q hq hsync hdata
    obtain ⟨swp', hp', hgrows⟩ := hall q.swp swp hp
    exact ⟨swp', hp', hgrows.marked hmarked⟩
  · obtain ⟨swp, hp, hmarked⟩ := h.transfers c (hrest c hc) hdata
    obtain ⟨swp', hp', hgrows⟩ := hall c.swp swp hp
    exact ⟨swp', hp', hgrows.marked hmarked⟩
  · rcases hlast p off data hdata with ⟨rfl, rfl, hop⟩ | ⟨hold, hother⟩
    · obtain ⟨swp, hp, hgrows⟩ := hall b.swp swb hpb
      obtain rfl := Option.some_inj.1 (hp'.symm.trans hp)
      rw [hgrows.blkno hhasb, ← hblkno]
      rcases hwrite : b.op with _ | ⟨async, written⟩
      · rw [hwrite] at hop
        exact absurd hop.symm (Option.some_ne_none data)
      · rw [hwrite] at hop
        obtain rfl := Option.some_inj.1 hop
        simp only [System.iodone, hwrite]
        exact System.readPage_writePage s.disk b.bBlkno written
    · obtain ⟨swp, hp, hhas, -⟩ := h.marked p off data hold
      obtain ⟨swq, hq, hgrows⟩ := hall p swp hp
      obtain rfl := Option.some_inj.1 (hp'.symm.trans hq)
      have hwas : ¬ Writing s p off := by
        rintro (⟨q, hq, hwrite⟩ | ⟨c, hc, hwrite⟩)
        · exact hidle (Or.inl ⟨q, hq, hwrite⟩)
        · rcases mem_of_split hsplit hc with rfl | hc
          · exact hwrite.2.2 (hother hwrite.1 hwrite.2.1)
          · exact hidle (Or.inr ⟨c, hc, hwrite⟩)
      have hstored := h.stored p off data hold hwas swp hp
      rw [hgrows.blkno hhas]
      rcases hwrite : b.op with _ | ⟨async, written⟩
      · simp only [System.iodone, hwrite]
        exact hstored
      · simp only [System.iodone, hwrite]
        have hne : (p, off) ≠ (b.swp, b.off) := by
          intro heq
          obtain ⟨rfl, rfl⟩ := Prod.mk.inj heq
          have hnone := hother rfl rfl
          rw [hwrite] at hnone
          exact Option.some_ne_none written hnone
        have hapart := h.sound.mapped.disjoint_pages hp hpb hhas hhasb hne
        rw [← hblkno] at hapart
        rw [System.readPage_writePage_of_disjoint s.disk written hapart]
        exact hstored

omit [DecidableEq M] in
theorem alloc (h : Recorded past s) (hp : s.pagers p = none) (size : ℕ) :
    Recorded (.alloc p :: past)
      { s with pagers := update s.pagers p (some (swapPagerAlloc size)) } := by
  obtain ⟨hsound, hall⟩ := h.sound.alloc hp size
  have hlast : ∀ q off data, lastPut (.alloc p :: past) q off = some data →
      lastPut past q off = some data := by
    intro q off data hdata
    change (if p = q then none else lastPut past q off) = some data at hdata
    by_cases hpq : p = q
    · rw [if_pos hpq] at hdata
      exact absurd hdata.symm (Option.some_ne_none data)
    · rwa [if_neg hpq] at hdata
  refine ⟨hsound, h.marked_of_growsAll hall hlast, fun q hq hsync hdata ↦ ?_,
    fun b hb hdata ↦ ?_, h.stored_of_growsAll hall rfl hlast fun _ _ hw ↦ hw⟩
  · obtain ⟨swp, hp, hmarked⟩ := h.waiting q hq hsync hdata
    obtain ⟨swp', hp', hgrows⟩ := hall q.swp swp hp
    exact ⟨swp', hp', hgrows.marked hmarked⟩
  · obtain ⟨swp, hp, hmarked⟩ := h.transfers b hb hdata
    obtain ⟨swp', hp', hgrows⟩ := hall b.swp swp hp
    exact ⟨swp', hp', hgrows.marked hmarked⟩

omit [DecidableEq M] in
theorem dealloc {space : Bool} (h : Recorded past s) (hp : s.pagers p = some swp)
    (hpoip : swp.swPoip = 0) (hwaiting : ∀ r ∈ s.waiting, r.swp ≠ p)
    (hsync : ∀ b ∈ s.transfers, b.op.async = false → b.swp ≠ p)
    (hdealloc : s.swapPagerDealloc space p swp = .ok s') : Recorded (.dealloc p :: past) s' := by
  have htransfers := h.sound.idle hp hpoip hsync
  obtain ⟨hsound, hpagers, hwait, htrans, hdisk⟩ := h.sound.dealloc hp hwaiting htransfers hdealloc
  have hlast : ∀ q off data, lastPut (.dealloc p :: past) q off = some data →
      q ≠ p ∧ lastPut past q off = some data := by
    intro q off data hdata
    change (if p = q then none else lastPut past q off) = some data at hdata
    by_cases hpq : p = q
    · rw [if_pos hpq] at hdata
      exact absurd hdata.symm (Option.some_ne_none data)
    · rw [if_neg hpq] at hdata
      exact ⟨fun heq ↦ hpq heq.symm, hdata⟩
  have hkeep : ∀ q, q ≠ p → s'.pagers q = s.pagers q := by
    intro q hq
    rw [hpagers, update_of_ne hq]
  refine ⟨hsound, fun q off data hdata ↦ ?_, fun q hq ↦ ?_, fun b hb ↦ ?_,
    fun q off data hdata hidle swq hq ↦ ?_⟩
  · obtain ⟨hne, hold⟩ := hlast q off data hdata
    rw [hkeep q hne]
    exact h.marked q off data hold
  · rw [hwait] at hq
    rw [hkeep q.swp (hwaiting q hq)]
    exact h.waiting q hq
  · rw [htrans] at hb
    rw [hkeep b.swp (htransfers b hb)]
    exact h.transfers b hb
  · obtain ⟨hne, hold⟩ := hlast q off data hdata
    rw [hkeep q hne] at hq
    rw [hdisk]
    refine h.stored q off data hold (fun hw ↦ hidle ?_) swq hq
    rwa [Writing, hwait, htrans]

end Recorded

/-! ## What was written can be read back -/

theorem Recorded.step {e : Event P M S} (h : Recorded past s) (hcond : SyncMarked s e)
    (hstep : Step s e s') : Recorded (e :: past) s' := by
  cases hstep with
  | alloc size hp => exact h.alloc hp size
  | request haligned hio => exact h.request haligned hcond hio
  | fail _ => exact ⟨h.sound, h.marked, h.waiting, h.transfers, h.stored⟩
  | start hsplit hio => exact h.start hsplit hio
  | done hsplit => exact h.done hsplit
  | dealloc space hp hpoip hwaiting hsync hdealloc =>
    exact h.dealloc hp hpoip hwaiting hsync hdealloc

theorem Run.recorded (hrun : Run SyncMarked past s) : Recorded past s := by
  induction hrun with
  | init swapmap disk hwf =>
    have hnone : ∀ k, extentAt (fun _ : P ↦ (none : Option Swpager)) k = ∅ :=
      fun k ↦ extentAt_of_none rfl k.2
    refine ⟨⟨⟨hwf, ?_, ?_, ?_, ?_⟩, ?_, ?_, ?_⟩, ?_, ?_, ?_, ?_⟩
    · exact fun _ swp h ↦ absurd h.symm (Option.some_ne_none swp)
    · exact fun k x hx ↦ absurd (hnone k ▸ hx) (Set.notMem_empty x)
    · exact fun k ↦ hnone k ▸ Set.empty_disjoint _
    · exact fun k _ _ ↦ hnone k ▸ Set.empty_disjoint _
    · exact fun _ h ↦ absurd h List.not_mem_nil
    · exact fun _ h ↦ absurd h List.not_mem_nil
    · exact fun _ swp h ↦ absurd h.symm (Option.some_ne_none swp)
    · exact fun _ _ data h ↦ absurd h.symm (Option.some_ne_none data)
    · exact fun _ h ↦ absurd h List.not_mem_nil
    · exact fun _ h ↦ absurd h List.not_mem_nil
    · exact fun _ _ data h ↦ absurd h.symm (Option.some_ne_none data)
  | step _ hcond hstep ih => exact ih.step hcond hstep

/-- A page that is there can be read. -/
theorem Recorded.getpage {data : Page S} (h : Recorded past s)
    (hdata : lastPut past p off = some data) (m : M) :
    s.swapPagerIo ⟨p, m, off, .read⟩ ≠ none := by
  obtain ⟨swp, hp, hhas, hmarked⟩ := h.marked p off data hdata
  have hsized := h.sound.mapped.sized p swp hp
  obtain ⟨-, hle, hwithin⟩ := hhas.within_add_le hsized
  have hmask := hsized.le_mask
  have hpage : ¬ 32 ≤ atop (swp.within off) := by
    unfold atop
    omega
  have hin : ¬ (swp.swNblocks ≤ swp.index off ∨ 32 ≤ atop (swp.within off)) :=
    not_or.2 ⟨not_le.2 hhas.index_lt, hpage⟩
  have hvalid : ¬ ((swp.swb off).swbBlock = 0 ∨
      (swp.swb off).swbMask.testBit (atop (swp.within off)) = false) :=
    not_or.2 ⟨hhas.placed, by rw [hmarked]; decide⟩
  have hsync : ¬ ((Op.read : Op S).async ∧ (s.swapPagerClean m ∨ s.noClean)) :=
    fun hboth ↦ Bool.false_ne_true hboth.1
  rw [System.swapPagerIo]
  simp only [hp, if_neg hsync, if_neg hin, if_neg hvalid]
  exact Option.some_ne_none _

/-- When a page is written synchronously only after the mask has it, what was written is there and
can be read back, and no two pages share a disk block. -/
theorem swap_round_trip (hrun : Run SyncMarked past s) : Kept past s := by
  have h := hrun.recorded
  refine ⟨fun p off data hdata ↦ ?_, fun p off data hdata m ↦ h.getpage hdata m,
    fun p off data hdata hidle b hb hbp hoff ↦ ?_, fun p swp off q swq o hp hoff hq ho hne ↦ ?_⟩
  · obtain ⟨swp, hp, hhas, hmarked⟩ := h.marked p off data hdata
    exact ⟨swp, hp, hhas.haspage.trans hmarked⟩
  · obtain ⟨swp, hp, hhas, hblkno⟩ := h.sound.transfers b hb
    subst hbp hoff
    rw [hblkno]
    exact h.stored b.swp b.off data hdata hidle swp hp
  · exact h.sound.mapped.disjoint_pages hp hq hoff ho hne

section Example

/-- A swap device of 64 disk blocks. -/
def device : System Unit Unit Bool := ⟨[⟨0, 63⟩], fun _ ↦ none, [], [], fun _ ↦ false⟩

/-- It has a pager for an object of one page. -/
def ready : System Unit Unit Bool :=
  { device with pagers := update device.pagers () (some (swapPagerAlloc 4096)) }

/-- The page is to be written. -/
def put (async : Bool) : Request Unit Unit Bool := ⟨(), (), 0, .write async fun _ ↦ true⟩

/-- The write has been taken up. -/
def taken (async : Bool) : System Unit Unit Bool :=
  { ready with
    swapmap := [⟨8, 63⟩]
    pagers := update ready.pagers () (some ((swapPagerAlloc 4096).place 0 0))
    waiting := [put async] }

/-- The pager while the page is in transfer. -/
def busy (async : Bool) : Swpager :=
  if async then { ((swapPagerAlloc 4096).place 0 0).record 0 with swPoip := 1 }
  else (swapPagerAlloc 4096).place 0 0

/-- The page is in transfer. -/
def moving (async : Bool) : System Unit Unit Bool :=
  { taken async with
    pagers := update (taken async).pagers () (some (busy async))
    waiting := []
    transfers := [{ put async with bBlkno := 0 }] }

/-- The page is written. -/
def written (async : Bool) : System Unit Unit Bool :=
  (moving async).iodone [] [] { put async with bBlkno := 0 }

theorem run_put {cond : System Unit Unit Bool → Event Unit Unit Bool → Prop} (async : Bool)
    (hother : ∀ s e, (∀ r, e ≠ .request r) → cond s e) (hcond : cond ready (.request (put async))) :
    Run cond [.done (put async), .start (put async), .request (put async), .alloc ()]
      (written async) := by
  have hwf : Wellformed [⟨0, 63⟩] :=
    wellformed_cons.2 ⟨by decide, by decide, fun _ ht ↦ absurd ht List.not_mem_nil, wellformed_nil⟩
  have hinit : Run cond [] device := Run.init _ _ hwf
  have halloc : Step device (.alloc ()) ready := .alloc 4096 rfl
  have hrequest : Step ready (.request (put async)) (taken async) := by
    refine .request (Nat.dvd_zero 4096) ?_
    cases async with
    | false => rfl
    | true => rfl
  have hstart : Step (taken async) (.start (put async)) (moving async) := by
    have hsplit : (taken async).waiting = [] ++ put async :: [] := rfl
    refine .start hsplit ?_
    cases async with
    | false =>
      have hsame : update (taken false).pagers () (some (busy false)) = (taken false).pagers := by
        funext _
        rfl
      rw [moving, hsame]
      rfl
    | true => rfl
  have hdone : Step (moving async) (.done (put async)) (written async) := by
    have hsplit : (moving async).transfers = [] ++ { put async with bBlkno := 0 } :: [] := rfl
    exact .done hsplit
  have h₁ := hinit.step (hother _ _ fun _ heq ↦ by cases heq) halloc
  have h₂ := h₁.step hcond hrequest
  have h₃ := h₂.step (hother _ _ fun _ heq ↦ by cases heq) hstart
  exact h₃.step (hother _ _ fun _ heq ↦ by cases heq) hdone

/-- A page is written synchronously when the mask does not have it yet. It is not there
afterwards. -/
theorem not_kept_of_sync :
    ∃ (past : List (Event Unit Unit Bool)) (s : System Unit Unit Bool),
      Run (fun _ _ ↦ True) past s ∧ ¬ Kept past s := by
  refine ⟨_, _, run_put false (fun _ _ _ ↦ trivial) trivial, fun hkept ↦ ?_⟩
  obtain ⟨swp, hp, hhas⟩ := hkept.haspage () 0 (fun _ ↦ true) rfl
  obtain rfl := Option.some_inj.1 hp
  exact absurd hhas (by decide)

omit [DecidableEq P] [DecidableEq M] in
theorem syncMarked_of_ne {s : System P M S} {e : Event P M S} (h : ∀ r, e ≠ .request r) :
    SyncMarked s e := by
  cases e with
  | request r => exact absurd rfl (h r)
  | alloc p => trivial
  | dealloc p => trivial
  | fail r => trivial
  | start r => trivial
  | done r => trivial

/-- The same page written asynchronously is there. -/
theorem swap_round_trip_async :
    ∃ swp, (written true).pagers () = some swp ∧ swapPagerHaspage swp 0 = true := by
  have hcond : SyncMarked ready (.request (put true)) := fun hsync ↦ absurd hsync.symm (by decide)
  have hrun : Run SyncMarked _ (written true) :=
    run_put true (fun _ _ h ↦ syncMarked_of_ne h) hcond
  have hkept := swap_round_trip hrun
  exact hkept.haspage () 0 (fun _ ↦ true) rfl

end Example

end Bsd386.Kern.Vm.SwapPager
