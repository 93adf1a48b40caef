import Bsd386.Lib.Machine
import Bsd386.Libc.Malloc.Blocks

/-!
# Blocks in use stay intact

In every run of the allocator the blocks in use are apart from each other and from all free blocks,
hold what was requested and keep their contents, as long as no `realloc` has to move a block for
which there is no room, and the break was aligned.
-/

namespace Bsd386.Libc.Malloc

open Machine

variable {h : Heap} {l : Ledger} {blocks : Set (ℕ × ℕ)} {lists : ℕ → List ℕ} {b cp n p : ℕ}
  {nbytes : BitVec 32} {env : Sbrk}

/-- The calls of the allocator, and a store of the program. -/
inductive Event
  | malloc (nbytes : BitVec 32) (env : Sbrk)
  | free (cp : ℕ)
  | realloc (cp : ℕ) (nbytes : BitVec 32) (env : Sbrk)
  | store (addr : ℕ) (c : BitVec 8)

/-- An event, with the pointer that it returns. -/
def step (h : Heap) : Event → ℕ × Heap
  | .malloc nbytes env => malloc env nbytes h
  | .free cp => (0, free cp h)
  | .realloc cp nbytes env => realloc env cp nbytes h
  | .store addr c => (0, { h with mem := h.mem.set addr c })

/-- The blocks in use behind an event. -/
def record (l : Ledger) (event : Event) (res : ℕ) : Ledger :=
  match event with
  | .malloc nbytes _ => if res = 0 then l else Function.update l res (some nbytes.toNat)
  | .free cp => Function.update l cp none
  | .realloc cp nbytes _ =>
    if res = 0 then l
    else Function.update (Function.update l cp none) res (some nbytes.toNat)
  | .store _ _ => l

/-- An event, with the blocks in use. -/
def watch (w : Heap × Ledger) (event : Event) : ℕ × Heap × Ledger :=
  let r := step w.1 event
  (r.1, r.2, record w.2 event r.1)

/-- An event names a block in use or the null pointer, and a store is to what was requested. -/
def Legal (w : Heap × Ledger) : Event → Prop
  | .malloc _ _ => True
  | .free cp => cp = 0 ∨ (w.2 cp).isSome
  | .realloc cp _ _ => cp = 0 ∨ (w.2 cp).isSome
  | .store addr _ => ∃ cp n, w.2 cp = some n ∧ cp ≤ addr ∧ addr < cp + n

/-! ## What is to hold -/

/-- The bucket of a block in use, as it is kept in front of it. -/
def Heap.bucketOf (h : Heap) (cp : ℕ) : ℕ := (h.mem (cp - overhead + 1)).toNat

/-- The blocks in use hold what was requested, and are apart from each other and from the blocks of
all lists. -/
structure Intact (h : Heap) (l : Ledger) : Prop where
  holds : ∀ cp n, l cp = some n → overhead < cp ∧ n + overhead ≤ bytes (h.bucketOf cp) ∧
    cp - overhead + bytes (h.bucketOf cp) ≤ h.brk
  apart : ∀ cp cp' n n', l cp = some n → l cp' = some n' → cp ≠ cp' →
    Separate (cp - overhead) (bytes (h.bucketOf cp)) (cp' - overhead) (bytes (h.bucketOf cp'))
  free : ∀ b, ∃ ps, Threaded 0 h.mem.word (h.nextf b) ps ∧ ∀ p ∈ ps, ∀ cp n, l cp = some n →
    Separate p (bytes b) (cp - overhead) (bytes (h.bucketOf cp))

/-- The first bytes of a block are those of a block before. -/
def Copied (m m' : Memory) (cp cp' n : ℕ) : Prop := ∀ i < n, m' (cp' + i) = m (cp + i)

/-- The contents of the blocks in use that an event does not name are kept, and of the one that it
moves the part that is requested. -/
def Preserved (w : Heap × Ledger) (event : Event) (res : ℕ) (m : Memory) : Prop :=
  match event with
  | .malloc _ _ => ∀ cp n, w.2 cp = some n → Copied w.1.mem m cp cp n
  | .free freed => ∀ cp n, w.2 cp = some n → cp ≠ freed → Copied w.1.mem m cp cp n
  | .realloc moved nbytes _ =>
    (∀ cp n, w.2 cp = some n → cp ≠ moved ∨ res = 0 → Copied w.1.mem m cp cp n) ∧
      ∀ n, w.2 moved = some n → res ≠ 0 → Copied w.1.mem m moved res (min n nbytes.toNat)
  | .store addr c => m = w.1.mem.set addr c

/-- What is to hold of an event. -/
def Right (w : Heap × Ledger) (event : Event) : Prop :=
  Intact (watch w event).2.1 (watch w event).2.2 ∧
    Preserved w event (watch w event).1 (watch w event).2.1.mem

/-! ## The condition -/

/-- There is a block for the request, or room for one. -/
def Granted (h : Heap) (env : Sbrk) (nbytes : BitVec 32) : Prop :=
  ∃ b, h.bucket nbytes = some b ∧ (h.nextf b ≠ 0 ∨ 0 < blockSize b ∧ env.more ∧
    h.brk + morecoreAmt h.pagesz (blockSize b).toNat < 2 ^ 32)

/-- The break is aligned when it has to be, and a block that has to be moved can be. -/
def Fine (w : Heap × Ledger) : Event → Prop
  | .malloc _ env => (setup env w.1).1
  | .free _ => True
  | .realloc cp nbytes env =>
    (cp = 0 → (setup env w.1).1) ∧
      (cp ≠ 0 → stays w.1.pagesz (w.1.bucketOf cp) nbytes ∨ Granted (free cp w.1) env nbytes)
  | .store _ _ => True

/-! ## The invariant implies what is to hold -/

theorem Used.bucketOf (hinv : Inv h l blocks lists) (hused : Used h blocks lists cp n b) :
    h.bucketOf cp = b := by
  have hlt := (hinv.block _ b hused.mem).2.2
  rw [Heap.bucketOf, hused.index, BitVec.toNat_ofNat]
  omega

theorem Inv.intact (hinv : Inv h l blocks lists) : Intact h l where
  holds cp n hcp := by
    obtain ⟨b, hb⟩ := hinv.used cp n hcp
    rw [hb.bucketOf hinv]
    exact ⟨hb.lt, hb.le, (hinv.block _ b hb.mem).2.1⟩
  apart cp cp' n n' hcp hcp' hne := by
    obtain ⟨b, hb⟩ := hinv.used cp n hcp
    obtain ⟨b', hb'⟩ := hinv.used cp' n' hcp'
    rw [hb.bucketOf hinv, hb'.bucketOf hinv]
    refine hinv.apart _ _ _ _ hb.mem hb'.mem fun heq ↦ hne ?_
    have hlt := hb.lt
    have hlt' := hb'.lt
    have hplace := (Prod.mk.inj heq).1
    omega
  free b := by
    refine ⟨lists b, hinv.threaded b, fun p hp cp n hcp ↦ ?_⟩
    obtain ⟨b', hb'⟩ := hinv.used cp n hcp
    rw [hb'.bucketOf hinv]
    refine hinv.apart _ _ _ _ (hinv.listed b p hp) hb'.mem fun heq ↦ hb'.notMem ?_
    rw [← (Prod.mk.inj heq).1, ← (Prod.mk.inj heq).2]
    exact hp

/-- The requested bytes of a block in use are data of a block. -/
theorem Inv.inData (hinv : Inv h l blocks lists) (hcp : l cp = some n) {i : ℕ} (hi : i < n) :
    InData blocks (cp + i) := by
  obtain ⟨b, hb⟩ := hinv.used cp n hcp
  have hlt := hb.lt
  have hle := hb.le
  exact ⟨cp - overhead, b, hb.mem, by omega, by omega⟩

theorem Inv.copied (hinv : Inv h l blocks lists) (hcp : l cp = some n) {m : Memory}
    (hm : ∀ x, InData blocks x → m x = h.mem x) : Copied h.mem m cp cp n :=
  fun _ hi ↦ hm _ (hinv.inData hcp hi)

theorem Inv.null (hinv : Inv h l blocks lists) : l 0 = none := by
  cases hnull : l 0 with
  | none => rfl
  | some n =>
    obtain ⟨b, hb⟩ := hinv.used 0 n hnull
    exact absurd hb.lt (Nat.not_lt_zero _)

theorem InData.mono {blocks' : Set (ℕ × ℕ)} {x : ℕ} (hx : InData blocks x)
    (hsub : blocks ⊆ blocks') : InData blocks' x := by
  obtain ⟨p, b, hp, hrange⟩ := hx
  exact ⟨p, b, hsub hp, hrange⟩

/-! ## `malloc` -/

/-- `malloc` puts a free block in use, or fails and changes no block. -/
theorem malloc_spec (hinv : Inv h l blocks lists) (hok : (setup env h).1) {r : ℕ × Heap}
    (hr : malloc env nbytes h = r) :
    (∃ blocks' lists', Inv r.2
        (if r.1 = 0 then l else Function.update l r.1 (some nbytes.toNat)) blocks' lists') ∧
      (r.1 ≠ 0 → l r.1 = none) ∧ (∀ x, InData blocks x → r.2.mem x = h.mem x) ∧
      (Granted (setup env h).2 env nbytes → r.1 ≠ 0) := by
  obtain ⟨hset, hpages, hpagebucket, hmem⟩ := setup_spec hinv hok
  rw [malloc] at hr
  generalize setup env h = s at *
  rw [if_pos hok] at hr
  rw [← hmem]
  cases hbucket : s.2.bucket nbytes with
  | none =>
    rw [hbucket] at hr
    subst hr
    refine ⟨⟨blocks, lists, hset⟩, fun hne ↦ absurd rfl hne, fun _ _ ↦ rfl, ?_⟩
    rintro ⟨b, hb, -⟩
    rw [hbucket] at hb
    cases hb
  | some b =>
    obtain ⟨hb, hfits⟩ := bucket_spec hpages hpagebucket hbucket
    rw [hbucket] at hr
    dsimp only [Option.elim] at hr
    by_cases hempty : s.2.nextf b = 0
    · rw [if_pos hempty] at hr
      have hnil : lists b = [] := (hempty ▸ hset.threaded b).eq_nil
      obtain ⟨blocks', lists', hmore, hsub, hdata, hgranted⟩ :=
        morecore_spec hset hpages hpagebucket hb hnil env.more
      by_cases hstill : (morecore env.more b s.2).nextf b = 0
      · rw [take, if_pos hstill] at hr
        subst hr
        refine ⟨⟨blocks', lists', hmore⟩, fun hne ↦ absurd rfl hne, hdata, ?_⟩
        rintro ⟨b', hb', hroom⟩
        rw [hbucket, Option.some_inj] at hb'
        rw [← hb'] at hroom
        rcases hroom with hlist | ⟨hpos, hok', hlt⟩
        · exact absurd hempty hlist
        · exact absurd hstill (hgranted hpos hok' hlt)
      · obtain ⟨hnone, hne, ⟨lists'', htake⟩, hdata'⟩ := take_spec hmore hstill hfits
        rw [hr] at hnone hne htake hdata'
        rw [if_neg hne]
        refine ⟨⟨blocks', lists'', htake⟩, fun _ ↦ hnone, fun x hx ↦ ?_, fun _ ↦ hne⟩
        exact (hdata' x (hx.mono hsub)).trans (hdata x hx)
    · rw [if_neg hempty] at hr
      obtain ⟨hnone, hne, ⟨lists', htake⟩, hdata⟩ := take_spec hset hempty hfits
      rw [hr] at hnone hne htake hdata
      rw [if_neg hne]
      exact ⟨⟨blocks, lists', htake⟩, fun _ ↦ hnone, hdata, fun _ ↦ hne⟩

/-! ## `realloc` -/

/-- The capacity of a block is what its overhead leaves of it. -/
theorem capacity_eq (hb : b < 28) : capacity getpagesize (b + 3) + overhead = bytes b := by
  have hmod : (b + 3) % 32 = b + 3 := Nat.mod_eq_of_lt (by omega)
  have hle := eight_le_pow b
  rw [capacity, bytes, hmod, overhead]
  split_ifs <;> omega

/-- The set up is done when a block is in use. -/
theorem Inv.pagesz_eq (hinv : Inv h l blocks lists) (hcp : l cp = some n) :
    h.pagesz = getpagesize := by
  obtain ⟨b, hb⟩ := hinv.used cp n hcp
  rcases hinv.pages with ⟨-, hempty⟩ | ⟨hpages, -⟩
  · exact absurd (hempty ▸ hb.mem) (Set.notMem_empty _)
  · exact hpages

/-- A block in use is requested again. -/
theorem Inv.resize (hinv : Inv h l blocks lists) (hcp : l cp = some n) {n' : ℕ}
    (hn : n' + overhead ≤ bytes (h.bucketOf cp)) :
    Inv h (Function.update l cp (some n')) blocks lists where
  pages := hinv.pages
  brk_pos := hinv.brk_pos
  brk_lt := hinv.brk_lt
  fresh := hinv.fresh
  block := hinv.block
  apart := hinv.apart
  threaded := hinv.threaded
  listed := hinv.listed
  used cp' m hcp' := by
    by_cases heq : cp' = cp
    · rw [heq, Function.update_self, Option.some_inj] at hcp'
      obtain ⟨b, hb⟩ := hinv.used cp n hcp
      rw [hb.bucketOf hinv] at hn
      rw [heq, ← hcp']
      exact ⟨b, hb.lt, hb.mem, hb.magic, hb.index, hn, hb.notMem⟩
    · rw [Function.update_of_ne heq] at hcp'
      exact hinv.used cp' m hcp'

theorem free_pagesz (cp : ℕ) (h : Heap) : (free cp h).pagesz = h.pagesz := by
  rw [free]
  dsimp only
  split_ifs <;> rfl

/-- A block is moved to another one. -/
theorem moveBlock_spec (hinv : Inv h l blocks lists) (hcp : l cp = some n)
    (hgranted : Granted (free cp h) env nbytes) {onb : ℕ} (honb : n ≤ onb) {r : ℕ × Heap}
    (hr : moveBlock env cp nbytes onb (free cp h) = r) :
    r.1 ≠ 0 ∧
      (∃ blocks' lists', Inv r.2
        (Function.update (Function.update l cp none) r.1 (some nbytes.toNat)) blocks' lists') ∧
      (∀ cp' n', l cp' = some n' → cp' ≠ cp → Copied h.mem r.2.mem cp' cp' n') ∧
      Copied h.mem r.2.mem cp r.1 (min n nbytes.toNat) := by
  obtain ⟨⟨lists', hfree⟩, hdata⟩ := free_spec hinv hcp
  have hpages : (free cp h).pagesz ≠ 0 := by
    rw [free_pagesz, hinv.pagesz_eq hcp]
    decide
  have hset : setup env (free cp h) = (true, free cp h) := by rw [setup, if_pos hpages]
  rw [moveBlock] at hr
  obtain ⟨q, hq⟩ : ∃ q, malloc env nbytes (free cp h) = q := ⟨_, rfl⟩
  obtain ⟨⟨blocks', lists'', hmalloc⟩, hnone, hdata', hne⟩ :=
    malloc_spec hfree (congrArg Prod.fst hset) hq
  rw [hset] at hne
  replace hne := hne hgranted
  have hunused := hnone hne
  rw [if_neg hne] at hmalloc
  rw [hq, if_neg hne] at hr
  have hkept (cp' n' : ℕ) (hcp' : l cp' = some n') : Copied h.mem q.2.mem cp' cp' n' :=
    hinv.copied hcp' fun x hx ↦ (hdata' x hx).trans (hdata x hx)
  by_cases hsame : cp = q.1
  · rw [if_neg (not_not_intro hsame)] at hr
    rw [← hr]
    refine ⟨hne, ⟨blocks', lists'', hmalloc⟩, fun cp' n' hcp' _ ↦ hkept cp' n' hcp', ?_⟩
    rw [← hsame]
    exact fun i hi ↦ hkept cp n hcp i (by omega)
  · rw [if_pos hsame] at hr
    rw [← hr]
    have hres : Function.update (Function.update l cp none) q.1 (some nbytes.toNat) q.1 =
        some nbytes.toNat := Function.update_self _ _ _
    refine ⟨hne, ⟨blocks', lists'', hmalloc.write hres fun x hx ↦ ?_⟩, fun cp' n' hcp' hother ↦ ?_,
      fun i hi ↦ ?_⟩
    · exact Memory.copy_of_outside (by omega)
    · have hcp'q : cp' ≠ q.1 := by
        rintro rfl
        rw [Function.update_of_ne hother] at hunused
        rw [hunused] at hcp'
        cases hcp'
      have hlive : Function.update (Function.update l cp none) q.1 (some nbytes.toNat) cp' =
          some n' := by
        rw [Function.update_of_ne hcp'q, Function.update_of_ne hother]
        exact hcp'
      have hsep := hmalloc.intact.apart cp' q.1 n' _ hlive hres hcp'q
      have hholds := hmalloc.intact.holds cp' n' hlive
      have hholds' := hmalloc.intact.holds q.1 _ hres
      intro i hi
      rw [← hkept cp' n' hcp' i hi]
      apply Memory.copy_of_outside
      rw [Separate] at hsep
      omega
    · exact (Memory.copy_add (by omega)).trans (hkept cp n hcp i (by omega))

/-! ## Runs -/

/-- A legal event that meets the condition keeps the invariant and is as it is to be. -/
theorem Inv.step (hinv : Inv h l blocks lists) {event : Event} (hlegal : Legal (h, l) event)
    (hfine : Fine (h, l) event) :
    (∃ blocks' lists', Inv (watch (h, l) event).2.1 (watch (h, l) event).2.2 blocks' lists') ∧
      Preserved (h, l) event (watch (h, l) event).1 (watch (h, l) event).2.1.mem := by
  cases event with
  | malloc nbytes env =>
    obtain ⟨hnext, -, hdata, -⟩ := malloc_spec hinv hfine (rfl : malloc env nbytes h = _)
    exact ⟨hnext, fun cp n hcp ↦ hinv.copied hcp hdata⟩
  | free cp =>
    rcases hlegal with rfl | hsome
    · have hsame : Function.update l 0 none = l := by
        rw [← hinv.null, Function.update_eq_self]
      refine ⟨⟨blocks, lists, ?_⟩, fun cp n hcp _ ↦ hinv.copied hcp fun _ _ ↦ rfl⟩
      change Inv (free 0 h) (Function.update l 0 none) blocks lists
      rw [hsame]
      exact hinv
    · obtain ⟨n, hcp⟩ := Option.isSome_iff_exists.mp hsome
      obtain ⟨⟨lists', hnext⟩, hdata⟩ := free_spec hinv hcp
      exact ⟨⟨blocks, lists', hnext⟩, fun cp' n' hcp' _ ↦ hinv.copied hcp' hdata⟩
  | realloc cp nbytes env =>
    by_cases hnull : cp = 0
    · subst hnull
      have hsame : Function.update l 0 none = l := by
        rw [← hinv.null, Function.update_eq_self]
      obtain ⟨hnext, -, hdata, -⟩ :=
        malloc_spec hinv (hfine.1 rfl) (rfl : malloc env nbytes h = _)
      refine ⟨?_, fun cp n hcp _ ↦ hinv.copied hcp hdata, fun n hcp ↦ ?_⟩
      · change ∃ blocks' lists', Inv (malloc env nbytes h).2
          (if (malloc env nbytes h).1 = 0 then l
            else Function.update (Function.update l 0 none) (malloc env nbytes h).1
              (some nbytes.toNat)) blocks' lists'
        rw [hsame]
        exact hnext
      · exact absurd (hinv.null.symm.trans hcp) (Option.some_ne_none n).symm
    · obtain ⟨n, hcp⟩ := Option.isSome_iff_exists.mp (hlegal.resolve_left hnull)
      obtain ⟨b, hb⟩ := hinv.used cp n hcp
      have hlt := (hinv.block _ b hb.mem).2.2
      have hroom := capacity_eq hlt
      have hindex : (h.mem (cp - overhead + 1)).toNat = b := hb.bucketOf hinv
      rw [watch, Malloc.step, realloc, if_neg hnull]
      dsimp only
      rw [if_pos hb.magic, hindex, hinv.pagesz_eq hcp]
      by_cases hstays : stays getpagesize b nbytes
      · rw [if_pos hstays, record, if_neg hnull, Function.update_idem]
        refine ⟨⟨blocks, lists, hinv.resize hcp ?_⟩, fun _ _ _ _ _ _ ↦ rfl, fun _ _ _ _ _ ↦ rfl⟩
        have hle := hstays.1
        rw [hb.bucketOf hinv]
        omega
      · have hgranted := (hfine.2 hnull).resolve_left (by
          rw [hb.bucketOf hinv, hinv.pagesz_eq hcp]
          exact hstays)
        have hle := hb.le
        have honb : n ≤ capacity getpagesize (b + 3) := by omega
        obtain ⟨hne, hnext, hothers, hmoved⟩ := moveBlock_spec hinv hcp hgranted honb rfl
        rw [if_neg hstays, record, if_neg hne]
        refine ⟨hnext, fun cp' n' hcp' hother ↦ hothers cp' n' hcp' (hother.resolve_right hne),
          fun n' hcp' _ ↦ ?_⟩
        rw [← Option.some_inj.mp (hcp.symm.trans hcp')]
        exact hmoved
  | store addr c =>
    obtain ⟨cp, n, hcp, hlow, hhigh⟩ := hlegal
    refine ⟨⟨blocks, lists, hinv.write hcp fun x hx ↦ Memory.set_of_ne ?_⟩, rfl⟩
    omega

/-- The heap of a program that starts. -/
def start (brk : ℕ) (mem : Memory) : Heap := ⟨mem, brk, fun _ ↦ 0, 0, 0⟩

theorem inv_start {brk : ℕ} {mem : Memory} (hpos : 0 < brk) (hlt : brk < 2 ^ 32)
    (hfresh : ∀ a, brk ≤ a → mem a = 0) : Inv (start brk mem) (fun _ ↦ none) ∅ fun _ ↦ [] where
  pages := Or.inl ⟨rfl, rfl⟩
  brk_pos := hpos
  brk_lt := hlt
  fresh := hfresh
  block _ _ hp := absurd hp (Set.notMem_empty _)
  apart _ _ _ _ hp := absurd hp (Set.notMem_empty _)
  threaded _ := rfl
  listed _ _ hp := absurd hp List.not_mem_nil
  used _ n hcp := absurd hcp.symm (Option.some_ne_none n)

/-- In every run in which the break is aligned and no block has to be moved without room for it, the
blocks in use stay intact. -/
theorem runs_intact {brk : ℕ} {mem : Memory} (hpos : 0 < brk) (hlt : brk < 2 ^ 32)
    (hfresh : ∀ a, brk ≤ a → mem a = 0) (events : List Event)
    (hlegal : Each watch (fun w event ↦ Legal w event ∧ Fine w event) events
      (start brk mem, fun _ ↦ none)) :
    Each watch Right events (start brk mem, fun _ ↦ none) := by
  apply each_of_invariant (fun w ↦ ∃ blocks lists, Inv w.1 w.2 blocks lists) _ _ events
    ⟨∅, fun _ ↦ [], inv_start hpos hlt hfresh⟩ hlegal
  · rintro w event ⟨blocks, lists, hinv⟩ hevent
    obtain ⟨⟨blocks', lists', hnext⟩, hpreserved⟩ := hinv.step hevent.1 hevent.2
    exact ⟨hnext.intact, hpreserved⟩
  · rintro w event ⟨blocks, lists, hinv⟩ hevent
    exact (hinv.step hevent.1 hevent.2).1

/-! ## A block that is moved -/

/-- A program whose break is at 8192, with no other memory. -/
def small : Heap := start 8192 fun _ ↦ 0

/-- A block of 100 bytes is moved to one of 5000. -/
theorem runs_intact_moved : Each watch Right
    [.malloc 100 ⟨true, true, true⟩, .realloc 12288 5000 ⟨true, true, true⟩]
    (small, fun _ ↦ none) := by
  apply runs_intact (by decide) (by decide) fun _ _ ↦ rfl
  have hset : (setup ⟨true, true, true⟩ small).1 = true := by decide
  refine ⟨⟨trivial, hset⟩, ⟨Or.inr (by decide), ?_⟩, trivial⟩
  refine ⟨fun h ↦ absurd h (by decide), fun _ ↦ Or.inr ⟨9, by decide, Or.inr ?_⟩⟩
  decide

/-- A block for which there is no room any more is free though it is in use. -/
theorem freed_in_use : ¬Each watch Right
    [.malloc 100 ⟨true, true, true⟩, .realloc 12288 5000 ⟨true, true, false⟩]
    (small, fun _ ↦ none) := by
  rintro ⟨-, ⟨hintact, -⟩, -⟩
  obtain ⟨ps, hthreaded, hps⟩ := hintact.free 4
  obtain ⟨rest, rfl, -⟩ := hthreaded.exists_cons (by decide)
  have hfirst := hps _ List.mem_cons_self 12288 100 (by decide)
  rw [Separate] at hfirst
  revert hfirst
  decide

end Bsd386.Libc.Malloc
