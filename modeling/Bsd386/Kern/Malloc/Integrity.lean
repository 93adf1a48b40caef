import Bsd386.Kern.Malloc.Free

/-!
# Integrity over runs

Any number of calls of `malloc` and `free` share the tables. A call of `malloc` may let others run
in two places: it sleeps while its type is at its limit, and `kmem_alloc` may block before it
returns. The owner of a block may write to as much of it as was asked for, and memory that the
allocator does not hold changes in any way.
-/

namespace Bsd386.Kern.Malloc

open Function

/-- Where a call of `malloc` waits. -/
inductive Wait
  | limit
  | kmemAlloc
  deriving DecidableEq

/-- The tables, the blocks that have been returned and not freed, the regions that `kmem_alloc` has
returned and `kmem_free` has not taken back, and the calls of `malloc` that wait. -/
structure System where
  kernel : Kernel
  live : List Block
  held : List Region
  waiting : List (Call × Wait)

namespace System

/-- The calls that `kmeminit` is followed by. -/
def init (mem : ℕ → ℕ) : System where
  kernel := kmeminit mem
  live := []
  held := []
  waiting := []

/-- A call of `malloc` has returned or waits. What it has charged is what `ks_memuse` has grown
by. -/
def settle (s : System) (call : Call) : Progress × Kernel → System
  | (.returns 0, kernel) => { s with kernel }
  | (.returns addr, kernel) =>
    let charged := ((kernel.kmemstats call.type).ksMemuse -
      (s.kernel.kmemstats call.type).ksMemuse).toNat
    { s with
      kernel
      live := { addr, size := call.size, type := call.type, charged } :: s.live }
  | (.sleeps, kernel) => { s with kernel, waiting := (call, .limit) :: s.waiting }
  | (.kmemAlloc, kernel) => { s with kernel, waiting := (call, .kmemAlloc) :: s.waiting }

/-- The call waits no longer. -/
def resume (s : System) (call : Call) (wait : Wait) : System :=
  { s with waiting := s.waiting.erase (call, wait) }

/-- What can happen between two points where control may switch, when no call of `malloc` asks for
more than a number of bytes. `kmem_alloc` returns the null address, or pages of the arena that are
apart from all that are held. -/
inductive Step (arena : Arena) (bound : ℕ) : System → System → Prop
  | malloc {s : System} {call : Call} {result : Progress × Kernel} (hsize : call.size ≤ bound)
      (hok : s.kernel.malloc arena call = .ok result) : Step arena bound s (s.settle call result)
  | wakeup {s : System} {call : Call} {result : Progress × Kernel}
      (hwaiting : (call, .limit) ∈ s.waiting)
      (hok : s.kernel.mallocLimit arena call = .ok result) :
      Step arena bound s ((s.resume call .limit).settle call result)
  | refuse {s : System} {call : Call} {result : Progress × Kernel}
      (hwaiting : (call, .kmemAlloc) ∈ s.waiting)
      (hok : s.kernel.mallocFill arena call 0 = .ok result) :
      Step arena bound s ((s.resume call .kmemAlloc).settle call result)
  | supply {s : System} {call : Call} {result : Progress × Kernel} {r : Region}
      (hwaiting : (call, .kmemAlloc) ∈ s.waiting) (haligned : arena.Aligned r)
      (hbytes : r.bytes = ctob call.npg) (hfresh : ∀ r' ∈ s.held, r'.Apart r)
      (hok : s.kernel.mallocFill arena call r.addr = .ok result) :
      Step arena bound s
        ({ s.resume call .kmemAlloc with held := r :: s.held }.settle call result)
  | free {s : System} {b : Block} {kernel : Kernel} {region : Option Region} (hb : b ∈ s.live)
      (hok : s.kernel.free arena b.addr b.type = .ok (kernel, region)) :
      Step arena bound s
        { s with kernel, live := s.live.erase b, held := giveBack s.held region }
  | write {s : System} {mem : ℕ → ℕ}
      (hsame : ∀ a, (∃ r ∈ s.held, r.Contains a) →
        (∀ b ∈ s.live, ¬ (b.addr ≤ a ∧ a < b.addr + b.size)) → mem a = s.kernel.mem a) :
      Step arena bound s { s with kernel := { s.kernel with mem } }

/-- The states that calls of at most a number of bytes can lead to. -/
inductive Reachable (arena : Arena) (bound : ℕ) : System → Prop
  | init (mem : ℕ → ℕ) : Reachable arena bound (init mem)
  | step {s s' : System} (hs : Reachable arena bound s) (hstep : Step arena bound s s') :
      Reachable arena bound s'

/-- The integrity of the allocator. A page that is cut into elements is a held region of one
page. -/
structure Integrity (arena : Arena) (s : System) : Prop where
  live_apart : s.live.Pairwise fun b b' ↦ b.extent.Apart b'.extent
  live_within : ∀ b ∈ s.live, b.size ≤ b.charged ∧
    ∃ r ∈ s.held, r.addr ≤ b.addr ∧ b.addr + b.charged ≤ r.addr + r.bytes
  lists : ∃ free : ℕ → List ℕ,
    (∀ i, Threaded 0 s.kernel.mem (s.kernel.bucket i).kbNext (free i)) ∧
      (∀ b ∈ s.live, ∀ i, ∀ a ∈ free i, b.extent.Apart ⟨a, 2 ^ i⟩) ∧
      (∀ i, (s.kernel.bucket i).kbTotalfree = (free i).length) ∧
        ∀ r ∈ s.held, r.bytes = nbpg → (s.kernel.usage arena r.addr).kuUn =
          ((free (s.kernel.usage arena r.addr).kuIndx).filter r.Contains).length
  memuse : ∀ t, (s.kernel.kmemstats t).ksMemuse = chargedTo t s.live
  givesBack : ∀ b ∈ s.live, ∀ kernel r,
    s.kernel.free arena b.addr b.type = .ok (kernel, some r) → r ∈ s.held ∧
      (∀ b' ∈ s.live.erase b, b'.extent.Apart r) ∧
        ∀ i l, Threaded 0 kernel.mem (kernel.bucket i).kbNext l →
          ∀ a ∈ l, Region.Apart ⟨a, 2 ^ i⟩ r

variable {arena : Arena} {s s' : System} {free : ℕ → List ℕ} {call : Call}

/-! ## Steps -/

/-- The tables are sound, and no call that waits asks for more than can be rounded. -/
def Inv (arena : Arena) (s : System) : Prop :=
  (∃ free, s.kernel.Sound arena s.held free s.live) ∧ ∀ w ∈ s.waiting, w.1.size ≤ maxRequest

theorem init_sound (mem : ℕ → ℕ) :
    (kmeminit mem).Sound arena [] (fun _ ↦ []) [] := by
  refine ⟨nofun, .nil, fun i ↦ ?_, fun i ↦ rfl, fun i ↦ rfl, nofun, nofun, nofun, nofun,
    List.nodup_nil, fun t ↦ rfl⟩
  simp only [kmeminit, Nat.one_shiftLeft]
  split_ifs with hle
  · have hexp : 12 ≤ i := (Nat.pow_le_pow_iff_right (a := 2) (by norm_num)).1 hle
    rw [Nat.sub_eq_zero_of_le hexp]
    rfl
  · have hexp : i ≤ 12 := by
      by_contra hlt
      exact hle (Nat.pow_le_pow_right two_pos (Nat.lt_of_not_le hlt).le)
    rw [← two_pow_mul_two_pow hexp, Nat.mul_div_cancel _ (Nat.two_pow_pos i)]

/-- Everything that holds of the tables on which a block is live. -/
theorem addr_ne_zero {b : Block} {live : List Block} {held : List Region} {k : Kernel}
    (h : k.Sound arena held free live) (hb : b ∈ live) : b.addr ≠ 0 := by
  obtain ⟨r, hr, hle, -⟩ := h.live_within hb
  have hbase := (h.aligned r hr).1.2.1
  have hpos := arena.kmembase_pos
  omega

/-- What a returned block adds to the state. -/
theorem settle_returns {addr charged : ℕ} {kernel : Kernel}
    (hsound : kernel.Sound arena s.held free
      ({ addr, size := call.size, type := call.type, charged } :: s.live))
    (hcharge : (kernel.kmemstats call.type).ksMemuse =
      (s.kernel.kmemstats call.type).ksMemuse + charged) :
    s.settle call (.returns addr, kernel) =
      { s with
        kernel
        live := { addr, size := call.size, type := call.type, charged } :: s.live } := by
  obtain ⟨addr, rfl⟩ := Nat.exists_eq_succ_of_ne_zero (addr_ne_zero hsound List.mem_cons_self)
  have hdiff : ((kernel.kmemstats call.type).ksMemuse -
      (s.kernel.kmemstats call.type).ksMemuse).toNat = charged := by
    rw [hcharge, add_sub_cancel_left, Int.toNat_natCast]
  simp only [settle, hdiff]

/-- The test of the limit and of the list leaves the tables sound. -/
theorem mallocLimit_spec (h : s.kernel.Sound arena s.held free s.live) (call : Call) :
    ∃ result, s.kernel.mallocLimit arena call = .ok result ∧ ∃ free',
      (s.settle call result).kernel.Sound arena (s.settle call result).held free'
        (s.settle call result).live := by
  by_cases hlimit : (s.kernel.kmemstats call.type).ksLimit ≤ (s.kernel.kmemstats call.type).ksMemuse
  · by_cases hnowait : call.nowait = true
    · exact ⟨_, (if_pos hlimit).trans (if_pos hnowait), free, h⟩
    · refine ⟨_, (if_pos hlimit).trans (if_neg hnowait), free, h.congr (fun i ↦ rfl) (fun i ↦ rfl)
        (fun i ↦ rfl) (fun t ↦ ?_) rfl fun i a ha ↦ rfl⟩
      rcases eq_or_ne t call.type with rfl | ht
      · simp [settle]
      · simp [settle, ht]
  by_cases hempty : (s.kernel.bucket call.indx).kbNext = 0
  · exact ⟨_, (if_neg hlimit).trans (if_pos hempty), free, h⟩
  · obtain ⟨l, hlist, -⟩ := (h.threaded call.indx).exists_cons hempty
    have helement := h.element_spec (h.element call.indx _ (hlist ▸ List.mem_cons_self))
    have hsize : call.size ≤ nbpg := Nat.le_of_not_lt fun hlt ↦ by
      have hlarge : 13 ≤ call.indx := bucketIndx_large hlt
      omega
    obtain ⟨kernel, hok, hsound, hcharge⟩ :=
      h.mallocTake hlist (bucketIndx_small hsize).2.2
    refine ⟨_, (if_neg hlimit).trans ((if_neg hempty).trans hok),
      update free call.indx l, ?_⟩
    rw [settle_returns hsound (by rw [hcharge]; push_cast; rfl)]
    exact hsound

theorem waiting_settle {result : Progress × Kernel} {w : Call × Wait}
    (hw : w ∈ (s.settle call result).waiting) : w.1 = call ∨ w ∈ s.waiting := by
  obtain ⟨progress, kernel⟩ := result
  cases progress with
  | returns addr =>
    cases addr with
    | zero => exact .inr hw
    | succ addr => exact .inr hw
  | sleeps => exact (List.mem_cons.1 hw).imp (congrArg Prod.fst) id
  | kmemAlloc => exact (List.mem_cons.1 hw).imp (congrArg Prod.fst) id

/-- The pages that `kmem_alloc` returns are put to use. -/
theorem mallocFill_spec (h : s.kernel.Sound arena s.held free s.live)
    (hsize : call.size ≤ maxRequest) {r : Region} (hr : arena.Aligned r)
    (hbytes : r.bytes = ctob call.npg) (hfresh : ∀ r' ∈ s.held, r'.Apart r) :
    ∃ result, s.kernel.mallocFill arena call r.addr = .ok result ∧ ∃ free',
      (({ s with held := r :: s.held }.settle call result).kernel).Sound arena
        ({ s with held := r :: s.held }.settle call result).held free'
          ({ s with held := r :: s.held }.settle call result).live := by
  rcases Nat.lt_or_ge nbpg call.size with hlarge | hsmall
  · obtain ⟨kernel, hok, hsound, hcharge⟩ := h.mallocFill_large hlarge hsize hr hbytes hfresh
    refine ⟨_, hok, free, ?_⟩
    have hsettle : { s with held := r :: s.held }.settle call (.returns r.addr, kernel) = _ :=
      settle_returns hsound hcharge
    rw [hsettle]
    exact hsound
  · obtain ⟨a, kernel, hok, free', hsound, hcharge⟩ := h.mallocFill_small hsmall hr hbytes hfresh
    refine ⟨_, hok, free', ?_⟩
    have hsettle : { s with held := r :: s.held }.settle call (.returns a, kernel) = _ :=
      settle_returns hsound (by rw [hcharge]; push_cast; rfl)
    rw [hsettle]
    exact hsound

/-- Every step keeps the invariant. -/
theorem Step.inv (hstep : Step arena maxRequest s s') (h : s.Inv arena) : s'.Inv arena := by
  obtain ⟨⟨free, hsound⟩, hwait⟩ := h
  have hresume : ∀ {call wait}, ∀ w ∈ (s.resume call wait).waiting, w.1.size ≤ maxRequest :=
    fun w hw ↦ hwait w (List.mem_of_mem_erase hw)
  have hsettle : ∀ {t : System} {call result}, call.size ≤ maxRequest →
      (∀ w ∈ t.waiting, w.1.size ≤ maxRequest) →
        ∀ w ∈ (t.settle call result).waiting, w.1.size ≤ maxRequest := by
    intro t call result hcall ht w hw
    rcases waiting_settle hw with heq | hw
    · exact heq ▸ hcall
    · exact ht w hw
  cases hstep with
  | malloc hsize hok =>
    rename_i call result
    obtain ⟨result', hok', hsound'⟩ := mallocLimit_spec hsound call
    unfold Kernel.malloc at hok
    split_ifs at hok
    rw [hok'] at hok
    cases hok
    exact ⟨hsound', hsettle hsize hwait⟩
  | wakeup hwaiting hok =>
    rename_i call result
    obtain ⟨result', hok', hsound'⟩ :=
      mallocLimit_spec (s := s.resume call .limit) hsound call
    rw [show (s.resume call .limit).kernel = s.kernel from rfl, hok] at hok'
    cases hok'
    exact ⟨hsound', hsettle (hwait _ hwaiting) hresume⟩
  | refuse hwaiting hok =>
    rename_i call result
    have hnull : s.kernel.mallocFill arena call 0 = .ok (.returns 0, s.kernel) := if_pos rfl
    rw [hnull] at hok
    cases hok
    exact ⟨⟨free, hsound⟩, hsettle (hwait _ hwaiting) hresume⟩
  | supply hwaiting haligned hbytes hfresh hok =>
    rename_i call result r
    obtain ⟨result', hok', hsound'⟩ := mallocFill_spec (s := s.resume call .kmemAlloc) hsound
      (hwait _ hwaiting) haligned hbytes hfresh
    rw [show (s.resume call .kmemAlloc).kernel = s.kernel from rfl, hok] at hok'
    cases hok'
    exact ⟨hsound', hsettle (hwait _ hwaiting) hresume⟩
  | free hb hok =>
    obtain ⟨kernel', region', free', hok', -, hsound'⟩ := hsound.free_spec hb
    rw [hok] at hok'
    cases hok'
    exact ⟨⟨free', hsound'⟩, hwait⟩
  | write hsame =>
    refine ⟨⟨free, hsound.congr (fun i ↦ rfl) (fun i ↦ rfl) (fun i ↦ rfl) (fun t ↦ rfl) rfl
      fun i a ha ↦ hsame a ?_ fun b hb hin ↦ ?_⟩, hwait⟩
    · obtain ⟨r, hr, -, hra, -⟩ := hsound.element i a ha
      exact ⟨r, hr, hra⟩
    · have hapart := hsound.live_apart_free hb ha
      have hsize := (hsound.block b hb).1
      have hpos : 0 < 2 ^ i := Nat.two_pow_pos i
      simp only [Region.Apart, Block.extent] at hapart
      omega

theorem Reachable.inv (h : Reachable arena maxRequest s) : s.Inv arena := by
  induction h with
  | init mem => exact ⟨⟨_, init_sound mem⟩, nofun⟩
  | step _ hstep ih => exact hstep.inv ih

/-! ## Integrity -/

/-- What remains is apart from a region that is given back. -/
theorem givesBack_spec (h : s.kernel.Sound arena s.held free s.live) {b : Block} (hb : b ∈ s.live)
    {kernel : Kernel} {r : Region}
    (hok : s.kernel.free arena b.addr b.type = .ok (kernel, some r)) :
    r ∈ s.held ∧ (∀ b' ∈ s.live.erase b, b'.extent.Apart r) ∧
      ∀ i l, Threaded 0 kernel.mem (kernel.bucket i).kbNext l →
        ∀ a ∈ l, Region.Apart ⟨a, 2 ^ i⟩ r := by
  obtain ⟨kernel', region, free', hok', hheld, hsound⟩ := h.free_spec hb
  rw [hok] at hok'
  cases hok'
  have hr := hheld r rfl
  have hapart : ∀ t ∈ s.held.erase r, t.Apart r := fun t ht ↦ by
    obtain ⟨hne, ht⟩ := h.mem_erase.1 ht
    exact h.apart.forall ht hr hne
  refine ⟨hr, fun b' hb' ↦ ?_, fun i l hl a ha ↦ ?_⟩
  · obtain ⟨t, ht, hlo, hhi⟩ := hsound.live_within hb'
    exact (hapart t ht).mono hlo hhi le_rfl le_rfl
  · rw [hl.unique (hsound.threaded i)] at ha
    obtain ⟨t, ht, -, hta, hend⟩ := hsound.element_within (hsound.element i a ha)
    exact (hapart t ht).mono hta.1 hend le_rfl le_rfl

/-- In every run of calls that ask for at most 2³² - 4096 bytes, blocks and free elements do not
overlap, every block is as large as was asked for, and all counts are right. -/
theorem malloc_integrity (h : Reachable arena maxRequest s) : s.Integrity arena := by
  obtain ⟨⟨free, hsound⟩, -⟩ := h.inv
  exact {
    live_apart := hsound.live_pairwise
    live_within := fun b hb ↦ ⟨(hsound.block b hb).1, hsound.live_within hb⟩
    lists := ⟨free, hsound.threaded, fun b hb i a ha ↦ hsound.live_apart_free hb ha,
      hsound.totalfree, fun r hr hbytes ↦ (hsound.cut r hr hbytes).2.2⟩
    memuse := hsound.memuse
    givesBack := fun b hb kernel r hok ↦ givesBack_spec hsound hb hok }

/-- An arena of the size that `kmeminit` makes. -/
def someArena : Arena where
  kernelEnd := 0xFE100000
  kmembase := 0xFE200000
  kmembase_pos := by decide
  kmembase_aligned := by decide
  kernelEnd_le := by decide
  fits := by decide

/-- Two pages that were asked for and supplied are a live block. -/
theorem malloc_integrity_pages : ∃ s, Reachable someArena maxRequest s ∧ s.live.length = 1 ∧
    s.Integrity someArena := by
  let call : Call := { size := 8192, type := 49, nowait := false, zeroIt := false }
  let r : Region := { addr := someArena.kmembase, bytes := 8192 }
  have hmalloc : Step someArena maxRequest (init fun _ ↦ 0)
      ((init fun _ ↦ 0).settle call (.kmemAlloc, kmeminit fun _ ↦ 0)) := .malloc (by decide) rfl
  have hasked := (Reachable.init _).step hmalloc
  have hr : someArena.Aligned r := ⟨by decide, le_rfl, by decide⟩
  have hbytes : r.bytes = ctob call.npg := by decide
  obtain ⟨kernel, hfill, hsound, hcharge⟩ :=
    (init_sound fun _ ↦ 0).mallocFill_large (by decide) (by decide) hr hbytes nofun
  have hs := hasked.step (.supply List.mem_cons_self hr hbytes nofun hfill)
  refine ⟨_, hs, ?_, malloc_integrity hs⟩
  have hsettle := settle_returns (s := { init (fun _ ↦ 0) with held := [r] }) hsound hcharge
  exact congrArg (fun s : System ↦ s.live.length) hsettle

/-- A request that wraps around to nothing gets a block that is smaller. -/
theorem malloc_integrity_fails : ∃ s, Reachable someArena (2 ^ 32 - 1) s ∧
    ¬ s.Integrity someArena := by
  let call : Call := { size := 2 ^ 32 - 1, type := 49, nowait := false, zeroIt := false }
  let r : Region := { addr := someArena.kmembase, bytes := 0 }
  have hmalloc : Step someArena (2 ^ 32 - 1) (init fun _ ↦ 0)
      ((init fun _ ↦ 0).settle call (.kmemAlloc, kmeminit fun _ ↦ 0)) := .malloc le_rfl rfl
  have hasked := (Reachable.init _).step hmalloc
  have hcheck : ((kmeminit fun _ ↦ 0).mallocFill someArena call r.addr).toOption.any (fun result ↦
      ({ init (fun _ ↦ 0) with held := [r] }.settle call result).live.any fun b ↦
        b.charged < b.size) = true := by decide
  cases hfill : (kmeminit fun _ ↦ 0).mallocFill someArena call r.addr with
  | error fault =>
    rw [hfill] at hcheck
    exact absurd (hcheck : false = true) Bool.false_ne_true
  | ok result =>
    rw [hfill] at hcheck
    obtain ⟨b, hb, hlt⟩ := List.any_eq_true.1 hcheck
    have hs := hasked.step (.supply (r := r) List.mem_cons_self ⟨by decide, le_rfl, by decide⟩
      (by decide) nofun hfill)
    exact ⟨_, hs, fun h ↦ absurd (h.live_within b hb).1 (Nat.not_le.2 (of_decide_eq_true hlt))⟩

end System

end Bsd386.Kern.Malloc
