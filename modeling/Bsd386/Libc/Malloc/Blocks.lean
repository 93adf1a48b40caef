import Bsd386.Lib.Threaded
import Bsd386.Libc.Malloc.Basic
import Mathlib.Data.Set.Insert
import Mathlib.Tactic.SplitIfs

/-!
# The blocks of the allocator

Memory is cut into blocks once and for all, each of one bucket, and every block is in the list of
its bucket or in use. The routines write to the headers of blocks and to fresh memory only.
-/

namespace Bsd386.Libc.Malloc

/-- What the blocks in use were requested for. -/
abbrev Ledger := ℕ → Option ℕ

variable {h : Heap} {l : Ledger} {blocks : Set (ℕ × ℕ)} {lists : ℕ → List ℕ} {b b' cp n p : ℕ}
  {nbytes : BitVec 32} {env : Sbrk}

/-- The bytes of a block with its overhead. -/
def bytes (bucket : ℕ) : ℕ :=
  if 2 ^ (bucket + 3) < getpagesize then 2 ^ (bucket + 3) else 2 ^ (bucket + 3) + getpagesize

/-- Two ranges of memory do not overlap. -/
def Separate (p n q m : ℕ) : Prop := p + n ≤ q ∨ q + m ≤ p

theorem Separate.symm {p n q m : ℕ} (hsep : Separate p n q m) : Separate q m p n := Or.symm hsep

theorem eight_le_pow (bucket : ℕ) : 8 ≤ 2 ^ (bucket + 3) := by
  rw [Nat.pow_add]
  exact Nat.le_mul_of_pos_left 8 (Nat.two_pow_pos bucket)

theorem eight_le_bytes (bucket : ℕ) : 8 ≤ bytes bucket := by
  have hpow := eight_le_pow bucket
  rw [bytes]
  split_ifs
  · exact hpow
  · exact Nat.le_add_right_of_le hpow

/-- A block in use. -/
structure Used (h : Heap) (blocks : Set (ℕ × ℕ)) (lists : ℕ → List ℕ) (cp n b : ℕ) : Prop where
  lt : overhead < cp
  mem : (cp - overhead, b) ∈ blocks
  magic : h.mem (cp - overhead) = MAGIC
  index : h.mem (cp - overhead + 1) = BitVec.ofNat 8 b
  le : n + overhead ≤ bytes b
  notMem : cp - overhead ∉ lists b

/-- The invariant. -/
structure Inv (h : Heap) (l : Ledger) (blocks : Set (ℕ × ℕ)) (lists : ℕ → List ℕ) : Prop where
  pages : h.pagesz = 0 ∧ blocks = ∅ ∨ h.pagesz = getpagesize ∧ h.pagebucket = 9
  brk_pos : 0 < h.brk
  brk_lt : h.brk < 2 ^ 32
  fresh : ∀ a, h.brk ≤ a → h.mem a = 0
  block : ∀ p b, (p, b) ∈ blocks → 0 < p ∧ p + bytes b ≤ h.brk ∧ b < 28
  apart : ∀ p b q b', (p, b) ∈ blocks → (q, b') ∈ blocks → (p, b) ≠ (q, b') →
    Separate p (bytes b) q (bytes b')
  threaded : ∀ b, Threaded 0 h.mem.word (h.nextf b) (lists b)
  listed : ∀ b, ∀ p ∈ lists b, (p, b) ∈ blocks
  used : ∀ cp n, l cp = some n → ∃ b, Used h blocks lists cp n b

/-- The data of the blocks. -/
def InData (blocks : Set (ℕ × ℕ)) (x : ℕ) : Prop :=
  ∃ p b, (p, b) ∈ blocks ∧ p + overhead ≤ x ∧ x < p + bytes b

/-- The headers of the blocks. -/
def InHeader (blocks : Set (ℕ × ℕ)) (x : ℕ) : Prop :=
  ∃ p b, (p, b) ∈ blocks ∧ p ≤ x ∧ x < p + overhead

theorem Inv.bucket_unique (hinv : Inv h l blocks lists) (hb : (p, b) ∈ blocks)
    (hb' : (p, b') ∈ blocks) : b = b' := by
  by_contra hne
  have hsep := hinv.apart p b p b' hb hb' fun heq ↦ hne (Prod.mk.inj heq).2
  have hle := eight_le_bytes b
  have hle' := eight_le_bytes b'
  rw [Separate] at hsep
  omega

/-- A header and the data of blocks do not overlap. -/
theorem Inv.header_ne_data (hinv : Inv h l blocks lists) (hp : (p, b) ∈ blocks) {x : ℕ}
    (hx : InData blocks x) : x < p ∨ p + overhead ≤ x := by
  obtain ⟨q, b', hq, hlow, hhigh⟩ := hx
  by_cases heq : (p, b) = (q, b')
  · rw [(Prod.mk.inj heq).1]
    exact Or.inr hlow
  · have hsep := hinv.apart p b q b' hp hq heq
    have hle := eight_le_bytes b
    rw [Separate] at hsep
    rw [overhead] at hlow ⊢
    omega

/-- The headers of two blocks do not overlap. -/
theorem Inv.header_ne_header (hinv : Inv h l blocks lists) (hp : (p, b) ∈ blocks) {q : ℕ}
    (hq : (q, b') ∈ blocks) (hne : q ≠ p) : q + overhead ≤ p ∨ p + overhead ≤ q := by
  have hsep := hinv.apart p b q b' hp hq fun heq ↦ hne (Prod.mk.inj heq).1.symm
  have hle := eight_le_bytes b
  have hle' := eight_le_bytes b'
  rw [Separate] at hsep
  rw [overhead]
  omega

/-- A free block is not in use. -/
theorem Inv.not_used (hinv : Inv h l blocks lists) (hp : p ∈ lists b) :
    l (p + overhead) = none := by
  cases hused : l (p + overhead) with
  | none => rfl
  | some n =>
    obtain ⟨b', hb'⟩ := hinv.used _ n hused
    have hmem := hb'.mem
    have hnot := hb'.notMem
    rw [Nat.add_sub_cancel] at hmem hnot
    have heq := hinv.bucket_unique (hinv.listed b p hp) hmem
    exact absurd (heq ▸ hp) hnot

/-! ## Memory outside of the headers -/

/-- Writes to the data of blocks and to the memory that was not cut up keep the invariant. -/
theorem Inv.congr (hinv : Inv h l blocks lists) {h' : Heap}
    (hpages : h'.pagesz = 0 ∧ blocks = ∅ ∨ h'.pagesz = getpagesize ∧ h'.pagebucket = 9)
    (hbrk : h.brk ≤ h'.brk) (hlt : h'.brk < 2 ^ 32)
    (hnextf : h'.nextf = h.nextf) (hfresh : ∀ a, h'.brk ≤ a → h'.mem a = 0)
    (hheader : ∀ x, InHeader blocks x → h'.mem x = h.mem x) : Inv h' l blocks lists where
  pages := hpages
  brk_pos := Nat.lt_of_lt_of_le hinv.brk_pos hbrk
  brk_lt := hlt
  fresh := hfresh
  block p b hp := by
    obtain ⟨hpos, hend, hlt⟩ := hinv.block p b hp
    exact ⟨hpos, Nat.le_trans hend hbrk, hlt⟩
  apart := hinv.apart
  threaded b := by
    rw [hnextf]
    refine (hinv.threaded b).congr fun p hp ↦ Memory.word_congr fun x hlow hhigh ↦ ?_
    exact hheader x ⟨p, b, hinv.listed b p hp, hlow, hhigh⟩
  listed := hinv.listed
  used cp n hcp := by
    obtain ⟨b, hb⟩ := hinv.used cp n hcp
    refine ⟨b, hb.lt, hb.mem, ?_, ?_, hb.le, hb.notMem⟩
    · rw [hheader _ ⟨_, b, hb.mem, Nat.le_refl _, Nat.lt_add_of_pos_right (by decide)⟩]
      exact hb.magic
    · rw [hheader _ ⟨_, b, hb.mem, Nat.le_add_right _ 1, Nat.add_lt_add_left (by decide) _⟩]
      exact hb.index

/-- A write to the data of a block in use. -/
theorem Inv.write (hinv : Inv h l blocks lists) (hcp : l cp = some n) {m : Memory}
    (hm : ∀ x, x < cp ∨ cp + n ≤ x → m x = h.mem x) :
    Inv { h with mem := m } l blocks lists := by
  obtain ⟨b, hb⟩ := hinv.used cp n hcp
  obtain ⟨-, hend, -⟩ := hinv.block _ b hb.mem
  have hlt := hb.lt
  have hle := hb.le
  refine hinv.congr hinv.pages (Nat.le_refl _) hinv.brk_lt rfl (fun a ha ↦ ?_) fun x hx ↦ hm x ?_
  · change h.brk ≤ a at ha
    have hout : cp + n ≤ a := by omega
    exact (hm a (Or.inr hout)).trans (hinv.fresh a ha)
  · obtain ⟨q, b', hq, hlow, hhigh⟩ := hx
    by_contra hin
    rw [not_or, Nat.not_lt, Nat.not_le] at hin
    have hdata : InData blocks x := ⟨cp - overhead, b, hb.mem, by omega, by omega⟩
    have hne := hinv.header_ne_data hq hdata
    omega

/-! ## Sizes -/

theorem pow_shiftLeft {k : ℕ} : BitVec.ofNat 32 (2 ^ k) <<< 1 = BitVec.ofNat 32 (2 ^ (k + 1)) := by
  apply BitVec.eq_of_toNat_eq
  rw [BitVec.toNat_shiftLeft, BitVec.toNat_ofNat, BitVec.toNat_ofNat, Nat.shiftLeft_eq,
    Nat.mod_mul_mod, ← Nat.pow_add]

/-- The loop finds the first size from its start on that has room. -/
theorem sizeLoop_spec {m : BitVec 32} {fuel bucket : ℕ} (hbucket : bucket ≤ 28)
    (hb : sizeLoop nbytes m fuel (BitVec.ofNat 32 (2 ^ (bucket + 3))) bucket = some b) :
    bucket ≤ b ∧ b ≤ 28 ∧ nbytes ≤ BitVec.ofNat 32 (2 ^ (b + 3)) + m ∧
      ∀ j, bucket ≤ j → j < b → BitVec.ofNat 32 (2 ^ (j + 3)) + m < nbytes := by
  induction fuel generalizing bucket with
  | zero => cases hb
  | succ fuel ih =>
    rw [sizeLoop, pow_shiftLeft] at hb
    split_ifs at hb with hsmall hzero
    · have hnext : bucket + 1 ≤ 28 := by
        by_contra hlast
        have heq : bucket = 28 := by omega
        rw [heq] at hzero
        exact hzero (by decide)
      obtain ⟨hle, hlt, hroom, hfirst⟩ := ih hnext (by rw [Nat.add_right_comm]; exact hb)
      refine ⟨by omega, hlt, hroom, fun j hj hjb ↦ ?_⟩
      rcases Nat.eq_or_lt_of_le hj with rfl | hj
      · exact hsmall
      · exact hfirst j hj hjb
    · rw [← Option.some_inj.mp hb]
      exact ⟨Nat.le_refl _, hbucket, BitVec.not_lt.mp hsmall,
        fun j hj hjb ↦ absurd hjb (Nat.not_lt.mpr hj)⟩

/-- How much of a block is left by its overhead, as the loop computes it. -/
theorem room_eq : ∀ b ≤ 28,
    (BitVec.ofNat 32 (2 ^ (b + 3)) + -BitVec.ofNat 32 overhead).toNat + overhead = 2 ^ (b + 3) ∧
      (BitVec.ofNat 32 (2 ^ (b + 3)) + BitVec.ofNat 32 (getpagesize - overhead)).toNat + overhead =
        2 ^ (b + 3) + getpagesize := by
  decide

/-- A bucket has room for the request. -/
theorem bucket_spec (hpagesz : h.pagesz = getpagesize) (hpagebucket : h.pagebucket = 9)
    (hb : h.bucket nbytes = some b) : b ≤ 28 ∧ nbytes.toNat + overhead ≤ bytes b := by
  rw [Heap.bucket, hpagesz, hpagebucket] at hb
  split_ifs at hb with hsmall
  · obtain ⟨-, hlt, hroom, hfirst⟩ := sizeLoop_spec (Nat.zero_le 28) hb
    have hle := BitVec.le_def.mp hroom
    have heq := (room_eq b hlt).1
    refine ⟨hlt, ?_⟩
    rw [bytes]
    split_ifs <;> omega
  · obtain ⟨hstart, hlt, hroom, -⟩ := sizeLoop_spec (show 9 ≤ 28 by decide) hb
    have hle := BitVec.le_def.mp hroom
    have heq := (room_eq b hlt).2
    have hpow : 2 ^ 12 ≤ 2 ^ (b + 3) := Nat.pow_le_pow_right Nat.two_pos (by omega)
    have hlarge : ¬2 ^ (b + 3) < getpagesize := Nat.not_lt.mpr hpow
    refine ⟨hlt, ?_⟩
    rw [bytes, if_neg hlarge]
    omega

/-! ## `setup` -/

theorem pageLoop_eq : pageLoop getpagesize 32 8 0 = 9 := by decide

/-- `sbrk` moves the break. -/
theorem sbrk_eq_some {ok : Bool} {amt : ℕ} {r : ℕ × Heap} (hr : sbrk ok amt h = some r) :
    r = (h.brk, { h with brk := h.brk + amt }) ∧ h.brk + amt < 2 ^ 32 := by
  rw [sbrk] at hr
  split_ifs at hr with hok
  exact ⟨(Option.some_inj.mp hr).symm, hok.2⟩

/-- The set up keeps memory and sets the variables, unless its `sbrk` fails. -/
theorem setup_spec (hinv : Inv h l blocks lists) (hok : (setup env h).1) :
    Inv (setup env h).2 l blocks lists ∧ (setup env h).2.pagesz = getpagesize ∧
      (setup env h).2.pagebucket = 9 ∧ (setup env h).2.mem = h.mem := by
  by_cases hset : h.pagesz = 0
  · have hempty : blocks = ∅ := by
      rcases hinv.pages with ⟨-, hempty⟩ | ⟨hpagesz, -⟩
      · exact hempty
      · exact absurd (hset.symm.trans hpagesz) (by decide)
    have hkeep {h' : Heap} (hpagesz : h'.pagesz = getpagesize) (hpagebucket : h'.pagebucket = 9)
        (hbrk : h.brk ≤ h'.brk) (hlt : h'.brk < 2 ^ 32) (hnextf : h'.nextf = h.nextf)
        (hmem : h'.mem = h.mem) : Inv h' l blocks lists ∧ h'.pagesz = getpagesize ∧
          h'.pagebucket = 9 ∧ h'.mem = h.mem := by
      refine ⟨hinv.congr (Or.inr ⟨hpagesz, hpagebucket⟩) hbrk hlt hnextf (fun a ha ↦ ?_)
        fun x _ ↦ congrFun hmem x, hpagesz, hpagebucket, hmem⟩
      rw [hmem]
      exact hinv.fresh a (Nat.le_trans hbrk ha)
    have hnot : ¬h.pagesz ≠ 0 := not_not_intro hset
    rw [setup, if_neg hnot] at hok ⊢
    dsimp only at hok ⊢
    generalize alignment getpagesize _ = amt at hok ⊢
    by_cases haligned : amt = 0
    · rw [if_pos haligned]
      exact hkeep rfl pageLoop_eq (Nat.le_refl _) hinv.brk_lt rfl rfl
    · rw [if_neg haligned] at hok ⊢
      revert hok
      cases hr : sbrk env.align amt { h with pagesz := getpagesize } with
      | none => exact fun hok ↦ absurd hok Bool.false_ne_true
      | some r =>
        intro
        obtain ⟨rfl, hlt⟩ := sbrk_eq_some hr
        exact hkeep rfl pageLoop_eq (Nat.le_add_right _ _) hlt rfl rfl
  · rw [setup, if_pos hset]
    rcases hinv.pages with ⟨hzero, -⟩ | ⟨hpagesz, hpagebucket⟩
    · exact absurd hzero hset
    · exact ⟨hinv, hpagesz, hpagebucket, rfl⟩

/-! ## `morecore` -/

theorem blockSize_pos : ∀ b ≤ 28, 0 < blockSize b → b < 28 ∧ (blockSize b).toNat = 2 ^ (b + 3) := by
  decide

/-- What `morecore` takes from `sbrk` is enough for its blocks, and each is of the bucket. -/
theorem morecore_fits : ∀ b < 28, 0 < morecoreBlocks getpagesize (2 ^ (b + 3)) ∧
    (morecoreBlocks getpagesize (2 ^ (b + 3)) - 1) * 2 ^ (b + 3) + bytes b =
      morecoreAmt getpagesize (2 ^ (b + 3)) ∧
    (1 < morecoreBlocks getpagesize (2 ^ (b + 3)) → bytes b = 2 ^ (b + 3)) := by
  decide

/-- The loop of `morecore` makes a list out of fresh memory. -/
theorem thread_spec (sz k : ℕ) {op : ℕ} {m : Memory} (hsz : 4 ≤ sz) (hop : 0 < op)
    (hlt : op + k * sz < 2 ^ 32) (hfresh : ∀ x, op + k * sz ≤ x → m x = 0) :
    Threaded 0 (thread sz k op m).word op (List.range' op (k + 1) sz) ∧
      ∀ x, x < op ∨ op + k * sz ≤ x → thread sz k op m x = m x := by
  induction k generalizing op m with
  | zero =>
    rw [Nat.zero_mul, Nat.add_zero] at hfresh
    refine ⟨Threaded.cons (Nat.ne_of_gt hop) ?_, fun _ _ ↦ rfl⟩
    exact Memory.word_eq_zero fun x hx _ ↦ hfresh x hx
  | succ k ih =>
    have hnext : op + (k + 1) * sz = op + sz + k * sz := by
      rw [Nat.succ_mul, Nat.add_assoc, Nat.add_comm sz]
    rw [hnext] at hlt hfresh ⊢
    obtain ⟨hrest, hout⟩ := ih (m := m.setWord op (op + sz)) (by omega) hlt fun x hx ↦
      (Memory.setWord_of_le (by omega)).trans (hfresh x hx)
    have hfirst : (thread sz k (op + sz) (m.setWord op (op + sz))).word op = op + sz := by
      calc (thread sz k (op + sz) (m.setWord op (op + sz))).word op
          = (m.setWord op (op + sz)).word op :=
            Memory.word_congr fun x _ hx ↦ hout x (Or.inl (by omega))
        _ = op + sz := Memory.word_setWord (by omega)
    constructor
    · rw [thread, List.range'_succ]
      refine Threaded.cons (Nat.ne_of_gt hop) ?_
      rw [hfirst]
      exact hrest
    · intro x hx
      rw [thread, hout x (by omega)]
      rcases hx with hbelow | habove
      · exact Memory.setWord_of_lt hbelow
      · exact Memory.setWord_of_le (by omega)

/-- Memory that `morecore` cuts up. -/
theorem mem_range' {sz k op : ℕ} (hp : p ∈ List.range' op k sz) :
    ∃ i < k, p = op + sz * i := List.mem_range'.mp hp

/-- New blocks at the break. -/
theorem Inv.extend (hinv : Inv h l blocks lists) (hpages : h.pagesz = getpagesize)
    (hpagebucket : h.pagebucket = 9) (hb : b < 28) (hnil : lists b = []) {ps : List ℕ} {brk : ℕ}
    {m : Memory} (hbrk : h.brk ≤ brk) (hlt : brk < 2 ^ 32)
    (hps : ∀ p ∈ ps, h.brk ≤ p ∧ p + bytes b ≤ brk)
    (hapart : ∀ p ∈ ps, ∀ q ∈ ps, p ≠ q → Separate p (bytes b) q (bytes b))
    (hthreaded : Threaded 0 m.word h.brk ps) (hbelow : ∀ x < h.brk, m x = h.mem x)
    (habove : ∀ x, brk ≤ x → m x = 0) :
    Inv ⟨m, brk, Function.update h.nextf b h.brk, h.pagesz, h.pagebucket⟩ l
      (blocks ∪ {x | x.1 ∈ ps ∧ x.2 = b}) (Function.update lists b ps) where
  pages := Or.inr ⟨hpages, hpagebucket⟩
  brk_pos := Nat.lt_of_lt_of_le hinv.brk_pos hbrk
  brk_lt := hlt
  fresh := habove
  block p b' hp := by
    rcases hp with hold | ⟨hnew, rfl⟩
    · obtain ⟨hpos, hend, hlt⟩ := hinv.block p b' hold
      exact ⟨hpos, Nat.le_trans hend hbrk, hlt⟩
    · exact ⟨Nat.lt_of_lt_of_le hinv.brk_pos (hps p hnew).1, (hps p hnew).2, hb⟩
  apart p b₁ q b₂ hp hq hne := by
    rcases hp with hold | ⟨hnew, rfl⟩
    · rcases hq with hold' | ⟨hnew', rfl⟩
      · exact hinv.apart p b₁ q b₂ hold hold' hne
      · exact Or.inl (Nat.le_trans (hinv.block p b₁ hold).2.1 (hps q hnew').1)
    · rcases hq with hold' | ⟨hnew', rfl⟩
      · exact Or.inr (Nat.le_trans (hinv.block q b₂ hold').2.1 (hps p hnew).1)
      · exact hapart p hnew q hnew' fun heq ↦ hne (heq ▸ rfl)
  threaded b' := by
    dsimp only
    by_cases heq : b' = b
    · rw [heq, Function.update_self, Function.update_self]
      exact hthreaded
    · rw [Function.update_of_ne heq, Function.update_of_ne heq]
      refine (hinv.threaded b').congr fun p hp ↦ Memory.word_congr fun x _ hx ↦ hbelow x ?_
      have hend := (hinv.block p b' (hinv.listed b' p hp)).2.1
      have hle := eight_le_bytes b'
      omega
  listed b' p hp := by
    by_cases heq : b' = b
    · rw [heq, Function.update_self] at hp
      exact Or.inr ⟨hp, heq⟩
    · rw [Function.update_of_ne heq] at hp
      exact Or.inl (hinv.listed b' p hp)
  used cp n hcp := by
    obtain ⟨b', hb'⟩ := hinv.used cp n hcp
    have hend := (hinv.block _ b' hb'.mem).2.1
    have hle := eight_le_bytes b'
    refine ⟨b', hb'.lt, Or.inl hb'.mem, ?_, ?_, hb'.le, ?_⟩
    · exact (hbelow _ (by omega)).trans hb'.magic
    · exact (hbelow _ (by omega)).trans hb'.index
    · by_cases heq : b' = b
      · rw [heq, Function.update_self]
        intro hmem
        have hlow := (hps _ hmem).1
        omega
      · rw [Function.update_of_ne heq]
        exact hb'.notMem

/-- `morecore` makes blocks out of fresh memory, or changes nothing. -/
theorem morecore_spec (hinv : Inv h l blocks lists) (hpages : h.pagesz = getpagesize)
    (hpagebucket : h.pagebucket = 9) (hb : b ≤ 28) (hnil : lists b = []) (more : Bool) :
    ∃ blocks' lists', Inv (morecore more b h) l blocks' lists' ∧ blocks ⊆ blocks' ∧
      (∀ x, InData blocks x → (morecore more b h).mem x = h.mem x) ∧
      (0 < blockSize b → more →
        h.brk + morecoreAmt h.pagesz (blockSize b).toNat < 2 ^ 32 →
          (morecore more b h).nextf b ≠ 0) := by
  rw [morecore, hpages]
  split_ifs with hsize
  · exact ⟨blocks, lists, hinv, Set.Subset.refl _, fun _ _ ↦ rfl,
      fun hpos ↦ absurd hpos (Int.not_lt.mpr hsize)⟩
  · obtain ⟨hlt, hsz⟩ := blockSize_pos b hb (Int.not_le.mp hsize)
    obtain ⟨hblocks, hfits, hmany⟩ := morecore_fits b hlt
    have height := eight_le_pow b
    rw [hsz]
    dsimp only
    cases hr : sbrk more (morecoreAmt getpagesize (2 ^ (b + 3))) h with
    | none =>
      refine ⟨blocks, lists, hinv, Set.Subset.refl _, fun _ _ ↦ rfl, fun _ hmore hroom ↦ ?_⟩
      rw [sbrk, if_pos ⟨hmore, hroom⟩] at hr
      exact absurd hr (Option.some_ne_none _)
    | some r =>
      obtain ⟨rfl, hbrk⟩ := sbrk_eq_some hr
      dsimp only [Option.elim]
      generalize hk : morecoreBlocks getpagesize (2 ^ (b + 3)) - 1 = k at *
      generalize morecoreAmt getpagesize (2 ^ (b + 3)) = amt at *
      have hbytes := eight_le_bytes b
      obtain ⟨hthreaded, hout⟩ := thread_spec (2 ^ (b + 3)) k
        (by omega) hinv.brk_pos (by omega) fun x hx ↦ hinv.fresh x (by omega)
      refine ⟨_, _, hinv.extend hpages hpagebucket hlt hnil (Nat.le_add_right _ amt) hbrk ?_ ?_
        hthreaded (fun x hx ↦ hout x (Or.inl hx)) fun x hx ↦ ?_, Set.subset_union_left, ?_, ?_⟩
      · intro p hp
        obtain ⟨i, hi, rfl⟩ := mem_range' hp
        have hle : 2 ^ (b + 3) * i ≤ k * 2 ^ (b + 3) := by
          rw [Nat.mul_comm]
          exact Nat.mul_le_mul_right _ (Nat.le_of_lt_succ hi)
        omega
      · intro p hp q hq hne
        obtain ⟨i, hi, rfl⟩ := mem_range' hp
        obtain ⟨j, hj, rfl⟩ := mem_range' hq
        have hij : i ≠ j := fun heq ↦ hne (by rw [heq])
        rw [hmany (by omega), Separate, Nat.add_assoc, Nat.add_assoc, ← Nat.mul_succ,
          ← Nat.mul_succ]
        rcases Nat.lt_or_gt_of_ne hij with hlt' | hlt'
        · exact Or.inl (Nat.add_le_add_left (Nat.mul_le_mul_left _ hlt') _)
        · exact Or.inr (Nat.add_le_add_left (Nat.mul_le_mul_left _ hlt') _)
      · exact (hout x (Or.inr (by omega))).trans (hinv.fresh x (by omega))
      · rintro x ⟨p, b', hp, -, hx⟩
        have hend := (hinv.block p b' hp).2.1
        exact hout x (Or.inl (by omega))
      · intro _ _ _
        rw [Function.update_self]
        exact Nat.ne_of_gt hinv.brk_pos

/-! ## `take` and `free` -/

/-- Only a header is written, which is that of a block in the data of no block. -/
theorem Inv.keepsData (hinv : Inv h l blocks lists) (hp : (p, b) ∈ blocks) {m : Memory}
    (hm : ∀ x, x < p ∨ p + overhead ≤ x → m x = h.mem x) (x : ℕ) (hx : InData blocks x) :
    m x = h.mem x := hm x (hinv.header_ne_data hp hx)

/-- Writing the header of a block keeps the lists without it. -/
theorem Inv.threaded_congr (hinv : Inv h l blocks lists) (hp : (p, b) ∈ blocks) {m : Memory}
    (hm : ∀ x, x < p ∨ p + overhead ≤ x → m x = h.mem x) {a : ℕ} {ps : List ℕ}
    (hps : ∀ q ∈ ps, q ∈ lists b') (hnot : p ∉ ps) (hthreaded : Threaded 0 h.mem.word a ps) :
    Threaded 0 m.word a ps := by
  refine hthreaded.congr fun q hq ↦ Memory.word_congr fun x hlow hhigh ↦ hm x ?_
  have hne := hinv.header_ne_header hp (hinv.listed b' q (hps q hq)) (ne_of_mem_of_not_mem hq hnot)
  rw [overhead] at hne ⊢
  omega

/-- A block in use stays so when the header of another one is written. -/
theorem Used.congr (hinv : Inv h l blocks lists) {lists' : ℕ → List ℕ} (hp : (p, b) ∈ blocks)
    {h' : Heap} (hm : ∀ x, x < p ∨ p + overhead ≤ x → h'.mem x = h.mem x)
    (hused : Used h blocks lists cp n b') (hne : cp - overhead ≠ p)
    (hlists : cp - overhead ∈ lists' b' → cp - overhead ∈ lists b') :
    Used h' blocks lists' cp n b' := by
  have hsep := hinv.header_ne_header hp hused.mem hne
  refine ⟨hused.lt, hused.mem, ?_, ?_, hused.le, fun hmem ↦ hused.notMem (hlists hmem)⟩
  · rw [hm _ (by rw [overhead] at hsep ⊢; omega)]
    exact hused.magic
  · rw [hm _ (by rw [overhead] at hsep ⊢; omega)]
    exact hused.index

/-- A list is changed by one block. -/
theorem Inv.relist (hinv : Inv h l blocks lists) (hp : (p, b) ∈ blocks) {m : Memory}
    (hm : ∀ x, x < p ∨ p + overhead ≤ x → m x = h.mem x) {a : ℕ} {ps : List ℕ} {l' : Ledger}
    (hthreaded : Threaded 0 m.word a ps) (hps : ∀ q ∈ ps, q ≠ p → q ∈ lists b)
    (hl : ∀ cp ≠ p + overhead, l' cp = l cp)
    (hused : ∀ n, l' (p + overhead) = some n →
      n + overhead ≤ bytes b ∧ m p = MAGIC ∧ m (p + 1) = BitVec.ofNat 8 b ∧ p ∉ ps) :
    Inv ⟨m, h.brk, Function.update h.nextf b a, h.pagesz, h.pagebucket⟩ l' blocks
      (Function.update lists b ps) where
  pages := hinv.pages
  brk_pos := hinv.brk_pos
  brk_lt := hinv.brk_lt
  fresh x hx := by
    have hend := (hinv.block p b hp).2.1
    have hle := eight_le_bytes b
    have hx' : h.brk ≤ x := hx
    have habove : p + overhead ≤ x := by
      rw [overhead]
      omega
    exact (hm x (Or.inr habove)).trans (hinv.fresh x hx)
  block := hinv.block
  apart := hinv.apart
  threaded b' := by
    dsimp only
    by_cases heq : b' = b
    · rw [heq, Function.update_self, Function.update_self]
      exact hthreaded
    · rw [Function.update_of_ne heq, Function.update_of_ne heq]
      refine hinv.threaded_congr hp hm (fun _ hq ↦ hq) (fun hmem ↦ heq ?_) (hinv.threaded b')
      exact hinv.bucket_unique (hinv.listed b' p hmem) hp
  listed b' q hq := by
    by_cases heq : b' = b
    · rw [heq, Function.update_self] at hq
      by_cases hqp : q = p
      · rw [hqp, heq]
        exact hp
      · rw [heq]
        exact hinv.listed b q (hps q hq hqp)
    · rw [Function.update_of_ne heq] at hq
      exact hinv.listed b' q hq
  used cp n hcp := by
    by_cases heq : cp = p + overhead
    · rw [heq] at hcp ⊢
      obtain ⟨hle, hmagic, hindex, hnot⟩ := hused n hcp
      have hpos := (hinv.block p b hp).1
      refine ⟨b, ⟨Nat.lt_add_of_pos_left hpos, ?_, ?_, ?_, hle, ?_⟩⟩
      · rw [Nat.add_sub_cancel]
        exact hp
      · rw [Nat.add_sub_cancel]
        exact hmagic
      · rw [Nat.add_sub_cancel]
        exact hindex
      · rw [Nat.add_sub_cancel, Function.update_self]
        exact hnot
    · rw [hl cp heq] at hcp
      obtain ⟨b', hb'⟩ := hinv.used cp n hcp
      have hlt := hb'.lt
      have hne : cp - overhead ≠ p := by omega
      refine ⟨b', hb'.congr hinv hp hm hne fun hmem ↦ ?_⟩
      by_cases hbb : b' = b
      · rw [hbb, Function.update_self] at hmem
        rw [hbb]
        exact hps _ hmem hne
      · rw [Function.update_of_ne hbb] at hmem
        exact hmem

/-- `take` puts the first block of a list in use. -/
theorem take_spec (hinv : Inv h l blocks lists) (hne : h.nextf b ≠ 0)
    (hfits : n + overhead ≤ bytes b) :
    l (take b h).1 = none ∧ (take b h).1 ≠ 0 ∧
      (∃ lists', Inv (take b h).2 (Function.update l (take b h).1 (some n)) blocks lists') ∧
      ∀ x, InData blocks x → (take b h).2.mem x = h.mem x := by
  obtain ⟨rest, hlist, hrest⟩ := (hinv.threaded b).exists_cons hne
  generalize hp : h.nextf b = p at *
  have hmem : p ∈ lists b := hlist ▸ List.mem_cons_self
  have hblock := hinv.listed b p hmem
  have hnodup := (hinv.threaded b).nodup
  rw [hlist, List.nodup_cons] at hnodup
  have hm : ∀ x, x < p ∨ p + overhead ≤ x →
      ((h.mem.set p MAGIC).set (p + 1) (BitVec.ofNat 8 b)) x = h.mem x := by
    intro x hx
    rw [overhead] at hx
    rw [Memory.set_of_ne (by omega), Memory.set_of_ne (by omega)]
  rw [take, hp, if_neg hne]
  refine ⟨hinv.not_used hmem, Nat.succ_ne_zero _, ⟨Function.update lists b rest, ?_⟩,
    hinv.keepsData hblock hm⟩
  have hsub : ∀ q ∈ rest, q ∈ lists b := fun q hq ↦ hlist ▸ List.mem_cons_of_mem p hq
  refine hinv.relist hblock hm (hinv.threaded_congr hblock hm hsub hnodup.1 hrest)
    (fun q hq _ ↦ hsub q hq) (fun cp hcp ↦ Function.update_of_ne hcp _ _) fun n' hn' ↦ ?_
  dsimp only at hn'
  rw [Function.update_self, Option.some_inj] at hn'
  refine ⟨hn' ▸ hfits, ?_, Memory.set_self, hnodup.1⟩
  rw [Memory.set_of_ne (Nat.ne_of_lt (Nat.lt_succ_self p)), Memory.set_self]

/-- `free` puts a block back into its list. -/
theorem free_spec (hinv : Inv h l blocks lists) (hcp : l cp = some n) :
    (∃ lists', Inv (free cp h) (Function.update l cp none) blocks lists') ∧
      ∀ x, InData blocks x → (free cp h).mem x = h.mem x := by
  obtain ⟨b, hb⟩ := hinv.used cp n hcp
  obtain ⟨hpos, -, hlt⟩ := hinv.block _ b hb.mem
  have hcp0 := hb.lt
  have hsize : (h.mem (cp - overhead + 1)).toNat = b := by
    rw [hb.index, BitVec.toNat_ofNat]
    omega
  have hmagic : ¬h.mem (cp - overhead) ≠ MAGIC := not_not_intro hb.magic
  have hplace : cp - overhead + overhead = cp := by omega
  rw [free, if_neg (by omega), if_neg hmagic, hsize]
  have hm : ∀ x, x < cp - overhead ∨ cp - overhead + overhead ≤ x →
      h.mem.setWord (cp - overhead) (h.nextf b) x = h.mem x := fun x hx ↦
    hx.elim Memory.setWord_of_lt Memory.setWord_of_le
  refine ⟨⟨Function.update lists b ((cp - overhead) :: lists b), ?_⟩, hinv.keepsData hb.mem hm⟩
  have hnextf : h.nextf b < 2 ^ 32 := by
    cases hlist : lists b with
    | nil =>
      have hnull := hinv.threaded b
      rw [hlist] at hnull
      exact hnull ▸ Nat.two_pow_pos 32
    | cons q rest =>
      have hfirst := hinv.threaded b
      have hblock := hinv.block q b (hinv.listed b q (hlist ▸ List.mem_cons_self))
      have hbrk := hinv.brk_lt
      rw [hlist] at hfirst
      rw [hfirst.1]
      omega
  refine hinv.relist hb.mem hm (Threaded.cons (Nat.ne_of_gt hpos) ?_) (fun q hq hne ↦ ?_)
    (fun cp' hcp' ↦ ?_) fun n' hn' ↦ ?_
  · rw [Memory.word_setWord hnextf]
    exact hinv.threaded_congr hb.mem hm (fun _ hq ↦ hq) hb.notMem (hinv.threaded b)
  · exact (List.mem_cons.mp hq).resolve_left hne
  · rw [hplace] at hcp'
    exact Function.update_of_ne hcp' _ _
  · rw [hplace, Function.update_self] at hn'
    cases hn'

end Bsd386.Libc.Malloc
