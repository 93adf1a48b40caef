import Bsd386.Kern.Malloc.Basic
import Bsd386.Lib.Threaded
import Mathlib.Algebra.BigOperators.Group.List.Basic
import Mathlib.Data.List.Pairwise
import Mathlib.Data.List.Perm.Subperm
import Mathlib.Tactic.SplitIfs

/-!
# What the allocator owns

Pages held by the allocator are either cut into elements, each of which is free or a live block, or
part of a large live block. The tables are sound when they describe such a division.
-/

namespace Bsd386.Kern.Malloc

open Function

/-! ## Sizes -/

theorem bucketIndx_small {size : ℕ} (h : size ≤ nbpg) :
    4 ≤ bucketIndx size ∧ bucketIndx size ≤ 12 ∧ size ≤ 2 ^ bucketIndx size := by
  simp only [nbpg] at h
  simp only [bucketIndx, minallocsize, minbucket, Nat.one_shiftLeft, Nat.reducePow, Nat.reduceMul,
    Nat.reduceAdd]
  split_ifs <;> simp only [Nat.reducePow] <;> omega

theorem bucketIndx_large {size : ℕ} (h : nbpg < size) : 13 ≤ bucketIndx size := by
  simp only [nbpg] at h
  simp only [bucketIndx, minallocsize, minbucket, Nat.one_shiftLeft, Nat.reducePow, Nat.reduceMul,
    Nat.reduceAdd]
  split_ifs <;> omega

theorem bucketIndx_page {size : ℕ} (h : nbpg < size) (h' : size < maxallocsave) :
    bucketIndx size = 13 := by
  simp only [nbpg, maxallocsave] at h h'
  simp only [bucketIndx, minallocsize, minbucket, Nat.one_shiftLeft, Nat.reducePow, Nat.reduceMul,
    Nat.reduceAdd]
  split_ifs <;> omega

/-- The largest request whose rounding to pages does not wrap around. -/
def maxRequest : ℕ := 2 ^ 32 - nbpg

theorem roundup_spec {size : ℕ} (h : size ≤ maxRequest) :
    size ≤ roundup size ∧ roundup size % nbpg = 0 ∧ roundup size ≤ maxRequest := by
  simp only [maxRequest, nbpg] at h
  simp only [roundup, maxRequest, nbpg]
  omega

theorem toLong_of_lt {n : ℕ} (h : n < 2 ^ 31) : toLong n = n := if_pos h

theorem btoc_toLong {n : ℕ} (h : n % nbpg = 0) (hle : n ≤ maxRequest) :
    btoc (toLong n) = n / nbpg := by
  simp only [maxRequest, nbpg] at h hle
  simp only [btoc, toLong, nbpg]
  split_ifs <;> omega

/-! ## Regions -/

namespace Region

def Contains (r : Region) (a : ℕ) : Prop := r.addr ≤ a ∧ a < r.addr + r.bytes

/-- The regions have no address in common. -/
def Apart (r s : Region) : Prop := r.addr + r.bytes ≤ s.addr ∨ s.addr + s.bytes ≤ r.addr

theorem Apart.symm {r s : Region} (h : r.Apart s) : s.Apart r := Or.symm h

theorem Apart.not_contains {r s : Region} {a : ℕ} (h : r.Apart s) (hr : r.Contains a) :
    ¬ s.Contains a := by
  unfold Apart Contains at *
  omega

/-- Parts of regions that are apart are apart. -/
theorem Apart.mono {r r' s s' : Region} (h : r.Apart s) (hr : r.addr ≤ r'.addr)
    (hr' : r'.addr + r'.bytes ≤ r.addr + r.bytes) (hs : s.addr ≤ s'.addr)
    (hs' : s'.addr + s'.bytes ≤ s.addr + s.bytes) : r'.Apart s' := by
  unfold Apart at *
  omega

end Region

namespace Arena

variable (arena : Arena)

/-- The region consists of whole pages of the arena, as far as its first address goes. -/
def Aligned (r : Region) : Prop :=
  r.addr % nbpg = 0 ∧ arena.kmembase ≤ r.addr ∧ r.addr + r.bytes ≤ arena.kmemlimit

variable {arena} {r s : Region} {a : ℕ}

theorem kuptob_btokup (hr : arena.Aligned r) : arena.kuptob (arena.btokup r.addr) = r.addr := by
  have hbase := arena.kmembase_aligned
  simp only [Aligned, nbpg, kuptob, btokup] at *
  omega

/-- All addresses of a page have one descriptor. -/
theorem btokup_page (hr : arena.Aligned r) (hbytes : r.bytes = nbpg) (ha : r.Contains a) :
    arena.btokup a = arena.btokup r.addr := by
  have hbase := arena.kmembase_aligned
  simp only [Aligned, nbpg, Region.Contains, btokup] at *
  omega

/-- Regions that are apart start at different descriptors. -/
theorem btokup_ne (hr : arena.Aligned r) (hs : arena.Aligned s) (hrpos : 0 < r.bytes)
    (hspos : 0 < s.bytes) (hapart : r.Apart s) : arena.btokup r.addr ≠ arena.btokup s.addr := by
  intro heq
  have haddr : r.addr = s.addr := by rw [← kuptob_btokup hr, heq, kuptob_btokup hs]
  unfold Region.Apart at hapart
  omega

end Arena

/-! ## Elements -/

/-- The elements that a page is cut into. -/
def elements (page indx : ℕ) : List ℕ :=
  (List.range (2 ^ (12 - indx))).map fun n ↦ page + n * 2 ^ indx

theorem two_pow_mul_two_pow {indx : ℕ} (h : indx ≤ 12) : 2 ^ (12 - indx) * 2 ^ indx = nbpg := by
  rw [← pow_add, Nat.sub_add_cancel h]
  rfl

theorem two_pow_dvd_page {page indx : ℕ} (h : indx ≤ 12) (hpage : page % nbpg = 0) :
    2 ^ indx ∣ page :=
  (Dvd.intro_left _ (two_pow_mul_two_pow h)).trans (Nat.dvd_of_mod_eq_zero hpage)

/-- An element does not reach over the end of its page. -/
theorem element_le {page indx a : ℕ} (h : indx ≤ 12) (hpage : page % nbpg = 0)
    (hdvd : 2 ^ indx ∣ a) (hlt : a < page + nbpg) : a + 2 ^ indx ≤ page + nbpg := by
  have hend : 2 ^ indx ∣ page + nbpg :=
    Nat.dvd_add (two_pow_dvd_page h hpage) (Dvd.intro_left _ (two_pow_mul_two_pow h))
  have hpos : 0 < 2 ^ indx := Nat.two_pow_pos indx
  exact Nat.le_of_lt_add_of_dvd (by omega) (Nat.dvd_add hdvd (dvd_refl _)) hend

theorem mem_elements {page indx a : ℕ} (h : indx ≤ 12) (hpage : page % nbpg = 0) :
    a ∈ elements page indx ↔ page ≤ a ∧ a < page + nbpg ∧ 2 ^ indx ∣ a := by
  have hpos : 0 < 2 ^ indx := Nat.two_pow_pos indx
  have hdvd := two_pow_dvd_page h hpage
  rw [elements, List.mem_map, ← two_pow_mul_two_pow h]
  constructor
  · rintro ⟨n, hn, rfl⟩
    have hlt := Nat.mul_lt_mul_of_pos_right (List.mem_range.1 hn) hpos
    exact ⟨Nat.le_add_right .., by omega, Nat.dvd_add hdvd (dvd_mul_left ..)⟩
  · rintro ⟨hle, hlt, ha⟩
    obtain ⟨n, hn⟩ := (Nat.dvd_sub ha hdvd)
    have hmul : a - page = n * 2 ^ indx := hn.trans (mul_comm ..)
    refine ⟨n, List.mem_range.2 (Nat.lt_of_mul_lt_mul_right (a := 2 ^ indx) ?_), by omega⟩
    omega

theorem length_elements (page indx : ℕ) : (elements page indx).length = 2 ^ (12 - indx) := by
  rw [elements, List.length_map, List.length_range]

theorem nodup_elements (page indx : ℕ) : (elements page indx).Nodup :=
  List.nodup_range.map fun _ _ h ↦
    Nat.eq_of_mul_eq_mul_right (Nat.two_pow_pos indx) (Nat.add_left_cancel h)

/-- Different elements of one size do not overlap. -/
theorem elements_apart {indx a b : ℕ} (ha : 2 ^ indx ∣ a) (hb : 2 ^ indx ∣ b) (hne : a ≠ b) :
    Region.Apart ⟨a, 2 ^ indx⟩ ⟨b, 2 ^ indx⟩ := by
  rcases lt_or_gt_of_ne hne with hlt | hlt
  · exact .inl (Nat.le_of_lt_add_of_dvd (by simpa using hlt) (Nat.dvd_add ha (dvd_refl _)) hb)
  · exact .inr (Nat.le_of_lt_add_of_dvd (by simpa using hlt) (Nat.dvd_add hb (dvd_refl _)) ha)

end Bsd386.Kern.Malloc

/-!
# Soundness of the tables

The division of the held pages into free elements and live blocks is given by the bucket lists and
the list of live blocks. The tables are sound when they count this division, and then no two of its
parts overlap.
-/

namespace Bsd386.Kern.Malloc

open Function

/-- A block that `malloc` has returned: its address, what was asked for, and what was charged. -/
structure Block where
  addr : ℕ
  size : ℕ
  type : ℕ
  charged : ℕ
  deriving DecidableEq

/-- The addresses that the block was charged for. -/
def Block.extent (b : Block) : Region := { addr := b.addr, bytes := b.charged }

/-- What the blocks of a type have been charged. -/
def chargedTo (type : ℕ) (live : List Block) : ℕ :=
  ((live.filter fun b ↦ b.type = type).map Block.charged).sum

instance (r : Region) : DecidablePred r.Contains := fun _ ↦ inferInstanceAs (Decidable (_ ∧ _))

instance : Std.Symm Region.Apart := ⟨fun _ _ ↦ Region.Apart.symm⟩

namespace Kernel

variable (k : Kernel) (arena : Arena) (held : List Region)

/-- The descriptor of the page that an address is in. -/
def usage (addr : ℕ) : Kmemusage := k.kmemusage (arena.btokup addr)

/-- The address is that of an element of a page that is cut for the bucket. -/
def Element (indx addr : ℕ) : Prop :=
  ∃ r ∈ held, r.bytes = nbpg ∧ r.Contains addr ∧ 2 ^ indx ∣ addr ∧
    (k.usage arena r.addr).kuIndx = indx

/-- The block has pages of its own. -/
def Large (b : Block) : Prop :=
  b.extent ∈ held ∧ maxallocsave ≤ b.charged ∧ 13 ≤ (k.usage arena b.addr).kuIndx ∧
    b.charged = (k.usage arena b.addr).kuUn * nbpg

/-- The tables describe the held pages, the free elements and the live blocks. -/
structure Sound (free : ℕ → List ℕ) (live : List Block) : Prop where
  aligned : ∀ r ∈ held, arena.Aligned r ∧ 0 < r.bytes
  apart : held.Pairwise Region.Apart
  elmpercl : ∀ i, (k.bucket i).kbElmpercl = (2 ^ (12 - i) : ℕ)
  threaded : ∀ i, Threaded 0 k.mem (k.bucket i).kbNext (free i)
  totalfree : ∀ i, (k.bucket i).kbTotalfree = (free i).length
  cut : ∀ r ∈ held, r.bytes = nbpg → 4 ≤ (k.usage arena r.addr).kuIndx ∧
    (k.usage arena r.addr).kuIndx ≤ 12 ∧
      (k.usage arena r.addr).kuUn = ((free (k.usage arena r.addr).kuIndx).filter r.Contains).length
  element : ∀ i, ∀ a ∈ free i, k.Element arena held i a
  block : ∀ b ∈ live, b.size ≤ b.charged ∧ ((∃ i, k.Element arena held i b.addr ∧
    b.charged = 2 ^ i) ∨ k.Large arena held b)
  not_free : ∀ b ∈ live, ∀ i, b.addr ∉ free i
  nodup : (live.map Block.addr).Nodup
  memuse : ∀ t, (k.kmemstats t).ksMemuse = chargedTo t live

end Kernel

namespace Kernel.Sound

variable {k k' : Kernel} {arena : Arena} {held : List Region} {free : ℕ → List ℕ}
  {live : List Block} {r s : Region} {a c i j : ℕ} {b : Block}

/-! ## Parts of the heap do not overlap -/

theorem region_unique (h : k.Sound arena held free live) (hr : r ∈ held) (hs : s ∈ held)
    (hra : r.Contains a) (hsa : s.Contains a) : r = s := by
  by_contra hne
  exact (h.apart.forall hr hs hne).not_contains hra hsa

/-- The descriptor of an element is that of its page. -/
theorem usage_page (h : k.Sound arena held free live) (hr : r ∈ held) (hbytes : r.bytes = nbpg)
    (ha : r.Contains a) : k.usage arena a = k.usage arena r.addr :=
  congrArg k.kmemusage (Arena.btokup_page (h.aligned r hr).1 hbytes ha)

theorem element_spec (h : k.Sound arena held free live) (ha : k.Element arena held i a) :
    (k.usage arena a).kuIndx = i ∧ 4 ≤ i ∧ i ≤ 12 ∧ 2 ^ i ∣ a := by
  obtain ⟨r, hr, hbytes, hra, hdvd, rfl⟩ := ha
  obtain ⟨hlo, hhi, -⟩ := h.cut r hr hbytes
  exact ⟨congrArg Kmemusage.kuIndx (h.usage_page hr hbytes hra), hlo, hhi, hdvd⟩

/-- An element lies within its page. -/
theorem element_within (h : k.Sound arena held free live) (ha : k.Element arena held i a) :
    ∃ r ∈ held, r.bytes = nbpg ∧ r.Contains a ∧ a + 2 ^ i ≤ r.addr + r.bytes := by
  obtain ⟨-, -, hle, hdvd⟩ := h.element_spec ha
  obtain ⟨r, hr, hbytes, hra, -, -⟩ := ha
  refine ⟨r, hr, hbytes, hra, ?_⟩
  rw [hbytes]
  exact element_le hle (h.aligned r hr).1.1 hdvd (hbytes ▸ hra.2)

theorem element_apart (h : k.Sound arena held free live) (ha : k.Element arena held i a)
    (hc : k.Element arena held j c) (hne : a ≠ c) :
    Region.Apart ⟨a, 2 ^ i⟩ ⟨c, 2 ^ j⟩ := by
  obtain ⟨r, hr, -, hra, har⟩ := h.element_within ha
  obtain ⟨s, hs, -, hsc, hcs⟩ := h.element_within hc
  rcases eq_or_ne r s with rfl | hrs
  · have hspec := h.element_spec ha
    have hij : i = j := by
      obtain ⟨t, ht, -, hta, -, hti⟩ := ha
      obtain ⟨u, hu, -, huc, -, huj⟩ := hc
      rw [← hti, ← huj, h.region_unique ht hr hta hra, h.region_unique hu hr huc hsc]
    subst hij
    exact elements_apart hspec.2.2.2 (h.element_spec hc).2.2.2 hne
  · exact (h.apart.forall hr hs hrs).mono hra.1 har hsc.1 hcs

/-- An element is apart from the pages of a large block. -/
theorem element_large (h : k.Sound arena held free live) (ha : k.Element arena held i a)
    (hb : k.Large arena held b) : Region.Apart ⟨a, 2 ^ i⟩ b.extent := by
  obtain ⟨r, hr, hbytes, hra, har⟩ := h.element_within ha
  have hne : r ≠ b.extent := fun heq ↦ by
    have hlarge := hb.2.1
    rw [heq] at hbytes
    have hcharged : b.charged = nbpg := hbytes
    simp only [maxallocsave, nbpg] at hlarge hcharged
    omega
  exact (h.apart.forall hr hb.1 hne).mono hra.1 har le_rfl le_rfl

/-- A live block overlaps no free element. -/
theorem live_apart_free (h : k.Sound arena held free live) (hb : b ∈ live) (ha : a ∈ free i) :
    b.extent.Apart ⟨a, 2 ^ i⟩ := by
  have hne : b.addr ≠ a := fun heq ↦ h.not_free b hb i (heq ▸ ha)
  rcases (h.block b hb).2 with ⟨j, hj, hcharged⟩ | hlarge
  · have hapart := h.element_apart hj (h.element i a ha) hne
    rwa [← hcharged] at hapart
  · exact (h.element_large (h.element i a ha) hlarge).symm

/-- Two live blocks do not overlap. -/
theorem live_apart (h : k.Sound arena held free live) {b' : Block} (hb : b ∈ live)
    (hb' : b' ∈ live) (hne : b.addr ≠ b'.addr) : b.extent.Apart b'.extent := by
  rcases (h.block b hb).2 with ⟨i, hi, hcharged⟩ | hlarge
  · rcases (h.block b' hb').2 with ⟨j, hj, hcharged'⟩ | hlarge'
    · have hapart := h.element_apart hi hj hne
      rwa [← hcharged, ← hcharged'] at hapart
    · have hapart := h.element_large hi hlarge'
      rwa [← hcharged] at hapart
  · rcases (h.block b' hb').2 with ⟨j, hj, hcharged'⟩ | hlarge'
    · have hapart := (h.element_large hj hlarge).symm
      rwa [← hcharged'] at hapart
    · exact h.apart.forall hlarge.1 hlarge'.1 fun heq ↦ hne (congrArg Region.addr heq)

theorem live_pairwise (h : k.Sound arena held free live) :
    live.Pairwise fun b b' ↦ b.extent.Apart b'.extent := by
  have hnodup : live.Pairwise fun b b' ↦ b.addr ≠ b'.addr := List.pairwise_map.1 h.nodup
  exact hnodup.imp_of_mem fun hb hb' hne ↦ h.live_apart hb hb' hne

/-- A free element is on one list only. -/
theorem free_unique (h : k.Sound arena held free live) (hi : a ∈ free i) (hj : a ∈ free j) :
    i = j :=
  (h.element_spec (h.element i a hi)).1.symm.trans (h.element_spec (h.element j a hj)).1

/-- The free elements of a page are among those it is cut into. -/
theorem free_subset (h : k.Sound arena held free live) (hr : r ∈ held) (hbytes : r.bytes = nbpg) :
    (free i).filter r.Contains ⊆ elements r.addr i := fun a ha ↦ by
  obtain ⟨hfree, hra⟩ := List.mem_filter.1 ha
  obtain ⟨-, -, hle, hdvd⟩ := h.element_spec (h.element i a hfree)
  have hcontains : r.Contains a := by simpa using hra
  refine (mem_elements hle (h.aligned r hr).1.1).2 ⟨hcontains.1, ?_, hdvd⟩
  rw [← hbytes]
  exact hcontains.2

/-- The tables stay sound when nothing is changed that they are sound by. -/
theorem congr (h : k.Sound arena held free live)
    (hnext : ∀ i, (k'.bucket i).kbNext = (k.bucket i).kbNext)
    (htotalfree : ∀ i, (k'.bucket i).kbTotalfree = (k.bucket i).kbTotalfree)
    (helmpercl : ∀ i, (k'.bucket i).kbElmpercl = (k.bucket i).kbElmpercl)
    (hmemuse : ∀ t, (k'.kmemstats t).ksMemuse = (k.kmemstats t).ksMemuse)
    (husage : k'.kmemusage = k.kmemusage) (hmem : ∀ i, ∀ a ∈ free i, k'.mem a = k.mem a) :
    k'.Sound arena held free live := by
  have husage' : k'.usage arena = k.usage arena := by
    funext addr
    exact congrFun husage _
  have helement : k'.Element arena held = k.Element arena held := by
    unfold Element
    rw [husage']
  have hlarge : k'.Large arena held = k.Large arena held := by
    unfold Large
    rw [husage']
  refine ⟨h.aligned, h.apart, fun i ↦ (helmpercl i).trans (h.elmpercl i), fun i ↦ ?_,
    fun i ↦ (htotalfree i).trans (h.totalfree i), ?_, ?_, ?_, h.not_free, h.nodup,
    fun t ↦ (hmemuse t).trans (h.memuse t)⟩
  · rw [hnext i]
    exact (h.threaded i).congr (hmem i)
  · rw [husage']
    exact h.cut
  · rw [helement]
    exact h.element
  · rw [helement, hlarge]
    exact h.block

end Kernel.Sound

end Bsd386.Kern.Malloc
