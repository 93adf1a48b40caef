import Bsd386.Kern.Malloc.Routines

/-!
# New pages

What `malloc` does with the pages that `kmem_alloc` has returned, while other calls may have filled
the bucket list.
-/

namespace Bsd386.Kern.Malloc

open Function

variable {k : Kernel} {arena : Arena} {held : List Region} {free : ℕ → List ℕ}
  {live : List Block} {call : Call} {mem : ℕ → ℕ} {l : List ℕ} {va : ℕ}

/-! ## Sizes of a call -/

theorem Call.small (h : call.size ≤ nbpg) :
    call.allocsize = (2 ^ call.indx : ℕ) ∧ call.npg = 1 ∧ 4 ≤ call.indx ∧ call.indx ≤ 12 ∧
      call.size ≤ 2 ^ call.indx := by
  obtain ⟨hlo, hhi, hsize⟩ := bucketIndx_small h
  have hmax : ¬ maxallocsave ≤ call.size := by
    simp only [maxallocsave, nbpg] at *
    omega
  have halloc : call.allocsize = (2 ^ call.indx : ℕ) := by
    rw [allocsize, if_neg hmax, Nat.one_shiftLeft]
  refine ⟨halloc, ?_, hlo, hhi, hsize⟩
  have hle : 2 ^ call.indx ≤ nbpg := by
    rw [← two_pow_mul_two_pow hhi]
    exact Nat.le_mul_of_pos_left _ (Nat.two_pow_pos _)
  have hpos : 0 < 2 ^ call.indx := Nat.two_pow_pos _
  rw [npg, halloc, btoc]
  simp only [nbpg] at *
  omega

/-- A request of more than a page gets whole pages, and at least two. -/
theorem Call.large (h : nbpg < call.size) (hmax : call.size ≤ maxRequest) :
    ∃ n, call.allocsize = toLong n ∧ ctob call.npg = n ∧ n = call.npg * nbpg ∧ call.size ≤ n ∧
      maxallocsave ≤ n ∧ 13 ≤ call.indx := by
  have hindx : 13 ≤ call.indx := bucketIndx_large h
  by_cases hlarge : maxallocsave ≤ call.size
  · obtain ⟨hsize, haligned, hround⟩ := roundup_spec hmax
    have hnpg : call.npg = roundup call.size / nbpg := by
      rw [npg, allocsize, if_pos hlarge, btoc_toLong haligned hround]
    have hmul : roundup call.size = call.npg * nbpg := by
      rw [hnpg, Nat.div_mul_cancel (Nat.dvd_of_mod_eq_zero haligned)]
    exact ⟨roundup call.size, if_pos hlarge, hmul.symm, hmul, hsize, hlarge.trans hsize, hindx⟩
  · have hpage : call.indx = 13 := bucketIndx_page h (Nat.lt_of_not_le hlarge)
    have halloc : call.allocsize = toLong maxallocsave := by
      rw [allocsize, if_neg hlarge, hpage]
      rfl
    have hnpg : call.npg = 2 := by
      rw [npg, halloc]
      rfl
    refine ⟨maxallocsave, halloc, ?_, ?_, (Nat.lt_of_not_le hlarge).le, le_rfl, hindx⟩
    · rw [hnpg]
      rfl
    · rw [hnpg]
      rfl

/-! ## Threading a page -/

/-- The loop threads the elements in front of the saved list. -/
theorem Kernel.thread_spec {size saved : ℕ} (hva : va ≠ 0) (hsize : 0 < size) (n turns : ℕ)
    (hturns : n < turns) (hsaved : Threaded 0 mem saved l)
    (hl : ∀ m ≤ n, va + m * size ∉ l) :
    ∃ mem', Kernel.thread va size saved turns (va + n * size) mem = .ok mem' ∧
      Threaded 0 mem' (va + n * size)
        (((List.range (n + 1)).map fun m ↦ va + m * size).reverse ++ l) ∧
        ∀ a, (∀ m ≤ n, a ≠ va + m * size) → mem' a = mem a := by
  induction n generalizing turns mem with
  | zero =>
    obtain ⟨turns, rfl⟩ := Nat.exists_eq_add_of_lt hturns
    have hcp : va + 0 * size = va := by rw [zero_mul, add_zero]
    have hnot : va ∉ l := hcp ▸ hl 0 le_rfl
    rw [hcp]
    refine ⟨update mem va saved, ?_, ?_, fun a ha ↦ ?_⟩
    · rw [Nat.zero_add, Kernel.thread, if_neg (lt_irrefl va)]
    · have hfirst : ((List.range (0 + 1)).map fun m ↦ va + m * size).reverse = [va] := by
        rw [zero_add, List.range_one, List.map_singleton, List.reverse_singleton, hcp]
      rw [hfirst]
      exact hsaved.push hva hnot
    · exact update_of_ne (hcp ▸ ha 0 le_rfl) ..
  | succ n ih =>
    obtain ⟨turns, rfl⟩ : ∃ t, turns = t + 1 := ⟨turns - 1, by omega⟩
    set cp := va + (n + 1) * size with hcp
    have hstep : cp - size = va + n * size := by
      rw [hcp, Nat.succ_mul, ← Nat.add_assoc, Nat.add_sub_cancel]
    have hlt : va < cp := Nat.lt_add_of_pos_right (Nat.mul_pos (Nat.succ_pos n) hsize)
    have hne : ∀ m ≤ n, cp ≠ va + m * size := fun m hm heq ↦ by
      have hmul := Nat.eq_of_mul_eq_mul_right hsize (Nat.add_left_cancel heq)
      omega
    obtain ⟨mem', hok, hthreaded, hsame⟩ := ih turns (by omega)
      (hsaved.store (hl (n + 1) le_rfl) (cp - size)) fun m hm ↦ hl m (Nat.le_succ_of_le hm)
    refine ⟨mem', ?_, ?_, fun a ha ↦ ?_⟩
    · rw [Kernel.thread, if_pos hlt, hstep]
      rw [hstep] at hok
      exact hok
    · rw [List.range_succ, List.map_append, List.reverse_append]
      refine Threaded.cons (by omega) ?_
      rw [hsame cp hne, update_self, hstep]
      exact hthreaded
    · rw [hsame a fun m hm ↦ ha m (Nat.le_succ_of_le hm)]
      exact update_of_ne (ha (n + 1) le_rfl) ..

namespace Kernel.Sound

/-! ## The pages of a call -/

/-- A request of up to a page takes an element of the new page. -/
theorem mallocFill_small (h : k.Sound arena held free live) (hsize : call.size ≤ nbpg)
    {r : Region} (hr : arena.Aligned r) (hbytes : r.bytes = ctob call.npg)
    (hfresh : ∀ s ∈ held, s.Apart r) :
    ∃ a k', k.mallocFill arena call r.addr = .ok (.returns a, k') ∧ ∃ free',
      k'.Sound arena (r :: held) free'
        ({ addr := a, size := call.size, type := call.type, charged := 2 ^ call.indx } :: live) ∧
        (k'.kmemstats call.type).ksMemuse = (k.kmemstats call.type).ksMemuse + 2 ^ call.indx := by
  obtain ⟨halloc, hnpg, hlo, hhi, hfit⟩ := Call.small hsize
  set i := call.indx with hi
  have hpage : r.bytes = nbpg := by
    rw [hbytes, hnpg]
    rfl
  have hva : r.addr ≠ 0 := (arena.kmembase_pos.trans_le hr.2.1).ne'
  have hpow : 0 < 2 ^ i := Nat.two_pow_pos i
  have hmul := two_pow_mul_two_pow hhi
  have hcount : 2 ^ (12 - i) - 1 + 1 = 2 ^ (12 - i) := Nat.sub_add_cancel (Nat.two_pow_pos _)
  have hlast : r.addr + call.npg * nbpg - call.allocsize.toNat =
      r.addr + (2 ^ (12 - i) - 1) * 2 ^ i := by
    rw [halloc, hnpg, one_mul, Int.toNat_natCast, Nat.sub_mul, one_mul, hmul, Nat.add_sub_assoc]
    exact hmul ▸ Nat.le_mul_of_pos_left _ (Nat.two_pow_pos _)
  -- The elements of the new page are on no list
  have hnew : ∀ {j a}, a ∈ free j → a ∉ elements r.addr i := fun {j a} ha hmem ↦ by
    obtain ⟨s, hs, -, hsa, -⟩ := h.element j a ha
    obtain ⟨hle, hlt, -⟩ := (mem_elements hhi hr.1).1 hmem
    exact (hfresh s hs).not_contains hsa ⟨hle, hpage ▸ hlt⟩
  have hmem : ∀ m ≤ 2 ^ (12 - i) - 1, r.addr + m * 2 ^ i ∈ elements r.addr i := fun m hm ↦
    List.mem_map.2 ⟨m, List.mem_range.2 (by omega), rfl⟩
  obtain ⟨mem', hok, hthreaded, hsame⟩ := Kernel.thread_spec hva hpow (2 ^ (12 - i) - 1)
    (call.npg * nbpg + 1)
    (by
      have hle : 2 ^ (12 - i) ≤ nbpg := hmul ▸ Nat.le_mul_of_pos_right _ hpow
      rw [hnpg, one_mul]
      omega)
    (h.threaded i) fun m hm hl ↦ hnew hl (hmem m hm)
  -- The tables before the first element is taken
  set k₁ : Kernel := { ((((k.onBucket i fun kbp ↦
      { kbp with kbTotal := kbp.kbTotal + kbp.kbElmpercl }).onUsage (arena.btokup r.addr)
      fun kup ↦ { kup with kuIndx := i }).onUsage (arena.btokup r.addr) fun kup ↦
      { kup with kuUn := ((k.bucket i).kbElmpercl % 2 ^ 16).toNat }).onBucket i fun kbp ↦
      { kbp with kbTotalfree := kbp.kbTotalfree + kbp.kbElmpercl }).onBucket i fun kbp ↦
      { kbp with kbNext := r.addr + (2 ^ (12 - i) - 1) * 2 ^ i } with mem := mem' } with hk₁
  have hunfold : k.mallocFill arena call r.addr = k₁.mallocTake arena call := by
    have hsmall : ¬ (maxallocsave : ℤ) ≤ call.allocsize := by
      rw [halloc]
      have hle : 2 ^ i ≤ nbpg := hmul ▸ Nat.le_mul_of_pos_left _ (Nat.two_pow_pos _)
      simp only [maxallocsave, nbpg] at *
      omega
    unfold Kernel.mallocFill
    rw [if_neg hva]
    simp only [if_neg hsmall, ← hi, hlast, onBucket_bucket, onUsage_bucket, onBucket_mem,
      onUsage_mem, if_true]
    rw [halloc, Int.toNat_natCast, hok]
    rfl
  have hmod : ((2 ^ (12 - i) : ℕ) : ℤ) % 2 ^ 16 = (2 ^ (12 - i) : ℕ) := by
    have hle : 2 ^ (12 - i) ≤ nbpg := hmul ▸ Nat.le_mul_of_pos_right _ hpow
    simp only [nbpg] at hle
    omega
  have hsound : k₁.Sound arena (r :: held)
      (update free i ((elements r.addr i).reverse ++ free i)) live := by
    refine h.addPage hr hpage hfresh hlo hhi ?_ (fun j hj ↦ ?_) ?_ ?_ ?_ (fun j _ a ha ↦ ?_)
      fun t ↦ rfl
    · simp only [hk₁, onBucket_kmemusage, onUsage_kmemusage, update_self, update_idem, h.elmpercl,
        hmod, Int.toNat_natCast]
    · simp [hk₁, hj]
    · rw [elements]
      rw [hcount] at hthreaded
      simpa [hk₁] using hthreaded
    · simp [hk₁, h.elmpercl]
    · simp [hk₁]
    · exact hsame a fun m hm heq ↦ hnew ha (heq ▸ hmem m hm)
  obtain ⟨a, l, hlist⟩ : ∃ a l, (elements r.addr i).reverse ++ free i = a :: l := by
    have hlength : 0 < ((elements r.addr i).reverse ++ free i).length := by
      rw [List.length_append, List.length_reverse, length_elements]
      exact Nat.add_pos_left (Nat.two_pow_pos _) _
    exact List.exists_cons_of_length_pos hlength
  obtain ⟨k', htake, hsound', hcharge⟩ := hsound.mallocTake
    (by rw [← hi, update_self, hlist]) hfit
  exact ⟨a, k', hunfold.trans htake, _, hsound', hcharge⟩

/-- A larger request gets the pages as they are. -/
theorem mallocFill_large (h : k.Sound arena held free live) (hsize : nbpg < call.size)
    (hmax : call.size ≤ maxRequest) {r : Region} (hr : arena.Aligned r)
    (hbytes : r.bytes = ctob call.npg) (hfresh : ∀ s ∈ held, s.Apart r) :
    ∃ k', k.mallocFill arena call r.addr = .ok (.returns r.addr, k') ∧
      k'.Sound arena (r :: held) free
        ({ addr := r.addr, size := call.size, type := call.type, charged := r.bytes } :: live) ∧
        (k'.kmemstats call.type).ksMemuse = (k.kmemstats call.type).ksMemuse + r.bytes := by
  obtain ⟨n, halloc, hctob, hmul, hfit, hlarge, hindx⟩ := Call.large hsize hmax
  rw [hctob] at hbytes
  have hva : r.addr ≠ 0 := (arena.kmembase_pos.trans_le hr.2.1).ne'
  have hn : n ≤ vmKmemSize := by
    have hend := hr.2.2
    have hstart := hr.2.1
    simp only [Arena.kmemlimit] at hend
    omega
  have halloc' : call.allocsize = (r.bytes : ℤ) := by
    rw [halloc, hbytes]
    simp only [vmKmemSize] at hn
    exact toLong_of_lt (by omega)
  have hcheck : (maxallocsave : ℤ) ≤ call.allocsize := by
    rw [halloc', hbytes]
    exact_mod_cast hlarge
  have hnpg : ¬ 65535 < call.npg := by
    simp only [nbpg, vmKmemSize] at hmul hn
    omega
  set k₁ : Kernel := (((k.onBucket call.indx fun kbp ↦
      { kbp with kbTotal := kbp.kbTotal + kbp.kbElmpercl }).onUsage (arena.btokup r.addr)
      fun kup ↦ { kup with kuIndx := call.indx }).onUsage (arena.btokup r.addr)
      fun kup ↦ { kup with kuUn := call.npg }).onStats call.type fun ksp ↦
      { ksp with ksMemuse := ksp.ksMemuse + call.allocsize } with hk₁
  have hunfold : k.mallocFill arena call r.addr = .ok (k₁.mallocOut call r.addr) :=
    (if_neg hva).trans ((if_pos hcheck).trans (if_neg hnpg))
  have hbucket : ∀ j, (k₁.bucket j).kbNext = (k.bucket j).kbNext ∧
      (k₁.bucket j).kbTotalfree = (k.bucket j).kbTotalfree ∧
        (k₁.bucket j).kbElmpercl = (k.bucket j).kbElmpercl := fun j ↦ by
    rcases eq_or_ne j call.indx with rfl | hj
    · simp [hk₁]
    · simp [hk₁, hj]
  have hsound : k₁.Sound arena (r :: held) free
      ({ addr := r.addr, size := call.size, type := call.type, charged := r.bytes } :: live) := by
    refine h.addLarge hr (hbytes ▸ hlarge) hfresh hindx (hbytes.trans hmul)
      (hbytes ▸ hfit) ?_ (fun j ↦ (hbucket j).1) (fun j ↦ (hbucket j).2.1)
      (fun j ↦ (hbucket j).2.2) rfl fun t ↦ ?_
    · simp only [hk₁, onStats_kmemusage, onUsage_kmemusage, onBucket_kmemusage, update_self,
        update_idem]
    · rw [hk₁, onStats_kmemstats]
      rcases eq_or_ne t call.type with rfl | ht
      · simp [halloc']
      · simp [ht]
  obtain ⟨hout, hcharge⟩ := hsound.mallocOut (rfl : _ = call.size)
  refine ⟨_, hunfold, hout, (hcharge call.type).trans ?_⟩
  simp [hk₁, halloc']

end Kernel.Sound

end Bsd386.Kern.Malloc
