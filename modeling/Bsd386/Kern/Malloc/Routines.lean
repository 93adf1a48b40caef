import Mathlib.Algebra.Order.Group.Nat
import Mathlib.Tactic.Ring
import Bsd386.Kern.Malloc.Heap

/-!
# The routines keep the tables sound
-/

namespace Bsd386.Kern.Malloc

open Function

theorem chargedTo_cons (t : ℕ) (b : Block) (live : List Block) :
    chargedTo t (b :: live) = (if b.type = t then b.charged else 0) + chargedTo t live := by
  unfold chargedTo
  rw [List.filter_cons]
  by_cases ht : b.type = t
  · rw [if_pos (decide_eq_true ht), if_pos ht, List.map_cons, List.sum_cons]
  · rw [if_neg (by simpa using ht), if_neg ht, zero_add]

theorem chargedTo_erase (t : ℕ) {b : Block} {live : List Block} (hb : b ∈ live) :
    chargedTo t live = (if b.type = t then b.charged else 0) + chargedTo t (live.erase b) := by
  rw [← chargedTo_cons]
  exact (((List.perm_cons_erase hb).filter _).map _).sum_eq

namespace Kernel

variable {k k' : Kernel} {arena : Arena} {held : List Region} {free : ℕ → List ℕ}
  {live live' : List Block} {r s : Region} {a c i j t va : ℕ} {l : List ℕ} {b : Block}
  {call : Call}

/-! ## Fields of the tables -/

@[simp]
theorem onBucket_bucket (f : Kmembuckets → Kmembuckets) :
    (k.onBucket i f).bucket j = if j = i then f (k.bucket i) else k.bucket j :=
  update_apply ..

@[simp]
theorem onStats_kmemstats (f : Kmemstats → Kmemstats) :
    (k.onStats t f).kmemstats j = if j = t then f (k.kmemstats t) else k.kmemstats j :=
  update_apply ..

@[simp]
theorem onUsage_kmemusage (f : Kmemusage → Kmemusage) :
    (k.onUsage i f).kmemusage = update k.kmemusage i (f (k.kmemusage i)) :=
  rfl

@[simp]
theorem onBucket_kmemstats (f : Kmembuckets → Kmembuckets) :
    (k.onBucket i f).kmemstats = k.kmemstats :=
  rfl

@[simp]
theorem onBucket_kmemusage (f : Kmembuckets → Kmembuckets) :
    (k.onBucket i f).kmemusage = k.kmemusage :=
  rfl

@[simp]
theorem onBucket_mem (f : Kmembuckets → Kmembuckets) : (k.onBucket i f).mem = k.mem :=
  rfl

@[simp]
theorem onStats_bucket (f : Kmemstats → Kmemstats) : (k.onStats t f).bucket = k.bucket :=
  rfl

@[simp]
theorem onStats_kmemusage (f : Kmemstats → Kmemstats) :
    (k.onStats t f).kmemusage = k.kmemusage :=
  rfl

@[simp]
theorem onStats_mem (f : Kmemstats → Kmemstats) : (k.onStats t f).mem = k.mem :=
  rfl

@[simp]
theorem onUsage_bucket (f : Kmemusage → Kmemusage) : (k.onUsage i f).bucket = k.bucket :=
  rfl

@[simp]
theorem onUsage_kmemstats (f : Kmemusage → Kmemusage) :
    (k.onUsage i f).kmemstats = k.kmemstats :=
  rfl

@[simp]
theorem onUsage_mem (f : Kmemusage → Kmemusage) : (k.onUsage i f).mem = k.mem :=
  rfl

/-! ## Changes of one page -/

theorem Element.mono {held' : List Region} (h : k.Element arena held i a)
    (hkeep : ∀ r ∈ held, r.bytes = nbpg → r.Contains a →
      r ∈ held' ∧ (k'.usage arena r.addr).kuIndx = (k.usage arena r.addr).kuIndx) :
    k'.Element arena held' i a := by
  obtain ⟨r, hr, hbytes, hra, hdvd, hindx⟩ := h
  obtain ⟨hr', hsame⟩ := hkeep r hr hbytes hra
  exact ⟨r, hr', hbytes, hra, hdvd, hsame.trans hindx⟩

theorem Large.mono {held' : List Region} (h : k.Large arena held b) (hmem : b.extent ∈ held')
    (hsame : k'.usage arena b.addr = k.usage arena b.addr) : k'.Large arena held' b :=
  ⟨hmem, h.2.1, hsame ▸ h.2.2.1, hsame ▸ h.2.2.2⟩

/-- A large block is more than a page. -/
theorem Large.extent_ne (h : k.Large arena held b) (hbytes : r.bytes = nbpg) : b.extent ≠ r :=
  fun heq ↦ by
    have hcharged : b.charged = nbpg := (congrArg Region.bytes heq).trans hbytes
    have hmax := h.2.1
    simp only [maxallocsave, nbpg] at hmax hcharged
    omega

namespace Sound

theorem btokup_ne (h : k.Sound arena held free live) (hr : r ∈ held) (hs : s ∈ held)
    (hne : s ≠ r) : arena.btokup s.addr ≠ arena.btokup r.addr :=
  Arena.btokup_ne (h.aligned s hs).1 (h.aligned r hr).1 (h.aligned s hs).2 (h.aligned r hr).2
    (h.apart.forall hs hr hne)

/-- The list of a bucket changes by elements of one page only. -/
theorem relist (h : k.Sound arena held free live) (hr : r ∈ held) (hbytes : r.bytes = nbpg)
    (hindx : (k.usage arena r.addr).kuIndx = i)
    (husage : k'.kmemusage =
      update k.kmemusage (arena.btokup r.addr) ⟨i, (l.filter r.Contains).length⟩)
    (hbucket : ∀ j, j ≠ i → k'.bucket j = k.bucket j)
    (hthreaded : Threaded 0 k'.mem (k'.bucket i).kbNext l)
    (htotalfree : (k'.bucket i).kbTotalfree = l.length)
    (helmpercl : (k'.bucket i).kbElmpercl = (k.bucket i).kbElmpercl)
    (hmem : ∀ j, j ≠ i → ∀ a ∈ free j, k'.mem a = k.mem a)
    (hothers : ∀ s ∈ held, s ≠ r → l.filter s.Contains = (free i).filter s.Contains)
    (helement : ∀ a ∈ l, k.Element arena held i a)
    (hblock : ∀ b ∈ live', b.size ≤ b.charged ∧ ((∃ i, k.Element arena held i b.addr ∧
      b.charged = 2 ^ i) ∨ k.Large arena held b))
    (hfree : ∀ b ∈ live', ∀ j, b.addr ∉ update free i l j) (hnodup : (live'.map Block.addr).Nodup)
    (hmemuse : ∀ t, (k'.kmemstats t).ksMemuse = chargedTo t live') :
    k'.Sound arena held (update free i l) live' := by
  have hself : k'.usage arena r.addr = ⟨i, (l.filter r.Contains).length⟩ := by
    unfold usage
    rw [husage, update_self]
  have hother : ∀ s ∈ held, s ≠ r → k'.usage arena s.addr = k.usage arena s.addr :=
    fun s hs hne ↦ by
      unfold usage
      rw [husage, update_of_ne (h.btokup_ne hr hs hne)]
  have hkeep : ∀ s ∈ held, (k'.usage arena s.addr).kuIndx = (k.usage arena s.addr).kuIndx :=
    fun s hs ↦ by
      rcases eq_or_ne s r with rfl | hne
      · rw [hself, hindx]
      · rw [hother s hs hne]
  have helement' : ∀ {j a}, k.Element arena held j a → k'.Element arena held j a :=
    fun ha ↦ ha.mono fun s hs _ _ ↦ ⟨hs, hkeep s hs⟩
  have hlarge : ∀ {b}, k.Large arena held b → k'.Large arena held b := fun hb ↦
    hb.mono hb.1 (hother _ hb.1 (hb.extent_ne hbytes))
  refine ⟨h.aligned, h.apart, fun j ↦ ?_, fun j ↦ ?_, fun j ↦ ?_, fun s hs hpage ↦ ?_,
    fun j a ha ↦ ?_, fun b hb ↦ ?_, hfree, hnodup, hmemuse⟩
  · rcases eq_or_ne j i with rfl | hj
    · exact helmpercl.trans (h.elmpercl j)
    · rw [hbucket j hj]
      exact h.elmpercl j
  · rcases eq_or_ne j i with rfl | hj
    · rw [update_self]
      exact hthreaded
    · rw [update_of_ne hj, hbucket j hj]
      exact (h.threaded j).congr (hmem j hj)
  · rcases eq_or_ne j i with rfl | hj
    · rw [update_self]
      exact htotalfree
    · rw [update_of_ne hj, hbucket j hj]
      exact h.totalfree j
  · rcases eq_or_ne s r with rfl | hne
    · have hcut := h.cut s hs hpage
      rw [hindx] at hcut
      rw [hself, update_self]
      exact ⟨hcut.1, hcut.2.1, rfl⟩
    · rw [hother s hs hne]
      have hcut := h.cut s hs hpage
      refine ⟨hcut.1, hcut.2.1, hcut.2.2.trans ?_⟩
      rcases eq_or_ne (k.usage arena s.addr).kuIndx i with hsi | hsi
      · rw [hsi, update_self, hothers s hs hne]
      · rw [update_of_ne hsi]
  · rcases eq_or_ne j i with rfl | hj
    · rw [update_self] at ha
      exact helement' (helement a ha)
    · rw [update_of_ne hj] at ha
      exact helement' (h.element j a ha)
  · obtain ⟨hsize, hplace⟩ := hblock b hb
    refine ⟨hsize, hplace.imp ?_ hlarge⟩
    rintro ⟨j, hj, hcharged⟩
    exact ⟨j, helement' hj, hcharged⟩

/-! ## `malloc` -/

/-- Clearing a live block and counting the call does no harm. -/
theorem mallocOut (h : k.Sound arena held free (b :: live)) (hsize : b.size = call.size) :
    (k.mallocOut call b.addr).2.Sound arena held free (b :: live) ∧
      ∀ t, ((k.mallocOut call b.addr).2.kmemstats t).ksMemuse = (k.kmemstats t).ksMemuse := by
  have hmemuse : ∀ t, ((k.mallocOut call b.addr).2.kmemstats t).ksMemuse =
      (k.kmemstats t).ksMemuse := fun t ↦ by
    unfold Kernel.mallocOut
    rcases eq_or_ne t call.type with rfl | ht
    · split_ifs <;> simp [memset]
    · split_ifs <;> simp [memset, ht]
  have hbucket : ∀ i, ((k.mallocOut call b.addr).2.bucket i).kbNext = (k.bucket i).kbNext ∧
      ((k.mallocOut call b.addr).2.bucket i).kbTotalfree = (k.bucket i).kbTotalfree ∧
        ((k.mallocOut call b.addr).2.bucket i).kbElmpercl = (k.bucket i).kbElmpercl := fun i ↦ by
    unfold Kernel.mallocOut
    rcases eq_or_ne i call.indx with rfl | hi
    · split_ifs <;> simp [memset]
    · split_ifs <;> simp [memset, hi]
  refine ⟨h.congr (fun i ↦ (hbucket i).1) (fun i ↦ (hbucket i).2.1) (fun i ↦ (hbucket i).2.2)
    hmemuse ?_ ?_, hmemuse⟩
  · unfold Kernel.mallocOut
    split_ifs <;> rfl
  · intro i a ha
    have hapart := h.live_apart_free List.mem_cons_self ha
    have hcharged := (h.block b List.mem_cons_self).1
    have houtside : ¬ (b.addr ≤ a ∧ a < b.addr + call.size) := by
      have hpos : 0 < 2 ^ i := Nat.two_pow_pos i
      simp only [Region.Apart, Block.extent] at hapart
      omega
    unfold Kernel.mallocOut
    split_ifs
    · exact if_neg houtside
    · rfl

/-- The first element of the bucket list becomes a live block. -/
theorem mallocTake (h : k.Sound arena held free live) (hfree : free call.indx = a :: l)
    (hsize : call.size ≤ 2 ^ call.indx) :
    ∃ k', k.mallocTake arena call = .ok (.returns a, k') ∧
      k'.Sound arena held (update free call.indx l)
        ({ addr := a, size := call.size, type := call.type, charged := 2 ^ call.indx } :: live) ∧
        (k'.kmemstats call.type).ksMemuse = (k.kmemstats call.type).ksMemuse + 2 ^ call.indx := by
  have hthreaded := h.threaded call.indx
  rw [hfree] at hthreaded
  obtain ⟨hnext, hne, hrest⟩ := hthreaded
  have hmem : a ∈ free call.indx := hfree ▸ List.mem_cons_self
  have helement := h.element call.indx a hmem
  obtain ⟨hindx, -, -, hdvd⟩ := h.element_spec helement
  obtain ⟨r, hr, hbytes, hra, -, hri⟩ := id helement
  have hpage := h.usage_page hr hbytes hra
  have hnodup : (a :: l).Nodup := hfree ▸ (h.threaded call.indx).nodup
  have hcount : (k.usage arena a).kuUn = (l.filter r.Contains).length + 1 := by
    rw [hpage, (h.cut r hr hbytes).2.2, hri, hfree,
      List.filter_cons_of_pos (by simpa using hra), List.length_cons]
  set block : Block :=
    { addr := a, size := call.size, type := call.type, charged := 2 ^ call.indx } with hblock
  -- The tables when the element has been taken
  set k₁ : Kernel := (((k.onBucket call.indx fun kbp ↦ { kbp with kbNext := k.mem a }).onUsage
    (arena.btokup a) fun kup ↦ { kup with kuUn := kup.kuUn - 1 }).onBucket call.indx fun kbp ↦
      { kbp with kbTotalfree := kbp.kbTotalfree - 1 }).onStats call.type fun ksp ↦
        { ksp with ksMemuse := ksp.ksMemuse + (1 <<< call.indx : ℕ) } with hk₁
  have hok : k.mallocTake arena call = .ok (k₁.mallocOut call a) := by
    unfold Kernel.mallocTake
    rw [hnext]
    have hun : (k.usage arena a).kuUn ≠ 0 := by omega
    exact (if_neg (not_not.2 hindx)).trans (if_neg hun)
  have hmemuse : ∀ t, (k₁.kmemstats t).ksMemuse = chargedTo t (block :: live) := fun t ↦ by
    rw [chargedTo_cons, hk₁, onStats_kmemstats]
    by_cases ht : t = call.type
    · rw [if_pos ht, if_pos ht.symm, ht]
      simp only [onBucket_kmemstats, onUsage_kmemstats, h.memuse, Nat.one_shiftLeft, hblock]
      push_cast
      ring
    · rw [if_neg ht, if_neg (Ne.symm ht), zero_add]
      exact h.memuse t
  have hsound : k₁.Sound arena held (update free call.indx l) (block :: live) := by
    refine h.relist hr hbytes hri ?_ (fun j hj ↦ ?_) ?_ ?_ ?_ (fun _ _ _ _ ↦ rfl) ?_ ?_ ?_ ?_ ?_
      hmemuse
    · have hdesc : (k.kmemusage (arena.btokup r.addr)).kuIndx = call.indx := hri
      have hun : (k.kmemusage (arena.btokup r.addr)).kuUn = (l.filter r.Contains).length + 1 :=
        (congrArg Kmemusage.kuUn hpage).symm.trans hcount
      rw [hk₁, onStats_kmemusage, onBucket_kmemusage, onUsage_kmemusage, onBucket_kmemusage,
        Arena.btokup_page (h.aligned r hr).1 hbytes hra, hdesc, hun]
      rfl
    · simp [hk₁, hj]
    · simpa [hk₁] using hrest
    · have htotalfree := h.totalfree call.indx
      rw [hfree, List.length_cons] at htotalfree
      simp [hk₁, htotalfree]
    · simp [hk₁]
    · intro s hs hsr
      rw [hfree, List.filter_cons_of_neg]
      simpa using fun hsa ↦ hsr (h.region_unique hs hr hsa hra)
    · intro c hc
      exact h.element call.indx c (hfree ▸ List.mem_cons_of_mem _ hc)
    · intro b hb
      rcases List.mem_cons.1 hb with rfl | hb
      · exact ⟨hsize, .inl ⟨call.indx, helement, rfl⟩⟩
      · exact h.block b hb
    · intro b hb j
      rcases eq_or_ne j call.indx with rfl | hj
      · rw [update_self]
        rcases List.mem_cons.1 hb with rfl | hb
        · exact (List.nodup_cons.1 hnodup).1
        · exact fun hbl ↦ h.not_free b hb _ (hfree ▸ List.mem_cons_of_mem _ hbl)
      · rw [update_of_ne hj]
        rcases List.mem_cons.1 hb with rfl | hb
        · exact fun hbj ↦ hj (h.free_unique hbj hmem)
        · exact h.not_free b hb j
    · refine List.nodup_cons.2 ⟨fun hb ↦ ?_, h.nodup⟩
      obtain ⟨b, hb, hba⟩ := List.mem_map.1 hb
      exact h.not_free b hb call.indx (hba ▸ hmem)
  obtain ⟨hout, hcharge⟩ := hsound.mallocOut rfl
  refine ⟨_, hok, hout, (hcharge call.type).trans ?_⟩
  simp [hk₁, Nat.one_shiftLeft]

/-- A new region changes no descriptor of the others. -/
theorem usage_new (h : k.Sound arena held free live) (hr : arena.Aligned r) (hpos : 0 < r.bytes)
    (hfresh : ∀ s ∈ held, s.Apart r) {u : Kmemusage}
    (husage : k'.kmemusage = update k.kmemusage (arena.btokup r.addr) u) (hs : s ∈ held) :
    k'.usage arena s.addr = k.usage arena s.addr := by
  unfold usage
  rw [husage, update_of_ne]
  exact Arena.btokup_ne (h.aligned s hs).1 hr (h.aligned s hs).2 hpos (hfresh s hs)

/-- A new page is cut into free elements. -/
theorem addPage (h : k.Sound arena held free live) (hr : arena.Aligned r) (hbytes : r.bytes = nbpg)
    (hfresh : ∀ s ∈ held, s.Apart r) (hlo : 4 ≤ i) (hhi : i ≤ 12)
    (husage : k'.kmemusage = update k.kmemusage (arena.btokup r.addr) ⟨i, 2 ^ (12 - i)⟩)
    (hbucket : ∀ j, j ≠ i → k'.bucket j = k.bucket j)
    (hthreaded : Threaded 0 k'.mem (k'.bucket i).kbNext ((elements r.addr i).reverse ++ free i))
    (htotalfree : (k'.bucket i).kbTotalfree = (k.bucket i).kbTotalfree + (2 ^ (12 - i) : ℕ))
    (helmpercl : (k'.bucket i).kbElmpercl = (k.bucket i).kbElmpercl)
    (hmem : ∀ j, j ≠ i → ∀ a ∈ free j, k'.mem a = k.mem a)
    (hmemuse : ∀ t, (k'.kmemstats t).ksMemuse = (k.kmemstats t).ksMemuse) :
    k'.Sound arena (r :: held) (update free i ((elements r.addr i).reverse ++ free i)) live := by
  have hpos : 0 < r.bytes := hbytes ▸ Nat.zero_lt_succ _
  have hself : k'.usage arena r.addr = ⟨i, 2 ^ (12 - i)⟩ := by
    unfold usage
    rw [husage, update_self]
  have hother : ∀ s ∈ held, k'.usage arena s.addr = k.usage arena s.addr := fun s hs ↦
    h.usage_new hr hpos hfresh husage hs
  have hcontains : ∀ a ∈ elements r.addr i, r.Contains a := fun a ha ↦ by
    obtain ⟨hle, hlt, -⟩ := (mem_elements hhi hr.1).1 ha
    exact ⟨hle, hbytes ▸ hlt⟩
  have hold : ∀ {j a}, k.Element arena held j a → ¬ r.Contains a := by
    rintro j a ⟨s, hs, -, hsa, -⟩
    exact (hfresh s hs).not_contains hsa
  have helement : ∀ {j a}, k.Element arena held j a → k'.Element arena (r :: held) j a :=
    fun ha ↦ ha.mono fun s hs _ _ ↦
      ⟨List.mem_cons_of_mem _ hs, congrArg Kmemusage.kuIndx (hother s hs)⟩
  have hlarge : ∀ {b}, k.Large arena held b → k'.Large arena (r :: held) b := fun hb ↦
    hb.mono (List.mem_cons_of_mem _ hb.1) (hother _ hb.1)
  have hlive : ∀ b ∈ live, ¬ r.Contains b.addr := fun b hb ↦ by
    rcases (h.block b hb).2 with ⟨j, hj, -⟩ | hb'
    · exact hold hj
    · have hpos' := (h.aligned _ hb'.1).2
      exact (hfresh _ hb'.1).not_contains ⟨le_rfl, Nat.lt_add_of_pos_right hpos'⟩
  have hnone : (free i).filter r.Contains = [] := List.filter_eq_nil_iff.2 fun a ha ↦ by
    simpa using hold (h.element i a ha)
  refine ⟨fun s hs ↦ ?_, List.pairwise_cons.2 ⟨fun s hs ↦ (hfresh s hs).symm, h.apart⟩,
    fun j ↦ ?_, fun j ↦ ?_, fun j ↦ ?_, fun s hs hpage ↦ ?_, fun j a ha ↦ ?_, fun b hb ↦ ?_,
    fun b hb j ↦ ?_, h.nodup, fun t ↦ (hmemuse t).trans (h.memuse t)⟩
  · rcases List.mem_cons.1 hs with rfl | hs
    · exact ⟨hr, hpos⟩
    · exact h.aligned s hs
  · rcases eq_or_ne j i with rfl | hj
    · exact helmpercl.trans (h.elmpercl j)
    · rw [hbucket j hj]
      exact h.elmpercl j
  · rcases eq_or_ne j i with rfl | hj
    · rw [update_self]
      exact hthreaded
    · rw [update_of_ne hj, hbucket j hj]
      exact (h.threaded j).congr (hmem j hj)
  · rcases eq_or_ne j i with rfl | hj
    · rw [update_self, htotalfree, h.totalfree, List.length_append, List.length_reverse,
        length_elements]
      push_cast
      ring
    · rw [update_of_ne hj, hbucket j hj]
      exact h.totalfree j
  · rcases List.mem_cons.1 hs with rfl | hs
    · have hall : (elements s.addr i).reverse.filter s.Contains = (elements s.addr i).reverse :=
        List.filter_eq_self.2 fun a ha ↦ by simpa using hcontains a (List.mem_reverse.1 ha)
      rw [hself, update_self, List.filter_append, hall, hnone, List.append_nil,
        List.length_reverse, length_elements]
      exact ⟨hlo, hhi, rfl⟩
    · rw [hother s hs]
      have hcut := h.cut s hs hpage
      refine ⟨hcut.1, hcut.2.1, hcut.2.2.trans ?_⟩
      rcases eq_or_ne (k.usage arena s.addr).kuIndx i with hsi | hsi
      · have hnew : (elements r.addr i).reverse.filter s.Contains = [] :=
          List.filter_eq_nil_iff.2 fun a ha ↦ by
            simpa using (hfresh s hs).symm.not_contains (hcontains a (List.mem_reverse.1 ha))
        rw [hsi, update_self, List.filter_append, hnew, List.nil_append]
      · rw [update_of_ne hsi]
  · rcases eq_or_ne j i with rfl | hj
    · rw [update_self] at ha
      rcases List.mem_append.1 ha with ha | ha
      · have ha := List.mem_reverse.1 ha
        exact ⟨r, List.mem_cons_self, hbytes, hcontains a ha, ((mem_elements hhi hr.1).1 ha).2.2,
          congrArg Kmemusage.kuIndx hself⟩
      · exact helement (h.element j a ha)
    · rw [update_of_ne hj] at ha
      exact helement (h.element j a ha)
  · obtain ⟨hsize, hplace⟩ := h.block b hb
    refine ⟨hsize, hplace.imp ?_ hlarge⟩
    rintro ⟨j, hj, hcharged⟩
    exact ⟨j, helement hj, hcharged⟩
  · rcases eq_or_ne j i with rfl | hj
    · rw [update_self, List.mem_append, List.mem_reverse]
      rintro (hb' | hb')
      · exact hlive b hb (hcontains _ hb')
      · exact h.not_free b hb j hb'
    · rw [update_of_ne hj]
      exact h.not_free b hb j

/-- New pages become a large block. -/
theorem addLarge (h : k.Sound arena held free live) (hr : arena.Aligned r)
    (hmax : maxallocsave ≤ r.bytes) (hfresh : ∀ s ∈ held, s.Apart r) (hi : 13 ≤ i)
    {size type npg : ℕ} (hpages : r.bytes = npg * nbpg) (hsize : size ≤ r.bytes)
    (husage : k'.kmemusage = update k.kmemusage (arena.btokup r.addr) ⟨i, npg⟩)
    (hnext : ∀ j, (k'.bucket j).kbNext = (k.bucket j).kbNext)
    (htotalfree : ∀ j, (k'.bucket j).kbTotalfree = (k.bucket j).kbTotalfree)
    (helmpercl : ∀ j, (k'.bucket j).kbElmpercl = (k.bucket j).kbElmpercl)
    (hmem : k'.mem = k.mem)
    (hmemuse : ∀ t, (k'.kmemstats t).ksMemuse =
      (k.kmemstats t).ksMemuse + if t = type then (r.bytes : ℤ) else 0) :
    k'.Sound arena (r :: held) free
      ({ addr := r.addr, size, type, charged := r.bytes } :: live) := by
  have hpos : 0 < r.bytes := (Nat.zero_lt_succ _).trans_le hmax
  have hself : k'.usage arena r.addr = ⟨i, npg⟩ := by
    unfold usage
    rw [husage, update_self]
  have hother : ∀ s ∈ held, k'.usage arena s.addr = k.usage arena s.addr := fun s hs ↦
    h.usage_new hr hpos hfresh husage hs
  have hfirst : r.Contains r.addr := ⟨le_rfl, Nat.lt_add_of_pos_right hpos⟩
  have hold : ∀ {j a}, k.Element arena held j a → a ≠ r.addr := by
    rintro j a ⟨s, hs, -, hsa, -⟩ rfl
    exact (hfresh s hs).not_contains hsa hfirst
  have helement : ∀ {j a}, k.Element arena held j a → k'.Element arena (r :: held) j a :=
    fun ha ↦ ha.mono fun s hs _ _ ↦
      ⟨List.mem_cons_of_mem _ hs, congrArg Kmemusage.kuIndx (hother s hs)⟩
  have hlarge : ∀ {b}, k.Large arena held b → k'.Large arena (r :: held) b := fun hb ↦
    hb.mono (List.mem_cons_of_mem _ hb.1) (hother _ hb.1)
  refine ⟨fun s hs ↦ ?_, List.pairwise_cons.2 ⟨fun s hs ↦ (hfresh s hs).symm, h.apart⟩,
    fun j ↦ (helmpercl j).trans (h.elmpercl j), fun j ↦ ?_,
    fun j ↦ (htotalfree j).trans (h.totalfree j), fun s hs hpage ↦ ?_,
    fun j a ha ↦ helement (h.element j a ha), fun b hb ↦ ?_, fun b hb j ↦ ?_, ?_, fun t ↦ ?_⟩
  · rcases List.mem_cons.1 hs with rfl | hs
    · exact ⟨hr, hpos⟩
    · exact h.aligned s hs
  · rw [hnext j, hmem]
    exact h.threaded j
  · rcases List.mem_cons.1 hs with rfl | hs
    · simp only [maxallocsave, nbpg] at hmax hpage
      omega
    · rw [hother s hs]
      exact h.cut s hs hpage
  · rcases List.mem_cons.1 hb with rfl | hb
    · refine ⟨hsize, .inr ⟨List.mem_cons_self, hmax, ?_, ?_⟩⟩
      · rw [hself]
        exact hi
      · rw [hself]
        exact hpages
    · obtain ⟨hsize, hplace⟩ := h.block b hb
      refine ⟨hsize, hplace.imp ?_ hlarge⟩
      rintro ⟨j, hj, hcharged⟩
      exact ⟨j, helement hj, hcharged⟩
  · rcases List.mem_cons.1 hb with rfl | hb
    · exact fun hfree ↦ hold (h.element j _ hfree) rfl
    · exact h.not_free b hb j
  · refine List.nodup_cons.2 ⟨fun hb ↦ ?_, h.nodup⟩
    obtain ⟨b, hb, haddr⟩ := List.mem_map.1 hb
    rcases (h.block b hb).2 with ⟨j, hj, -⟩ | hb'
    · exact hold hj haddr
    · have hpos' := (h.aligned _ hb'.1).2
      have hcontains : b.extent.Contains r.addr :=
        ⟨haddr.le, haddr.symm.trans_lt (Nat.lt_add_of_pos_right hpos')⟩
      exact (hfresh _ hb'.1).not_contains hcontains hfirst
  · rw [hmemuse t, chargedTo_cons, h.memuse t]
    rcases eq_or_ne t type with rfl | ht
    · rw [if_pos rfl, if_pos rfl]
      push_cast
      ring
    · rw [if_neg ht, if_neg (Ne.symm ht), zero_add, add_zero]

end Sound

end Kernel

end Bsd386.Kern.Malloc
