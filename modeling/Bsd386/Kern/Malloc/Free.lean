import Mathlib.Data.List.TakeWhile
import Bsd386.Kern.Malloc.Fill

/-!
# Freeing

A freed element goes to the head of its bucket list, unless its page is then wholly free and the
bucket has enough without it. In that case the elements of the page are taken off the bucket list
one run after the other, and the page goes back to where it came from.
-/

namespace Bsd386.Kern.Malloc

open Function

/-! ## The walk along a bucket list -/

namespace Walk

variable {w : Walk} {r : Region} {l t : List ℕ} {c cpp : Cell} {a nxt turns : ℕ}

/-- The cell is not in an element of the list. -/
def Outside (l : List ℕ) : Cell → Prop
  | .kbNext => True
  | .word a => a ∉ l

theorem Outside.mono (h : Outside l c) (hsub : t ⊆ l) : Outside t c := by
  cases c with
  | kbNext => trivial
  | word a => exact fun ha ↦ h (hsub ha)

theorem count_eq (hpos : 0 < w.freecnt) (hlt : w.freecnt < 2 ^ 16) :
    w.count = { w with freecnt := w.freecnt - 1 } := by
  have hmod : (w.freecnt + 65535) % 2 ^ 16 = w.freecnt - 1 := by omega
  rw [count, hmod]

theorem load_store (value : ℕ) : (w.store value cpp).load cpp = value := by
  cases cpp with
  | kbNext => rfl
  | word a => exact update_self ..

theorem load_store_of_ne (value : ℕ) (hne : c ≠ cpp) : (w.store value cpp).load c = w.load c := by
  cases cpp with
  | kbNext =>
    cases c with
    | kbNext => exact absurd rfl hne
    | word a => rfl
  | word b =>
    cases c with
    | kbNext => rfl
    | word a => exact update_of_ne (fun heq ↦ hne (congrArg Cell.word heq)) ..

theorem mem_store (value : ℕ) (hout : Outside l cpp) (ha : a ∈ l) :
    (w.store value cpp).mem a = w.mem a := by
  cases cpp with
  | kbNext => rfl
  | word b => exact update_of_ne (ne_of_mem_of_not_mem ha hout) ..

/-- The inner loop stops at the last element of the run. -/
theorem skip_spec (hzero : ¬ r.Contains 0) (hlist : Threaded 0 w.mem (w.mem nxt) t)
    (hturns : t.length < turns) (hcount : (t.takeWhile r.Contains).length ≤ w.freecnt)
    (hlt : w.freecnt < 2 ^ 16) :
    ∃ last, w.skip r.addr r.bytes turns nxt = .ok
        (last, { w with freecnt := w.freecnt - (t.takeWhile r.Contains).length }) ∧
      Threaded 0 w.mem (w.mem last) (t.dropWhile r.Contains) := by
  obtain ⟨turns, rfl⟩ : ∃ n, turns = n + 1 := ⟨turns - 1, by omega⟩
  induction t generalizing nxt w turns with
  | nil =>
    refine ⟨nxt, ?_, hlist⟩
    have hstop : ¬ r.Contains (w.mem nxt) := by
      rw [show w.mem nxt = 0 from hlist]
      exact hzero
    exact if_neg hstop
  | cons b t ih =>
    obtain ⟨hb, hne, hrest⟩ := hlist
    by_cases hrb : r.Contains b
    · have hlength : (t.takeWhile r.Contains).length + 1 ≤ w.freecnt := by
        rwa [List.takeWhile_cons_of_pos (by simpa using hrb), List.length_cons] at hcount
      rw [List.takeWhile_cons_of_pos (by simpa using hrb),
        List.dropWhile_cons_of_pos (by simpa using hrb), List.length_cons]
      rw [List.length_cons] at hturns
      obtain ⟨turns, rfl⟩ : ∃ n, turns = n + 1 := ⟨turns - 1, by omega⟩
      have hstep : w.skip r.addr r.bytes (turns + 1 + 1) nxt =
          Walk.skip r.addr r.bytes (turns + 1) b { w with freecnt := w.freecnt - 1 } := by
        rw [← count_eq (by omega) hlt, skip, if_pos (hb ▸ hrb), hb]
      obtain ⟨last, hok, hlast⟩ := ih (w := { w with freecnt := w.freecnt - 1 }) hrest
        (Nat.le_sub_one_of_lt hlength) ((Nat.sub_le ..).trans_lt hlt) turns (by omega)
      refine ⟨last, ?_, hlast⟩
      rw [hstep, hok, Nat.sub_sub, Nat.add_comm 1]
    · rw [List.takeWhile_cons_of_neg (by simpa using hrb),
        List.dropWhile_cons_of_neg (by simpa using hrb)]
      exact ⟨nxt, if_neg (hb ▸ hrb), hb, hne, hrest⟩

/-- The walk takes the elements of the region off the list and counts them. -/
theorem unthread_spec (hzero : ¬ r.Contains 0) (hlist : Threaded 0 w.mem (w.load cpp) l)
    (hout : Outside l cpp) (hturns : l.length < turns)
    (hcount : (l.filter r.Contains).length ≤ w.freecnt) (hlt : w.freecnt < 2 ^ 16) :
    ∃ w', w.unthread r.addr r.bytes turns cpp = .ok w' ∧
      Threaded 0 w'.mem (w'.load cpp) (l.filter fun a ↦ ¬ r.Contains a) ∧
        w'.freecnt = w.freecnt - (l.filter r.Contains).length ∧
          ∀ c, c ≠ cpp → Outside l c → w'.load c = w.load c := by
  induction turns generalizing w l cpp with
  | zero => exact absurd hturns (Nat.not_lt_zero _)
  | succ turns ih =>
    cases l with
    | nil =>
      refine ⟨w, if_pos hlist, hlist, rfl, fun c _ _ ↦ rfl⟩
    | cons a t =>
      have hnodup := List.nodup_cons.1 hlist.nodup
      obtain ⟨ha, hne, hrest⟩ := hlist
      have hload : w.load cpp ≠ 0 := ha ▸ hne
      rw [List.length_cons] at hturns
      by_cases hra : r.Contains a
      · have hin : (a :: t).filter r.Contains = a :: t.filter r.Contains :=
          List.filter_cons_of_pos (by simpa using hra)
        have hnotin : (a :: t).filter (fun a ↦ ¬ r.Contains a) = t.filter fun a ↦ ¬ r.Contains a :=
          List.filter_cons_of_neg (by simpa using hra)
        rw [hin, List.length_cons] at hcount
        rw [hin, hnotin, List.length_cons]
        -- The run that starts at `a`, and what comes after it
        have hsplit := List.takeWhile_append_dropWhile (p := fun a ↦ r.Contains a) (l := t)
        have hrun : ∀ c ∈ t.takeWhile r.Contains, r.Contains c := fun c hc ↦ by
          simpa using List.mem_takeWhile_imp hc
        have hfilter : t.filter r.Contains =
            t.takeWhile r.Contains ++ (t.dropWhile r.Contains).filter r.Contains := by
          conv_lhs => rw [← hsplit]
          rw [List.filter_append, List.filter_eq_self.2 fun c hc ↦ by simpa using hrun c hc]
        have hkeep : t.filter (fun a ↦ ¬ r.Contains a) =
            (t.dropWhile r.Contains).filter fun a ↦ ¬ r.Contains a := by
          conv_lhs => rw [← hsplit]
          rw [List.filter_append, List.filter_eq_nil_iff.2 fun c hc ↦ by simpa using hrun c hc,
            List.nil_append]
        have hlength := congrArg List.length hfilter
        rw [List.length_append] at hlength
        have hsub : t.dropWhile r.Contains ⊆ a :: t :=
          fun c hc ↦ List.mem_cons_of_mem _ (List.dropWhile_subset _ hc)
        obtain ⟨last, hskip, hlast⟩ := skip_spec hzero hrest
          ((Nat.lt_succ_self _).trans hturns) (by omega) hlt
        set w₁ : Walk := { w with freecnt := w.freecnt - (t.takeWhile r.Contains).length } with hw₁
        set w₂ : Walk := { w₁.store (w.mem last) cpp with
          freecnt := w.freecnt - (t.takeWhile r.Contains).length - 1 } with hw₂
        have hfree₁ : w₁.freecnt = w.freecnt - (t.takeWhile r.Contains).length := rfl
        have hfree₂ : w₂.freecnt = w.freecnt - (t.takeWhile r.Contains).length - 1 := rfl
        have hcount₁ : (w₁.store (w.mem last) cpp).count = w₂ := by
          have hfreecnt : (w₁.store (w.mem last) cpp).freecnt = w₁.freecnt := by
            cases cpp <;> rfl
          rw [count_eq (by omega) (by omega), hfreecnt]
        have hmem₂ : ∀ c ∈ t.dropWhile r.Contains, w₂.mem c = w.mem c := fun c hc ↦
          mem_store (w.mem last) hout (hsub hc)
        have hnext₂ : w₂.load cpp = w.mem last := by
          have hstore : (w₁.store (w.mem last) cpp).load cpp = w.mem last := load_store _
          rw [← hstore]
          cases cpp <;> rfl
        have hlast₂ : Threaded 0 w₂.mem (w₂.load cpp) (t.dropWhile r.Contains) := by
          rw [hnext₂]
          exact hlast.congr hmem₂
        obtain ⟨w', hok, hthreaded, hfreecnt, hframe⟩ := ih hlast₂ (hout.mono hsub)
          ((List.dropWhile_sublist _).length_le.trans_lt (by omega)) (by omega) (by omega)
        refine ⟨w', ?_, ?_, ?_, fun c hc hcout ↦ ?_⟩
        · have hpage : r.addr ≤ w.load cpp ∧ w.load cpp < r.addr + r.bytes := ha ▸ hra
          rw [unthread, if_neg hload, if_pos hpage, ha, hskip]
          exact (congrArg (Walk.unthread r.addr r.bytes turns cpp) hcount₁).trans hok
        · rw [hkeep]
          exact hthreaded
        · rw [hfreecnt]
          omega
        · have hstore : (w₁.store (w.mem last) cpp).load c = w₁.load c := load_store_of_ne _ hc
          rw [hframe c hc (hcout.mono hsub)]
          calc
            w₂.load c = (w₁.store (w.mem last) cpp).load c := by cases c <;> rfl
            _ = w.load c := hstore.trans (by cases c <;> rfl)
      · have hin : (a :: t).filter r.Contains = t.filter r.Contains :=
          List.filter_cons_of_neg (by simpa using hra)
        have hnotin : (a :: t).filter (fun a ↦ ¬ r.Contains a) =
            a :: t.filter fun a ↦ ¬ r.Contains a :=
          List.filter_cons_of_pos (by simpa using hra)
        rw [hin] at hcount
        rw [hin, hnotin]
        obtain ⟨w', hok, hthreaded, hfreecnt, hframe⟩ :=
          ih (show Threaded 0 w.mem (w.load (.word a)) t from hrest) hnodup.1 (by omega) hcount hlt
        have hsub : t ⊆ a :: t := List.subset_cons_self a t
        have hcpp : cpp ≠ .word a := by
          rintro rfl
          exact hout List.mem_cons_self
        refine ⟨w', ?_, ?_, hfreecnt, fun c _ hcout ↦ hframe c ?_ (hcout.mono hsub)⟩
        · have hpage : ¬ (r.addr ≤ w.load cpp ∧ w.load cpp < r.addr + r.bytes) := ha ▸ hra
          rw [unthread, if_neg hload, if_neg hpage, ha]
          exact hok
        · rw [hframe cpp hcpp (hout.mono hsub), ha]
          exact hthreaded.cons hne
        · rintro rfl
          exact hcout List.mem_cons_self

end Walk

variable {k k' : Kernel} {arena : Arena} {held : List Region} {free : ℕ → List ℕ}
  {live : List Block} {b : Block} {r : Region} {i : ℕ}

/-- The regions held after one may have been given back. -/
def giveBack (held : List Region) : Option Region → List Region
  | none => held
  | some r => held.erase r

namespace Kernel.Sound

/-! ## What a freed block leaves -/

/-- A live block lies within a held region. -/
theorem live_within (h : k.Sound arena held free live) (hb : b ∈ live) :
    ∃ s ∈ held, s.addr ≤ b.addr ∧ b.addr + b.charged ≤ s.addr + s.bytes := by
  rcases (h.block b hb).2 with ⟨i, hi, hcharged⟩ | hlarge
  · obtain ⟨s, hs, -, hsb, hend⟩ := h.element_within hi
    exact ⟨s, hs, hsb.1, hcharged ▸ hend⟩
  · exact ⟨b.extent, hlarge.1, le_rfl, le_rfl⟩

theorem held_nodup (h : k.Sound arena held free live) : held.Nodup :=
  h.apart.imp_of_mem fun hr _ hapart heq ↦ by
    have hpos := (h.aligned _ hr).2
    rw [← heq] at hapart
    unfold Region.Apart at hapart
    omega

theorem mem_erase (h : k.Sound arena held free live) {s : Region} :
    s ∈ held.erase r ↔ s ≠ r ∧ s ∈ held :=
  h.held_nodup.mem_erase_iff

/-- A region without live blocks can be given back, its elements being taken off the lists. -/
theorem removeRegion (h : k.Sound arena held free live) (hr : r ∈ held) (hb : b ∈ live)
    (hlive : ∀ b' ∈ live.erase b, ¬ r.Contains b'.addr) {u : Kmemusage}
    (husage : k'.kmemusage = update k.kmemusage (arena.btokup r.addr) u)
    (hthreaded : ∀ j, Threaded 0 k'.mem (k'.bucket j).kbNext
      ((free j).filter fun a ↦ ¬ r.Contains a))
    (htotalfree : ∀ j, (k'.bucket j).kbTotalfree = ((free j).filter fun a ↦ ¬ r.Contains a).length)
    (helmpercl : ∀ j, (k'.bucket j).kbElmpercl = (k.bucket j).kbElmpercl)
    (hmemuse : ∀ t, (k'.kmemstats t).ksMemuse =
      (k.kmemstats t).ksMemuse - if b.type = t then (b.charged : ℤ) else 0) :
    k'.Sound arena (held.erase r) (fun j ↦ (free j).filter fun a ↦ ¬ r.Contains a)
      (live.erase b) := by
  have hother : ∀ s ∈ held, s ≠ r → k'.usage arena s.addr = k.usage arena s.addr :=
    fun s hs hne ↦ by
      unfold usage
      rw [husage, update_of_ne (h.btokup_ne hr hs hne)]
  have helement : ∀ {j a}, k.Element arena held j a → ¬ r.Contains a →
      k'.Element arena (held.erase r) j a := fun ha hra ↦ ha.mono fun s hs _ hsa ↦ by
    have hne : s ≠ r := by
      rintro rfl
      exact hra hsa
    exact ⟨h.mem_erase.2 ⟨hne, hs⟩, congrArg Kmemusage.kuIndx (hother s hs hne)⟩
  refine ⟨fun s hs ↦ h.aligned s (h.mem_erase.1 hs).2, h.apart.sublist List.erase_sublist,
    fun j ↦ (helmpercl j).trans (h.elmpercl j), hthreaded, htotalfree, fun s hs hpage ↦ ?_,
    fun j a ha ↦ ?_, fun b' hb' ↦ ?_, fun b' hb' j hfree ↦ ?_, ?_, fun t ↦ ?_⟩
  · obtain ⟨hne, hs⟩ := h.mem_erase.1 hs
    rw [hother s hs hne, List.filter_filter]
    obtain ⟨hlo, hhi, hcount⟩ := h.cut s hs hpage
    refine ⟨hlo, hhi, hcount.trans (congrArg List.length (List.filter_congr fun a _ ↦ ?_))⟩
    by_cases hsa : s.Contains a
    · simp [hsa, (h.apart.forall hs hr hne).not_contains hsa]
    · simp [hsa]
  · obtain ⟨ha, hra⟩ := List.mem_filter.1 ha
    exact helement (h.element j a ha) (by simpa using hra)
  · have hmem := List.mem_of_mem_erase hb'
    obtain ⟨hsize, hplace⟩ := h.block b' hmem
    refine ⟨hsize, hplace.imp ?_ fun hlarge ↦ ?_⟩
    · rintro ⟨j, hj, hcharged⟩
      exact ⟨j, helement hj (hlive b' hb'), hcharged⟩
    · have hne : b'.extent ≠ r := by
        rintro rfl
        exact hlive b' hb' ⟨le_rfl, Nat.lt_add_of_pos_right (h.aligned _ hr).2⟩
      exact hlarge.mono (h.mem_erase.2 ⟨hne, hlarge.1⟩) (hother _ hlarge.1 hne)
  · exact h.not_free b' (List.mem_of_mem_erase hb') j (List.mem_of_mem_filter hfree)
  · exact h.nodup.sublist ((List.erase_sublist ..).map _)
  · rw [hmemuse t, h.memuse t, chargedTo_erase t hb]
    push_cast
    ring

/-- A list has at most one element for every address of the arena. -/
theorem length_le (h : k.Sound arena held free live) (i : ℕ) : (free i).length ≤ vmKmemSize := by
  have hsub : free i ⊆ (List.range vmKmemSize).map (arena.kmembase + ·) := fun a ha ↦ by
    obtain ⟨r, hr, -, hra, -⟩ := h.element i a ha
    obtain ⟨⟨-, hlo, hhi⟩, -⟩ := h.aligned r hr
    refine List.mem_map.2 ⟨a - arena.kmembase, List.mem_range.2 ?_,
      Nat.add_sub_cancel' (hlo.trans hra.1)⟩
    have hlt := hra.2
    have hge := hra.1
    simp only [Arena.kmemlimit] at hhi
    omega
  have hle := (List.subperm_of_subset (h.threaded i).nodup hsub).length_le
  rwa [List.length_map, List.length_range] at hle

/-! ## The elements of a page -/

section Page

variable (h : k.Sound arena held free live) (hr : r ∈ held) (hbytes : r.bytes = nbpg)
  (hindx : (k.usage arena r.addr).kuIndx = i) (hb : b ∈ live) (hrb : r.Contains b.addr)
  (hdvd : 2 ^ i ∣ b.addr)

include h hr hbytes hindx hb hrb hdvd

theorem cons_nodup_subset : (b.addr :: (free i).filter r.Contains).Nodup ∧
    b.addr :: (free i).filter r.Contains ⊆ elements r.addr i := by
  have hcut := h.cut r hr hbytes
  rw [hindx] at hcut
  refine ⟨List.nodup_cons.2 ⟨fun hfree ↦ h.not_free b hb i (List.mem_of_mem_filter hfree),
    (h.threaded i).nodup.filter _⟩, List.cons_subset.2 ⟨?_, h.free_subset hr hbytes⟩⟩
  exact (mem_elements hcut.2.1 (h.aligned r hr).1.1).2 ⟨hrb.1, hbytes ▸ hrb.2, hdvd⟩

/-- While an element is live, not all elements of its page are free. -/
theorem count_lt : ((free i).filter r.Contains).length + 1 ≤ 2 ^ (12 - i) := by
  obtain ⟨hnodup, hsub⟩ := h.cons_nodup_subset hr hbytes hindx hb hrb hdvd
  rw [← length_elements r.addr i, ← List.length_cons]
  exact (List.subperm_of_subset hnodup hsub).length_le

/-- When it is the only one that is not free, no other is live. -/
theorem page_empty (hfull : ((free i).filter r.Contains).length + 1 = 2 ^ (12 - i)) :
    ∀ b' ∈ live.erase b, ¬ r.Contains b'.addr := fun b' hb' hrb' ↦ by
  obtain ⟨hnodup, hsub⟩ := h.cons_nodup_subset hr hbytes hindx hb hrb hdvd
  have hperm : (b.addr :: (free i).filter r.Contains).Perm (elements r.addr i) :=
    (List.subperm_of_subset hnodup hsub).perm_of_length_le
      (by rw [length_elements, List.length_cons, hfull])
  have hmem : b' ∈ live := List.mem_of_mem_erase hb'
  have helement : b'.addr ∈ elements r.addr i := by
    rcases (h.block b' hmem).2 with ⟨j, hj, -⟩ | hlarge
    · have hspec := h.element_spec hj
      obtain ⟨s, hs, -, hsb, -, hsj⟩ := hj
      have hij : j = i := by rw [← hsj, h.region_unique hs hr hsb hrb', hindx]
      rw [hij] at hspec
      exact (mem_elements hspec.2.2.1 (h.aligned r hr).1.1).2
        ⟨hrb'.1, hbytes ▸ hrb'.2, hspec.2.2.2⟩
    · have hself : b'.extent.Contains b'.addr :=
        ⟨le_rfl, Nat.lt_add_of_pos_right (h.aligned _ hlarge.1).2⟩
      exact absurd (h.region_unique hlarge.1 hr hself hrb') (hlarge.extent_ne hbytes)
  rcases List.mem_cons.1 (hperm.mem_iff.2 helement) with heq | hfree
  · have hperm := (List.perm_cons_erase hb).map Block.addr
    have hnodup' := hperm.nodup_iff.1 h.nodup
    exact (List.nodup_cons.1 hnodup').1 (heq ▸ List.mem_map_of_mem hb')
  · exact h.not_free b' hmem i (List.mem_of_mem_filter hfree)

end Page

/-! ## `free` -/

/-- The counts of a page and of its bucket when one more of its elements is free. -/
def counted (k : Kernel) (arena : Arena) (indx : ℕ) (b : Block) : Kernel :=
  (k.onBucket indx fun kbp ↦ { kbp with kbTotalfree := kbp.kbTotalfree + 1 }).onUsage
    (arena.btokup b.addr) fun kup ↦
      { kup with kuUn := (kup.kuUn + 1) % 2 ^ 16 }

/-- The result of a walk put back into the tables. -/
def walked (k : Kernel) (arena : Arena) (indx : ℕ) (b : Block) (w : Walk) : Kernel :=
  { (k.onBucket indx fun kbp ↦ { kbp with kbNext := w.kbNext }).onUsage (arena.btokup b.addr)
      fun kup ↦ { kup with kuUn := w.freecnt } with
    mem := w.mem }

section Page

variable (h : k.Sound arena held free live) (hr : r ∈ held) (hbytes : r.bytes = nbpg)
  (hindx : (k.usage arena r.addr).kuIndx = i) (hb : b ∈ live) (hrb : r.Contains b.addr)
  (hdvd : 2 ^ i ∣ b.addr) (hcharged : b.charged = 2 ^ i)

include h hr hbytes hindx hb hrb hdvd

theorem counted_usage : (counted k arena i b).kmemusage = update k.kmemusage (arena.btokup r.addr)
    ⟨i, ((free i).filter r.Contains).length + 1⟩ := by
  have hcount := h.count_lt hr hbytes hindx hb hrb hdvd
  have hcut := (h.cut r hr hbytes).2.2
  have hpow : 2 ^ (12 - i) ≤ 2 ^ 12 := Nat.pow_le_pow_right two_pos (Nat.sub_le ..)
  have hun : (k.kmemusage (arena.btokup r.addr)).kuUn = ((free i).filter r.Contains).length := by
    rw [← hindx]
    exact hcut
  have hki : (k.kmemusage (arena.btokup r.addr)).kuIndx = i := hindx
  have hmod : (((free i).filter r.Contains).length + 1) % 2 ^ 16 =
      ((free i).filter r.Contains).length + 1 := Nat.mod_eq_of_lt (by omega)
  rw [counted, onUsage_kmemusage, onBucket_kmemusage,
    Arena.btokup_page (h.aligned r hr).1 hbytes hrb, hun, hki, hmod]

include hcharged

/-- The block becomes the first element of its bucket list. -/
theorem freeElement : ((counted k arena i b).freeElement arena b.addr b.type).Sound arena held
    (update free i (b.addr :: free i)) (live.erase b) := by
  have hbup := Arena.btokup_page (h.aligned r hr).1 hbytes hrb
  have husage := h.counted_usage hr hbytes hindx hb hrb hdvd
  have hindx' : ((counted k arena i b).kmemusage (arena.btokup b.addr)).kuIndx = i := by
    rw [husage, hbup, update_self]
  have hnot := h.not_free b hb
  have hne : b.addr ≠ 0 :=
    (arena.kmembase_pos.trans_le ((h.aligned r hr).1.2.1.trans hrb.1)).ne'
  have hform : (counted k arena i b).freeElement arena b.addr b.type =
      (((counted k arena i b).onStats b.type fun ksp ↦
        { ksp with ksMemuse := ksp.ksMemuse - (2 ^ i : ℕ), ksInuse := ksp.ksInuse - 1 }).store
          b.addr (k.bucket i).kbNext).onBucket i fun kbp ↦ { kbp with kbNext := b.addr } := by
    unfold Kernel.freeElement
    rw [hindx']
    simp [counted, Nat.one_shiftLeft]
  refine h.relist hr hbytes hindx ?_ (fun j hj ↦ ?_) ?_ ?_ ?_ (fun j hj a ha ↦ ?_)
    (fun s hs hsr ↦ ?_) (fun a ha ↦ ?_) (fun b' hb' ↦ h.block b' (List.mem_of_mem_erase hb'))
    (fun b' hb' j hfree ↦ ?_) (h.nodup.sublist ((List.erase_sublist ..).map _)) fun t ↦ ?_
  · rw [hform, List.filter_cons_of_pos (by simpa using hrb), List.length_cons]
    exact husage
  · rw [hform]
    simp [store, counted, hj]
  · have hpush := (h.threaded i).push hne (hnot i)
    rw [hform]
    simpa [store, counted] using hpush
  · rw [hform]
    simp [store, counted, h.totalfree]
  · rw [hform]
    simp [store, counted]
  · rw [hform]
    exact update_of_ne (ne_of_mem_of_not_mem ha (hnot j)) ..
  · rw [List.filter_cons_of_neg]
    simpa using fun hsb ↦ hsr (h.region_unique hs hr hsb hrb)
  · rcases List.mem_cons.1 ha with rfl | ha
    · exact ⟨r, hr, hbytes, hrb, hdvd, hindx⟩
    · exact h.element i a ha
  · have hmem := List.mem_of_mem_erase hb'
    rcases eq_or_ne j i with rfl | hj
    · rw [update_self] at hfree
      rcases List.mem_cons.1 hfree with heq | hfree
      · have hnodup := ((List.perm_cons_erase hb).map Block.addr).nodup_iff.1 h.nodup
        exact (List.nodup_cons.1 hnodup).1 (heq ▸ List.mem_map_of_mem hb')
      · exact h.not_free b' hmem j hfree
    · rw [update_of_ne hj] at hfree
      exact h.not_free b' hmem j hfree
  · have hmemuse := h.memuse t
    rw [chargedTo_erase t hb, hcharged] at hmemuse
    rw [hform]
    rcases eq_or_ne t b.type with rfl | ht
    · simp [store, counted, hmemuse]
    · simp [store, counted, ht, hmemuse, Ne.symm ht]

/-- The page of the block is given back. -/
theorem freePage (hfull : ((free i).filter r.Contains).length + 1 = 2 ^ (12 - i)) :
    ∃ k', (counted k arena i b).freePage arena b.addr b.type = .ok (k', some r) ∧
      k'.Sound arena (held.erase r) (fun j ↦ (free j).filter fun a ↦ ¬ r.Contains a)
        (live.erase b) := by
  have hcut := h.cut r hr hbytes
  rw [hindx] at hcut
  have hbup := Arena.btokup_page (h.aligned r hr).1 hbytes hrb
  have husage := h.counted_usage hr hbytes hindx hb hrb hdvd
  have hdesc : (counted k arena i b).kmemusage (arena.btokup b.addr) =
      ⟨i, ((free i).filter r.Contains).length + 1⟩ := by
    rw [husage, hbup, update_self]
  set count := ((free i).filter r.Contains).length with hcount
  have haddr : arena.kuptob (arena.btokup b.addr) = r.addr := by
    rw [hbup, Arena.kuptob_btokup (h.aligned r hr).1]
  have hsize : (count + 1) * 2 ^ i = r.bytes := by
    rw [hfull, two_pow_mul_two_pow hcut.2.1, hbytes]
  -- The tables when the page has been taken out of the counts
  set k₁ : Kernel := (((counted k arena i b).onStats b.type fun ksp ↦
      { ksp with ksMemuse := ksp.ksMemuse - (2 ^ i : ℕ), ksInuse := ksp.ksInuse - 1 }).onUsage
      (arena.btokup b.addr) fun kup ↦ { kup with kuIndx := 0, kuUn := kup.kuUn - 1 }).onBucket i
      fun kbp ↦ { kbp with
        kbTotal := kbp.kbTotal - kbp.kbElmpercl
        kbTotalfree := kbp.kbTotalfree - kbp.kbElmpercl } with hk₁
  have hun : k₁.kmemusage (arena.btokup b.addr) = ⟨0, count⟩ := by
    rw [hk₁, onBucket_kmemusage, onUsage_kmemusage, update_self, onStats_kmemusage, hdesc]
    rfl
  have hnone : ∀ j, j ≠ i → (free j).filter (fun a ↦ ¬ r.Contains a) = free j := fun j hj ↦
    List.filter_eq_self.2 fun a ha ↦ by
      have hra : ¬ r.Contains a := fun hra ↦ by
        obtain ⟨s, hs, -, hsa, -, hsj⟩ := h.element j a ha
        rw [h.region_unique hs hr hsa hra, hindx] at hsj
        exact hj hsj.symm
      simpa using hra
  have hlength : ((free i).filter fun a ↦ ¬ r.Contains a).length + count = (free i).length := by
    have hsplit := List.length_eq_length_filter_add (l := free i) fun a ↦ r.Contains a
    rw [hcount, Nat.add_comm, hsplit]
    simp
  have hlive := h.page_empty hr hbytes hindx hb hrb hdvd hfull
  have hmemuse : ∀ t, (k₁.kmemstats t).ksMemuse =
      (k.kmemstats t).ksMemuse - if b.type = t then (b.charged : ℤ) else 0 := fun t ↦ by
    rcases eq_or_ne t b.type with rfl | ht
    · simp [hk₁, counted, hcharged]
    · simp [hk₁, counted, ht, Ne.symm ht]
  have hbucket : ∀ j, (k₁.bucket j).kbNext = (k.bucket j).kbNext ∧
      (k₁.bucket j).kbElmpercl = (k.bucket j).kbElmpercl ∧
      (k₁.bucket j).kbTotalfree = ((free j).filter fun a ↦ ¬ r.Contains a).length := fun j ↦ by
    rcases eq_or_ne j i with rfl | hj
    · refine ⟨by simp [hk₁, counted], by simp [hk₁, counted], ?_⟩
      have hval : (k₁.bucket j).kbTotalfree = (free j).length + 1 - (2 ^ (12 - j) : ℕ) := by
        simp [hk₁, counted, h.totalfree, h.elmpercl]
      rw [hval, ← hfull, ← hlength]
      push_cast
      ring
    · refine ⟨by simp [hk₁, counted, hj], by simp [hk₁, counted, hj], ?_⟩
      rw [hnone j hj]
      simp [hk₁, counted, hj, h.totalfree]
  have hupdate : k₁.kmemusage = update k.kmemusage (arena.btokup r.addr) ⟨0, count⟩ := by
    rw [hk₁, onBucket_kmemusage, onUsage_kmemusage, onStats_kmemusage, hdesc, husage, hbup,
      update_idem]
    rfl
  have hstart : (counted k arena i b).freePage arena b.addr b.type =
      if count = 0 then .ok (k₁, some r)
      else (Walk.unthread r.addr r.bytes (vmKmemSize + 1) .kbNext
        { kbNext := (k.bucket i).kbNext, mem := k.mem, freecnt := count }) >>= fun w ↦
          if w.freecnt ≠ 0 then .error (.panic "free: missing a bucket")
          else .ok (walked k₁ arena i b w, some r) := by
    rw [← (hbucket i).1]
    unfold Kernel.freePage
    simp only [hdesc, Nat.one_shiftLeft, haddr, hsize]
    rw [← hk₁, hun]
    rfl
  by_cases hzero : count = 0
  · have hall : (fun j ↦ (free j).filter fun a ↦ ¬ r.Contains a) = free := by
      funext j
      rcases eq_or_ne j i with rfl | hj
      · refine List.filter_eq_self.2 fun a ha ↦ ?_
        simpa using List.filter_eq_nil_iff.1 (List.length_eq_zero_iff.1 hzero) a ha
      · exact hnone j hj
    refine ⟨k₁, hstart.trans (if_pos hzero), ?_⟩
    refine h.removeRegion hr hb hlive hupdate (fun j ↦ ?_) (fun j ↦ (hbucket j).2.2)
      (fun j ↦ (hbucket j).2.1) hmemuse
    rw [(hbucket j).1, congrFun hall j]
    exact h.threaded j
  · have hpos : ¬ r.Contains 0 := fun hcontains ↦
      (arena.kmembase_pos.trans_le ((h.aligned r hr).1.2.1.trans hcontains.1)).ne rfl
    have hpow : 2 ^ (12 - i) ≤ 2 ^ 12 := Nat.pow_le_pow_right two_pos (Nat.sub_le ..)
    obtain ⟨w, hok, hthreaded, hfreecnt, hframe⟩ := Walk.unthread_spec
      (w := { kbNext := (k.bucket i).kbNext, mem := k.mem, freecnt := count }) hpos
      (show Threaded 0 k.mem (Walk.load _ .kbNext) (free i) from h.threaded i) trivial
      (Nat.lt_succ_of_le (h.length_le i)) le_rfl (by simp only; omega)
    rw [if_neg hzero, hok] at hstart
    have hleft : w.freecnt = 0 := hfreecnt.trans (Nat.sub_self _)
    refine ⟨walked k₁ arena i b w, hstart.trans (if_neg (not_not.2 hleft)), ?_⟩
    refine h.removeRegion hr hb hlive (u := ⟨0, 0⟩) ?_ (fun j ↦ ?_) (fun j ↦ ?_) (fun j ↦ ?_)
      hmemuse
    · rw [walked, onUsage_kmemusage, onBucket_kmemusage, hun, hleft, hupdate, hbup, update_idem]
    · rcases eq_or_ne j i with rfl | hj
      · simpa [walked, Walk.load] using hthreaded
      · rw [hnone j hj]
        have hsame : ∀ a ∈ free j, w.mem a = k.mem a := fun a ha ↦
          hframe (.word a) (by simp) fun hai ↦ hj (h.free_unique ha hai)
        simpa [walked, hj, (hbucket j).1] using (h.threaded j).congr hsame
    · rcases eq_or_ne j i with rfl | hj
      · simpa [walked] using (hbucket j).2.2
      · simpa [walked, hj] using (hbucket j).2.2
    · rcases eq_or_ne j i with rfl | hj
      · simpa [walked] using (hbucket j).2.1
      · simpa [walked, hj] using (hbucket j).2.1

/-- A block of up to a page goes to its bucket list, or its page is given back. -/
theorem freeSmall : ∃ k' region free', k.freeSmall arena b.addr b.type = .ok (k', region) ∧
    (∀ s, region = some s → s ∈ held) ∧
      k'.Sound arena (giveBack held region) free' (live.erase b) := by
  have hcut := h.cut r hr hbytes
  rw [hindx] at hcut
  have hbup := Arena.btokup_page (h.aligned r hr).1 hbytes hrb
  have hki : (k.kmemusage (arena.btokup b.addr)).kuIndx = i := hbup ▸ hindx
  have husage := h.counted_usage hr hbytes hindx hb hrb hdvd
  set count := ((free i).filter r.Contains).length
  have hle : count + 1 ≤ 2 ^ (12 - i) := h.count_lt hr hbytes hindx hb hrb hdvd
  have helmpercl : ((counted k arena i b).bucket i).kbElmpercl = (2 ^ (12 - i) : ℕ) := by
    simp [counted, h.elmpercl]
  have hun : ((counted k arena i b).kmemusage (arena.btokup b.addr)).kuUn = count + 1 := by
    rw [husage, hbup, update_self]
  have hunfold : k.freeSmall arena b.addr b.type =
      if ((2 ^ (12 - i) : ℕ) : ℤ) ≤ (count + 1 : ℕ) then
        if ((2 ^ (12 - i) : ℕ) : ℤ) < (count + 1 : ℕ) then .error (.panic "free: multiple frees")
        else if ((counted k arena i b).bucket i).kbHighwat <
            ((counted k arena i b).bucket i).kbTotalfree ∧ b.type ≠ mMbuf then
          (counted k arena i b).freePage arena b.addr b.type
        else .ok ((counted k arena i b).freeElement arena b.addr b.type, none)
      else .ok ((counted k arena i b).freeElement arena b.addr b.type, none) := by
    rw [← helmpercl, ← hun]
    unfold Kernel.freeSmall
    simp only [hki]
    rfl
  have hpush := h.freeElement hr hbytes hindx hb hrb hdvd hcharged
  rw [hunfold]
  split_ifs with hfull hover hhigh
  · exact absurd (Int.ofNat_lt.1 hover) (Nat.not_lt.2 hle)
  · obtain ⟨k', hok, hsound⟩ := h.freePage hr hbytes hindx hb hrb hdvd hcharged
      (le_antisymm hle (Int.ofNat_le.1 hfull))
    exact ⟨k', some r, _, hok, fun s hs ↦ Option.some.inj hs ▸ hr, hsound⟩
  · exact ⟨_, none, _, rfl, nofun, hpush⟩
  · exact ⟨_, none, _, rfl, nofun, hpush⟩

end Page

/-- A block with pages of its own gives them back. -/
theorem freeLarge (h : k.Sound arena held free live) (hb : b ∈ live)
    (hlarge : k.Large arena held b) : ∃ k' free',
    k.freeLarge arena b.addr b.type = (k', some b.extent) ∧
      k'.Sound arena (held.erase b.extent) free' (live.erase b) := by
  obtain ⟨hmem, hmax, hindx, hpages⟩ := id hlarge
  have hself : b.extent.Contains b.addr :=
    ⟨le_rfl, Nat.lt_add_of_pos_right (h.aligned _ hmem).2⟩
  have hextent : (⟨b.addr, ctob (k.kmemusage (arena.btokup b.addr)).kuUn⟩ : Region) = b.extent :=
    congrArg (Region.mk b.addr) hpages.symm
  have hsize : (k.kmemusage (arena.btokup b.addr)).kuUn <<< 12 = b.charged :=
    (Nat.shiftLeft_eq ..).trans hpages.symm
  have hnone : ∀ j, (free j).filter (fun a ↦ ¬ b.extent.Contains a) = free j := fun j ↦
    List.filter_eq_self.2 fun a ha ↦ by
      have hapart := (h.element_large (h.element j a ha) hlarge).symm
      have hfirst : Region.Contains ⟨a, 2 ^ j⟩ a :=
        ⟨le_rfl, Nat.lt_add_of_pos_right (Nat.two_pow_pos j)⟩
      simpa using hapart.symm.not_contains hfirst
  have hlive : ∀ b' ∈ live.erase b, ¬ b.extent.Contains b'.addr := fun b' hb' hcontains ↦ by
    have hnodup := ((List.perm_cons_erase hb).map Block.addr).nodup_iff.1 h.nodup
    have hne : b.addr ≠ b'.addr := fun heq ↦
      (List.nodup_cons.1 hnodup).1 (heq ▸ List.mem_map_of_mem hb')
    have hmem' := List.mem_of_mem_erase hb'
    refine (h.live_apart hb hmem' hne).not_contains hcontains
      ⟨le_rfl, Nat.lt_add_of_pos_right ?_⟩
    rcases (h.block b' hmem').2 with ⟨j, -, hcharged⟩ | hlarge'
    · exact (Nat.two_pow_pos j).trans_eq hcharged.symm
    · exact (h.aligned _ hlarge'.1).2
  refine ⟨_, _, Prod.ext rfl (congrArg some hextent), h.removeRegion hmem hb hlive (u := ⟨0, 0⟩)
    rfl (fun j ↦ ?_) (fun j ↦ ?_) (fun j ↦ ?_) fun t ↦ ?_⟩
  · rw [hnone j]
    by_cases hj : j = (k.kmemusage (arena.btokup b.addr)).kuIndx
    · simpa [Kernel.freeLarge, ← hj] using h.threaded j
    · simpa [Kernel.freeLarge, hj] using h.threaded j
  · rw [hnone j]
    by_cases hj : j = (k.kmemusage (arena.btokup b.addr)).kuIndx
    · simpa [Kernel.freeLarge, ← hj] using h.totalfree j
    · simpa [Kernel.freeLarge, hj] using h.totalfree j
  · by_cases hj : j = (k.kmemusage (arena.btokup b.addr)).kuIndx
    · simp [Kernel.freeLarge, ← hj]
    · simp [Kernel.freeLarge, hj]
  · rcases eq_or_ne t b.type with rfl | ht
    · simp [Kernel.freeLarge, hsize]
    · simp [Kernel.freeLarge, ht, Ne.symm ht]

/-- `free` of a live block succeeds, and gives back only a region that was held. -/
theorem free_spec (h : k.Sound arena held free live) (hb : b ∈ live) :
    ∃ k' region free', k.free arena b.addr b.type = .ok (k', region) ∧
      (∀ s, region = some s → s ∈ held) ∧
        k'.Sound arena (giveBack held region) free' (live.erase b) := by
  obtain ⟨s, hs, hlo, hhi⟩ := h.live_within hb
  obtain ⟨⟨-, hbase, hlimit⟩, -⟩ := h.aligned s hs
  have harena : ¬ (b.addr < arena.kernelEnd ∨ b.addr < arena.kmembase ∨
      arena.kmemlimit < b.addr) := by
    have hend := arena.kernelEnd_le
    omega
  have hunfold : k.free arena b.addr b.type =
      if b.addr &&& (if nbpg < 1 <<< (k.usage arena b.addr).kuIndx then addrmask (bucketIndx nbpg)
        else addrmask (k.usage arena b.addr).kuIndx) ≠ 0 then .error (.panic "free: unaligned addr")
      else if maxallocsave ≤ 1 <<< (k.usage arena b.addr).kuIndx then
        .ok (k.freeLarge arena b.addr b.type)
      else k.freeSmall arena b.addr b.type := if_neg harena
  rw [hunfold]
  rcases (h.block b hb).2 with ⟨i, hi, hcharged⟩ | hlarge
  · obtain ⟨hindx, -, hle, hdvd⟩ := h.element_spec hi
    obtain ⟨r, hr, hbytes, hrb, -, hri⟩ := hi
    have hpow : 2 ^ i ≤ 2 ^ 12 := Nat.pow_le_pow_right two_pos hle
    have hpage : ¬ nbpg < 1 <<< i := by
      rw [Nat.one_shiftLeft]
      simp only [nbpg]
      omega
    have hsmall : ¬ maxallocsave ≤ 1 <<< i := by
      rw [Nat.one_shiftLeft]
      simp only [maxallocsave, nbpg]
      omega
    have haligned : b.addr &&& addrmask i = 0 := by
      rw [addrmask, Nat.and_two_pow_sub_one_eq_mod]
      exact Nat.mod_eq_zero_of_dvd hdvd
    rw [hindx, if_neg hpage, if_neg (not_not.2 haligned), if_neg hsmall]
    exact h.freeSmall hr hbytes hri hb hrb hdvd hcharged
  · obtain ⟨hmem, -, hindx, -⟩ := id hlarge
    have hpow : 2 ^ 13 ≤ 2 ^ (k.usage arena b.addr).kuIndx := Nat.pow_le_pow_right two_pos hindx
    have hpage : nbpg < 1 <<< (k.usage arena b.addr).kuIndx := by
      rw [Nat.one_shiftLeft]
      simp only [nbpg]
      omega
    have hbig : maxallocsave ≤ 1 <<< (k.usage arena b.addr).kuIndx := by
      rw [Nat.one_shiftLeft]
      simp only [maxallocsave, nbpg]
      omega
    have haligned : b.addr &&& addrmask (bucketIndx nbpg) = 0 := by
      have hindx12 : bucketIndx nbpg = 12 := rfl
      rw [hindx12, addrmask, Nat.and_two_pow_sub_one_eq_mod]
      exact (h.aligned _ hmem).1.1
    rw [if_pos hpage, if_neg (not_not.2 haligned), if_pos hbig]
    obtain ⟨k', free', hok, hsound⟩ := h.freeLarge hb hlarge
    exact ⟨k', some b.extent, free', congrArg Except.ok hok, fun s hs ↦ Option.some.inj hs ▸ hmem,
      hsound⟩

end Kernel.Sound

end Bsd386.Kern.Malloc
