import Mathlib.Data.List.Perm.Subperm
import Bsd386.Kern.Fs.Namcache.Basic

/-!
# The lists of the name cache

The cache in memory is described by two lists: `lru`, all the entries in order of use, and for each
head of the table `chain`, the entries on its hash chain. Each routine is shown to complete, and to
leave in memory what the corresponding operation on these lists gives, with one exception: an entry
that is dropped while it is the only one cannot be put first on the list.
-/

namespace Bsd386.Kern.Namcache

open Function

universe u

variable {E V : Type u} [DecidableEq E]

/-! ## Hash chains -/

/-- The hash chains are those of `chain`, and every other entry of `lru` is a chain of its own. -/
structure Chained (m : Links (Link E)) (nchash : ℕ) (lru : List E) (chain : ℕ → List E) : Prop where
  ring : ∀ i ≤ nchash, m.Ring (.bucket i) ((chain i).map .entry)
  sub : ∀ i ≤ nchash, ∀ e ∈ chain i, e ∈ lru
  disjoint : ∀ i ≤ nchash, ∀ j ≤ nchash, ∀ e ∈ chain i, e ∈ chain j → i = j
  alone : ∀ e ∈ lru, (∀ i ≤ nchash, e ∉ chain i) → m.Ring (.entry e) []

variable {m : Links (Link E)} {nchash i : ℕ} {lru : List E} {chain : ℕ → List E} {e : E}

omit [DecidableEq E] in
theorem mem_bucket {l : List E} :
    Link.entry e ∈ Link.bucket i :: l.map .entry ↔ e ∈ l := by
  simp

omit [DecidableEq E] in
theorem Chained.nodup (h : Chained m nchash lru chain) (hi : i ≤ nchash) : (chain i).Nodup :=
  List.Nodup.of_map _ (List.nodup_cons.1 (h.ring i hi).1).2

omit [DecidableEq E] in
/-- The chains depend on the entries of the list, not on its order. -/
theorem Chained.of_mem_iff {lru' : List E} (h : Chained m nchash lru chain)
    (hmem : ∀ e, e ∈ lru' ↔ e ∈ lru) : Chained m nchash lru' chain where
  ring := h.ring
  sub i hi e he := (hmem e).2 (h.sub i hi e he)
  disjoint := h.disjoint
  alone e he := h.alone e ((hmem e).1 he)

omit [DecidableEq E] in
/-- The chains past the end of the table do not matter. -/
theorem Chained.of_chain_eq {chain' : ℕ → List E} (h : Chained m nchash lru chain)
    (hchain : ∀ i ≤ nchash, chain' i = chain i) : Chained m nchash lru chain' where
  ring i hi := (hchain i hi).symm ▸ h.ring i hi
  sub i hi e he := h.sub i hi e (hchain i hi ▸ he)
  disjoint i hi j hj e hei hej := h.disjoint i hi j hj e (hchain i hi ▸ hei) (hchain j hj ▸ hej)
  alone e he hout := h.alone e he fun i hi hei ↦ hout i hi ((hchain i hi).symm ▸ hei)

omit [DecidableEq E] in
/-- The chains are in the memory of their own entries. -/
theorem Chained.congr {m' : Links (Link E)} (h : Chained m nchash lru chain) (he : e ∉ lru)
    (hnext : ∀ x, x ≠ .entry e → m'.next x = m.next x)
    (hprev : ∀ x, x ≠ .entry e → m'.prev x = m.prev x) : Chained m' nchash lru chain where
  ring i hi := by
    have hne : ∀ x ∈ Link.bucket i :: (chain i).map .entry, x ≠ .entry e :=
      fun x hx hxe ↦ he (h.sub i hi e (mem_bucket.1 (hxe ▸ hx)))
    exact (h.ring i hi).congr (fun x hx ↦ hnext x (hne x hx)) (fun x hx ↦ hprev x (hne x hx))
  sub := h.sub
  disjoint := h.disjoint
  alone f hf hout := by
    have hne : ∀ x ∈ [Link.entry f], x ≠ .entry e := by
      intro x hx
      rw [List.mem_singleton.1 hx]
      exact fun hfe ↦ he (Link.entry.inj hfe ▸ hf)
    exact (h.alone f hf hout).congr (fun x hx ↦ hnext x (hne x hx)) (fun x hx ↦ hprev x (hne x hx))

/-- `remque` takes an entry off the chain it is on. -/
theorem Chained.remque (h : Chained m nchash lru chain) (hnodup : lru.Nodup) (he : e ∈ lru) :
    ∃ m', remque m (.entry e) = .ok m' ∧
      Chained m' nchash (lru.erase e) (fun i ↦ (chain i).erase e) := by
  have hmem : ∀ f, f ∈ lru.erase e ↔ f ≠ e ∧ f ∈ lru := fun f ↦ hnodup.mem_erase_iff
  have hout : ∀ i ≤ nchash, ∀ f, f ∈ (chain i).erase e ↔ f ≠ e ∧ f ∈ chain i :=
    fun i hi f ↦ (h.nodup hi).mem_erase_iff
  -- Whatever ring `e` was on, the other rings stay; this gives all fields but the ring of `e`.
  have hrest : ∀ m', (∀ j ≤ nchash, m'.Ring (.bucket j) (((chain j).erase e).map .entry)) →
      (∀ f ∈ lru, f ≠ e → (∀ j ≤ nchash, f ∉ chain j) → m'.Ring (.entry f) []) →
      Chained m' nchash (lru.erase e) (fun i ↦ (chain i).erase e) := by
    intro m' hring halone
    refine ⟨hring, ?_, ?_, ?_⟩
    · intro j hj f hf
      obtain ⟨hfe, hfj⟩ := (hout j hj f).1 hf
      exact (hmem f).2 ⟨hfe, h.sub j hj f hfj⟩
    · intro j hj k hk f hfj hfk
      exact h.disjoint j hj k hk f ((hout j hj f).1 hfj).2 ((hout k hk f).1 hfk).2
    · intro f hf hnot
      obtain ⟨hfe, hflru⟩ := (hmem f).1 hf
      exact halone f hflru hfe fun j hj hfj ↦ hnot j hj ((hout j hj f).2 ⟨hfe, hfj⟩)
  by_cases hon : ∃ i ≤ nchash, e ∈ chain i
  · obtain ⟨i, hi, hei⟩ := hon
    obtain ⟨m', hm', hring, hframe⟩ :=
      remque_spec (h.ring i hi) (List.mem_map_of_mem hei)
    have hinj : Injective (Link.entry : E → Link E) := fun _ _ hab ↦ Link.entry.inj hab
    refine ⟨m', hm', hrest m' ?_ ?_⟩
    · intro j hj
      by_cases hij : j = i
      · subst hij
        rwa [List.map_erase hinj]
      · have hej : e ∉ chain j := fun hej ↦ hij (h.disjoint j hj i hi e hej hei)
        rw [List.erase_of_not_mem hej]
        refine hframe _ _ (h.ring j hj) fun x hxj hxi ↦ hij ?_
        cases x with
        | bucket k => simp_all
        | entry f => exact h.disjoint j hj i hi f (mem_bucket.1 hxj) (mem_bucket.1 hxi)
    · intro f hf hfe hnot
      refine hframe _ _ (h.alone f hf hnot) fun x hxf hxi ↦ ?_
      rw [List.mem_singleton.1 hxf] at hxi
      exact hnot i hi (mem_bucket.1 hxi)
  · push Not at hon
    obtain ⟨m', hm', hframe⟩ := remque_alone (h.alone e he hon)
    refine ⟨m', hm', hrest m' ?_ ?_⟩
    · intro j hj
      rw [List.erase_of_not_mem (hon j hj)]
      exact hframe _ _ (h.ring j hj) fun hej ↦ hon j hj (mem_bucket.1 hej)
    · intro f hf hfe hnot
      refine hframe _ _ (h.alone f hf hnot) fun hef ↦ hfe ?_
      exact (Link.entry.inj (List.mem_singleton.1 hef)).symm

/-- A free entry becomes a chain of its own. -/
theorem Chained.dummyChain (h : Chained m nchash lru chain) (he : e ∉ lru) :
    Chained (Cache.dummyChain m e) nchash (e :: lru) chain := by
  have hframe : Chained (Cache.dummyChain m e) nchash lru chain :=
    h.congr he (fun x hx ↦ update_of_ne hx ..) (fun x hx ↦ update_of_ne hx ..)
  refine ⟨hframe.ring, fun i hi f hf ↦ List.mem_cons_of_mem _ (h.sub i hi f hf), h.disjoint, ?_⟩
  intro f hf hnot
  rcases List.mem_cons.1 hf with rfl | hf
  · exact ⟨List.nodup_singleton _, List.isChain_pair.2 ⟨update_self .., update_self ..⟩⟩
  · exact hframe.alone f hf hnot

/-- `insque` puts a free entry first on a chain. -/
theorem Chained.insque (h : Chained m nchash lru chain) (he : e ∉ lru) (hi : i ≤ nchash) :
    ∃ m', insque m (.entry e) (.bucket i) = .ok m' ∧
      Chained m' nchash (lru ++ [e]) (update chain i (e :: chain i)) := by
  have hout : ∀ j ≤ nchash, e ∉ chain j := fun j hj hej ↦ he (h.sub j hj e hej)
  obtain ⟨m', hm', hring, hframe⟩ :=
    insque_spec (h.ring i hi) (fun hei ↦ hout i hi (mem_bucket.1 hei))
  have hmem : ∀ j f, f ∈ update chain i (e :: chain i) j ↔ (j = i ∧ f = e) ∨ f ∈ chain j := by
    intro j f
    by_cases hij : j = i
    · subst hij
      simp
    · simp [hij]
  refine ⟨m', hm', ?_, ?_, ?_, ?_⟩
  · intro j hj
    by_cases hij : j = i
    · subst hij
      simpa using hring
    · rw [update_of_ne hij]
      refine hframe _ _ (h.ring j hj) (fun hej ↦ hout j hj (mem_bucket.1 hej)) fun x hxj hxi ↦
        hij ?_
      cases x with
      | bucket k => simp_all
      | entry f => exact h.disjoint j hj i hi f (mem_bucket.1 hxj) (mem_bucket.1 hxi)
  · intro j hj f hf
    rcases (hmem j f).1 hf with ⟨-, rfl⟩ | hf
    · simp
    · exact List.mem_append_left _ (h.sub j hj f hf)
  · intro j hj k hk f hfj hfk
    rcases (hmem j f).1 hfj with ⟨hji, hfe⟩ | hfj'
    · rcases (hmem k f).1 hfk with ⟨hki, -⟩ | hfk'
      · exact hji.trans hki.symm
      · exact absurd (hfe ▸ hfk') (hout k hk)
    · rcases (hmem k f).1 hfk with ⟨-, hfe⟩ | hfk'
      · exact absurd (hfe ▸ hfj') (hout j hj)
      · exact h.disjoint j hj k hk f hfj' hfk'
  · intro f hf hnot
    have hfe : f ≠ e := fun hfe ↦ hnot i hi ((hmem i f).2 (.inl ⟨rfl, hfe⟩))
    have hflru : f ∈ lru := by simpa [hfe] using hf
    have hfree : ∀ j ≤ nchash, f ∉ chain j := fun j hj hfj ↦ hnot j hj ((hmem j f).2 (.inr hfj))
    refine hframe _ _ (h.alone f hflru hfree) ?_ fun x hxf hxi ↦ ?_
    · exact fun hef ↦ hfe (Link.entry.inj (List.mem_singleton.1 hef)).symm
    · rw [List.mem_singleton.1 hxf] at hxi
      exact hfree i hi (mem_bucket.1 hxi)

/-! ## The whole cache -/

namespace Cache

variable {c : Cache E V} {ndp : Nameidata V}

/-- The cache in memory: every allocated entry is on the list of use once, and on one chain. -/
structure Shape (c : Cache E V) (lru : List E) (chain : ℕ → List E) : Prop where
  holds : c.lru.Holds lru
  perm : lru.Perm c.allocated
  numcache_eq : c.numcache = lru.length
  chained : Chained c.chains c.nchash lru chain

omit [DecidableEq E] in
theorem Shape.length_chain_le (h : c.Shape lru chain) (hi : i ≤ c.nchash) :
    (chain i).length ≤ c.numcache := by
  rw [h.numcache_eq]
  exact (List.subperm_of_subset (h.chained.nodup hi) (h.chained.sub i hi)).length_le

/-- Moving an entry to the end of the list. -/
theorem Shape.moveToEnd (h : c.Shape lru chain) (he : e ∈ lru) :
    ∃ queue, c.moveToEnd e = .ok { c with lru := queue } ∧
      Shape { c with lru := queue } (lru.erase e ++ [e]) chain := by
  have hperm : (lru.erase e ++ [e]).Perm lru :=
    (List.perm_append_singleton e _).trans (List.perm_cons_erase he).symm
  have hshape : ∀ queue : TailQueue E, queue.Holds (lru.erase e ++ [e]) →
      Shape { c with lru := queue } (lru.erase e ++ [e]) chain := fun queue hqueue ↦
    ⟨hqueue, hperm.trans h.perm, h.numcache_eq.trans hperm.length_eq.symm,
      h.chained.of_mem_iff fun _ ↦ hperm.mem_iff⟩
  obtain ⟨l₁, l₂, hnot, hlru, herase⟩ := List.exists_erase_eq he
  have hnext : c.lru.next e = l₂.head? := (hlru ▸ h.holds).links_of_append.2.2
  cases l₂ with
  | nil =>
    refine ⟨c.lru, by simp [Cache.moveToEnd, hnext, pure, Except.pure], hshape _ ?_⟩
    rw [herase, List.append_nil, ← hlru]
    exact h.holds
  | cons f l₂ =>
    obtain ⟨queue, hqueue, hholds⟩ := h.holds.remove he
    refine ⟨queue.insertTail e, ?_, hshape _ (hholds.insertTail ?_)⟩
    · simp only [Cache.moveToEnd, hnext, List.head?_cons, hqueue, deref]
      rfl
    · exact h.holds.nodup.not_mem_erase

/-- An entry can always be taken off the list of use and off its chain. -/
theorem Shape.unlink (h : c.Shape lru chain) (he : e ∈ lru) :
    ∃ queue chains, c.lru.remove e = some queue ∧ Kern.remque c.chains (.entry e) = .ok chains ∧
      queue.Holds (lru.erase e) ∧
      Chained chains c.nchash (lru.erase e) (fun i ↦ (chain i).erase e) := by
  obtain ⟨queue, hqueue, hholds⟩ := h.holds.remove he
  obtain ⟨chains, hchains, hchained⟩ := h.chained.remque h.holds.nodup he
  exact ⟨queue, chains, hqueue, hchains, hholds, hchained⟩

/-- Put back first on the list, on a chain of its own, it is the next to be taken; this needs
another entry. -/
theorem Shape.relink (h : c.Shape lru chain) (he : e ∈ lru) (hothers : lru ≠ [e])
    {queue : TailQueue E} {chains : Links (Link E)} (hholds : queue.Holds (lru.erase e))
    (hchained : Chained chains c.nchash (lru.erase e) (fun i ↦ (chain i).erase e)) :
    ∃ queue', queue.insertHead e = some queue' ∧
      Shape { c with lru := queue', chains := dummyChain chains e } (e :: lru.erase e)
        (fun i ↦ (chain i).erase e) := by
  have hperm : (e :: lru.erase e).Perm lru := (List.perm_cons_erase he).symm
  have hnot : e ∉ lru.erase e := h.holds.nodup.not_mem_erase
  have hnumcache : c.numcache = (e :: lru.erase e).length :=
    h.numcache_eq.trans hperm.length_eq.symm
  cases hlru : lru.erase e with
  | nil =>
    rw [hlru] at hperm
    exact absurd (List.perm_singleton.1 hperm.symm) hothers
  | cons f l =>
    have hchained' := hchained.dummyChain hnot
    rw [hlru] at hholds hnot hperm hnumcache hchained'
    obtain ⟨queue', hqueue', hholds'⟩ := hholds.insertHead hnot
    exact ⟨queue', hqueue', hholds', hperm.trans h.perm, hnumcache, hchained'⟩

/-- Dropping an entry while there are others. -/
theorem Shape.drop (h : c.Shape lru chain) (he : e ∈ lru) (hothers : lru ≠ [e]) :
    ∃ queue chains, c.drop e = .ok { c with lru := queue, chains } ∧
      Shape { c with lru := queue, chains } (e :: lru.erase e) (fun i ↦ (chain i).erase e) := by
  obtain ⟨queue, chains, hqueue, hchains, hholds, hchained⟩ := h.unlink he
  obtain ⟨queue', hqueue', hshape⟩ := h.relink he hothers hholds hchained
  refine ⟨queue', dummyChain chains e, ?_, hshape⟩
  simp only [Cache.drop, hqueue, hchains, deref]
  simp [bind, Except.bind, hqueue', pure, Except.pure]

/-- Dropping the only entry follows the null pointer of the list it has just emptied. -/
theorem Shape.drop_only (h : c.Shape [e] chain) : c.drop e = .error .nullPointer := by
  obtain ⟨queue, chains, hqueue, hchains, hholds, -⟩ := h.unlink (List.mem_singleton_self e)
  rw [List.erase_cons_head] at hholds
  simp only [Cache.drop, hqueue, hchains, deref]
  simp [bind, Except.bind, hholds.insertHead_nil]

/-- Freeing an entry of a file system while there are others. -/
theorem Shape.free (h : c.Shape lru chain) (he : e ∈ lru) (hothers : lru ≠ [e]) :
    let entries := update c.entries e { c.entries e with ncVp := none, ncDvp := none }
    ∃ queue chains,
      c.free e = .ok ((lru.erase e).head?, { c with entries, chains, lru := queue }) ∧
      Shape { c with entries, chains, lru := queue } (e :: lru.erase e)
        (fun i ↦ (chain i).erase e) := by
  obtain ⟨queue, chains, hqueue, hchains, hholds, hchained⟩ := h.unlink he
  obtain ⟨queue', hqueue', hshape⟩ := h.relink he hothers hholds hchained
  refine ⟨queue', dummyChain chains e, ?_, hshape.holds, hshape.perm, hshape.numcache_eq,
    hshape.chained⟩
  simp only [Cache.free, hqueue, hchains, deref]
  simp [bind, Except.bind, hqueue', hholds.head_eq, pure, Except.pure]

theorem Shape.free_only (h : c.Shape [e] chain) : c.free e = .error .nullPointer := by
  obtain ⟨queue, chains, hqueue, hchains, hholds, -⟩ := h.unlink (List.mem_singleton_self e)
  rw [List.erase_cons_head] at hholds
  simp only [Cache.free, hqueue, hchains, deref]
  simp [bind, Except.bind, hholds.insertHead_nil]

/-- The cache while `e` is a free slot, on no list. -/
structure Taken (c : Cache E V) (e : E) (lru : List E) (chain : ℕ → List E) : Prop where
  notMem : e ∉ lru
  holds : c.lru.Holds lru
  perm : (e :: lru).Perm c.allocated
  numcache_eq : c.numcache = lru.length + 1
  chained : Chained c.chains c.nchash lru chain

/-- Two states differ in the lists and in one entry at most. -/
structure SameBut (e : E) (c d : Cache E V) : Prop where
  doingcache : d.doingcache = c.doingcache
  desiredvnodes : d.desiredvnodes = c.desiredvnodes
  nchash : d.nchash = c.nchash
  vId : d.vId = c.vId
  nextvnodeid : d.nextvnodeid = c.nextvnodeid
  entries : ∀ f, f ≠ e → d.entries f = c.entries f

/-- The slot for a new entry: a fresh one while more may be allocated, and then the first of the
list. -/
def slot (c : Cache E V) (fresh : E) : Option E :=
  if c.numcache < c.desiredvnodes then some fresh else c.lru.head

/-- The slot is taken off its lists, if there is one. -/
theorem Shape.takeSlot (h : c.Shape lru chain) {fresh : E} (hfresh : fresh ∉ c.allocated) :
    (c.takeSlot fresh = .ok none ∧ c.slot fresh = none) ∨
    ∃ e d, c.takeSlot fresh = .ok (some (e, d)) ∧ c.slot fresh = some e ∧
      d.Taken e (lru.erase e) (fun i ↦ (chain i).erase e) ∧ (e ∉ lru ∨ lru.head? = some e) ∧
      SameBut e c d := by
  unfold Cache.takeSlot slot
  split_ifs with hroom
  · have hnot : fresh ∉ lru := fun hmem ↦ hfresh (h.perm.mem_iff.1 hmem)
    refine .inr ⟨fresh, c.allocate fresh, rfl, rfl, ?_, .inl hnot, ⟨rfl, rfl, rfl, rfl, rfl, ?_⟩⟩
    · have hframe : Chained (c.allocate fresh).chains c.nchash lru chain :=
        h.chained.congr hnot (fun x hx ↦ update_of_ne hx ..) (fun x hx ↦ update_of_ne hx ..)
      have hchain : ∀ i ≤ c.nchash, (chain i).erase fresh = chain i := fun i hi ↦
        List.erase_of_not_mem fun hmem ↦ hnot (h.chained.sub i hi fresh hmem)
      rw [List.erase_of_not_mem hnot]
      exact ⟨hnot, h.holds.setLinks hnot none none, h.perm.cons fresh,
        congrArg (· + 1) h.numcache_eq, hframe.of_chain_eq hchain⟩
    · exact fun f hf ↦ update_of_ne hf ..
  · cases lru with
    | nil =>
      rw [h.holds.head_eq]
      exact .inl ⟨rfl, rfl⟩
    | cons e l =>
      have he : e ∈ e :: l := List.mem_cons_self ..
      obtain ⟨queue, chains, hqueue, hchains, hholds, hchained⟩ := h.unlink he
      have hnot : e ∉ (e :: l).erase e := h.holds.nodup.not_mem_erase
      refine .inr ⟨e, { c with lru := queue, chains }, ?_, h.holds.head_eq, ?_, .inr rfl,
        ⟨rfl, rfl, rfl, rfl, rfl, fun _ _ ↦ rfl⟩⟩
      · rw [h.holds.head_eq]
        simp only [List.head?_cons, hqueue, hchains, deref]
        rfl
      · rw [List.erase_cons_head] at hholds hchained hnot ⊢
        exact ⟨hnot, hholds, h.perm, h.numcache_eq, hchained⟩

variable [DecidableEq V]

omit [DecidableEq E] in
/-- The search loop finds the first match of the rest of the chain. -/
theorem search_of_run (c : Cache E V) (ndp : Nameidata V) (nhp : ℕ) (l : List E) (x : Link E)
    (turns : ℕ) (hrun : c.chains.Run (x :: (l.map .entry ++ [.bucket nhp])))
    (hturns : l.length < turns) :
    c.search ndp nhp turns (c.chains.next x) = .ok (l.find? (c.Matches ndp ·)) := by
  induction l generalizing x turns with
  | nil =>
    obtain ⟨turns, rfl⟩ := Nat.exists_eq_add_one.2 hturns
    rw [(List.isChain_cons_cons.1 hrun).1.1]
    simp [search]
  | cons e l ih =>
    obtain ⟨turns, rfl⟩ := Nat.exists_eq_add_one.2 (Nat.zero_lt_of_lt hturns)
    obtain ⟨hlink, hrest⟩ := List.isChain_cons_cons.1 hrun
    rw [hlink.1, search, List.find?_cons]
    by_cases he : c.Matches ndp e
    · simp [he]
    · simp only [he, if_false, decide_false]
      exact ih (.entry e) turns hrest (by simpa using hturns)

omit [DecidableEq E] in
theorem Shape.search (h : c.Shape lru chain) (hi : i ≤ c.nchash) :
    c.search ndp i (c.numcache + 1) (c.chains.next (.bucket i)) =
      .ok ((chain i).find? (c.Matches ndp ·)) :=
  search_of_run c ndp i (chain i) _ _ (h.chained.ring i hi).2
    (Nat.lt_succ_of_le (h.length_chain_le hi))

end Cache

end Bsd386.Kern.Namcache
