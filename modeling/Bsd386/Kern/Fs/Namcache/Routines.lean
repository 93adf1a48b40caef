import Bsd386.Kern.Fs.Namcache.Structure

/-!
# The routines of the name cache on its lists

For each routine, what it does to the list of use, to the hash chains and to the entries, and when
it cannot complete.
-/

namespace Bsd386.Kern.Namcache.Cache

open Function

universe u

variable {E V : Type u} [DecidableEq V] {c d : Cache E V} {ndp : Nameidata V}
  {lru : List E} {chain : ℕ → List E} {e : E} {i : ℕ}

/-! ## Lookup -/

/-- The entry that `cache_lookup` finds for a request, before it decides what to do with it. -/
def found (c : Cache E V) (ndp : Nameidata V) : Except Fault (Option E) :=
  if ¬ c.doingcache ∨ nchnamlen < ndp.niName.length then .ok none
  else c.search ndp (ndp.niHash &&& c.nchash) (c.numcache + 1)
    (c.chains.next (.bucket (ndp.niHash &&& c.nchash)))

/-- An entry for the vnode `vp`, or for none, does not answer the request: it is a hit for another
generation of `vp`, or a creation asks for a name that was known not to exist. -/
def Refused (c : Cache E V) (ndp : Nameidata V) (ncp : E) : Option V → Prop
  | none => ndp.niNameiop &&& opmask = create
  | some vp => (c.entries ncp).ncVpid ≠ c.vId vp

instance (c : Cache E V) (ndp : Nameidata V) (ncp : E) : (vp : Option V) →
    Decidable (c.Refused ndp ncp vp)
  | none => inferInstanceAs (Decidable (_ = _))
  | some _ => inferInstanceAs (Decidable (_ ≠ _))

/-- The entry found is dropped. -/
def Dropped (c : Cache E V) (ndp : Nameidata V) (ncp : E) : Prop :=
  ndp.niMakeentry = false ∨ c.Refused ndp ncp (c.entries ncp).ncVp

instance (c : Cache E V) (ndp : Nameidata V) (ncp : E) : Decidable (c.Dropped ndp ncp) :=
  inferInstanceAs (Decidable (_ ∨ _))

/-- The answer that an entry gives. -/
def answer (c : Cache E V) (ndp : Nameidata V) (ncp : E) : ℤ × Nameidata V :=
  match (c.entries ncp).ncVp with
  | none => (enoent, ndp)
  | some vp => (-1, { ndp with niVp := some vp })

/-- The entry found is the first match on the chain of the name. -/
theorem Shape.found (h : c.Shape lru chain) : c.found ndp =
    .ok (if ¬ c.doingcache ∨ nchnamlen < ndp.niName.length then none
      else (chain (ndp.niHash &&& c.nchash)).find? (c.Matches ndp ·)) := by
  unfold Cache.found
  split_ifs
  · rfl
  · exact h.search Nat.and_le_right

theorem Shape.found_first (h : c.Shape lru chain) (hfound : c.found ndp = .ok (some e)) :
    (chain (ndp.niHash &&& c.nchash)).find? (c.Matches ndp ·) = some e := by
  rw [h.found] at hfound
  split_ifs at hfound with hno
  · exact absurd hfound (by simp)
  · exact Except.ok.inj hfound

theorem Shape.found_mem (h : c.Shape lru chain) (hfound : c.found ndp = .ok (some e)) :
    e ∈ chain (ndp.niHash &&& c.nchash) ∧ c.Matches ndp e := by
  have hfind := h.found_first hfound
  exact ⟨List.mem_of_find?_eq_some hfind, by simpa using List.find?_some hfind⟩

variable [DecidableEq E]

/-- `cache_lookup` when it finds nothing. -/
theorem cacheLookup_of_found_none (h : c.found ndp = .ok none) :
    ∃ makeentry, c.cacheLookup ndp = .ok (0, { ndp with niMakeentry := makeentry }, c) := by
  unfold found at h
  unfold cacheLookup
  by_cases hdoing : c.doingcache = true
  · by_cases hlong : nchnamlen < ndp.niName.length
    · exact ⟨false, by simp [hdoing, hlong, pure, Except.pure]⟩
    · rw [if_neg (by simp [hdoing, hlong])] at h
      exact ⟨ndp.niMakeentry, by simp [hdoing, hlong, h, pure, Except.pure, bind, Except.bind]⟩
  · exact ⟨ndp.niMakeentry, by simp [hdoing, pure, Except.pure]⟩

/-- `cache_lookup` when it finds an entry. -/
theorem cacheLookup_of_found (h : c.found ndp = .ok (some e)) :
    c.cacheLookup ndp =
      if c.Dropped ndp e then (c.drop e).map fun d ↦ (0, ndp, d)
      else (c.moveToEnd e).map fun d ↦ ((c.answer ndp e).1, (c.answer ndp e).2, d) := by
  unfold found at h
  by_cases hno : ¬ c.doingcache ∨ nchnamlen < ndp.niName.length
  · rw [if_pos hno] at h
    exact absurd h (by simp)
  rw [if_neg hno] at h
  obtain ⟨hdoing, hlong⟩ := not_or.1 hno
  rw [not_not] at hdoing
  unfold cacheLookup answer
  simp only [hdoing, not_true_eq_false, if_false, hlong, h]
  by_cases hmake : ndp.niMakeentry = false
  · have hdrop : c.Dropped ndp e := .inl hmake
    simp [hmake, hdrop, bind, Except.bind, Except.map, pure, Except.pure]
  rw [Bool.not_eq_false] at hmake
  rcases hvp : (c.entries e).ncVp with - | vp
  · have hdrop : c.Dropped ndp e ↔ ndp.niNameiop &&& opmask = create := by
      simp [Dropped, hmake, hvp, Refused]
    by_cases hop : ndp.niNameiop &&& opmask = create
    · simp [hmake, hdrop, hop, hvp, bind, Except.bind, Except.map, pure, Except.pure]
    · simp [hmake, hdrop, hop, hvp, bind, Except.bind, Except.map, pure, Except.pure]
  · have hdrop : c.Dropped ndp e ↔ (c.entries e).ncVpid ≠ c.vId vp := by
      simp [Dropped, hmake, hvp, Refused]
    by_cases hid : (c.entries e).ncVpid = c.vId vp
    · simp [hmake, hdrop, hid, hvp, bind, Except.bind, Except.map, pure, Except.pure]
    · simp [hmake, hdrop, hid, hvp, bind, Except.bind, Except.map, pure, Except.pure]

/-- `cache_lookup` returns, unless it drops the only entry. -/
theorem Shape.cacheLookup (h : c.Shape lru chain) (ndp : Nameidata V) :
    (c.found ndp = .ok none ∧
      ∃ makeentry, c.cacheLookup ndp = .ok (0, { ndp with niMakeentry := makeentry }, c)) ∨
    ∃ e ∈ chain (ndp.niHash &&& c.nchash), c.found ndp = .ok (some e) ∧
      if c.Dropped ndp e then
        lru = [e] ∧ c.cacheLookup ndp = .error .nullPointer ∨
        lru ≠ [e] ∧ ∃ queue chains,
          c.cacheLookup ndp = .ok (0, ndp, { c with lru := queue, chains }) ∧
          Shape { c with lru := queue, chains } (e :: lru.erase e) (fun i ↦ (chain i).erase e)
      else ∃ queue,
        c.cacheLookup ndp = .ok ((c.answer ndp e).1, (c.answer ndp e).2, { c with lru := queue }) ∧
          Shape { c with lru := queue } (lru.erase e ++ [e]) chain := by
  obtain ⟨result, hresult⟩ : ∃ result, c.found ndp = .ok result := ⟨_, h.found⟩
  cases result with
  | none => exact .inl ⟨hresult, cacheLookup_of_found_none hresult⟩
  | some e =>
    have he := (h.found_mem hresult).1
    have helru : e ∈ lru := h.chained.sub _ Nat.and_le_right e he
    refine .inr ⟨e, he, hresult, ?_⟩
    rw [cacheLookup_of_found hresult]
    split_ifs with hdrop
    · by_cases honly : lru = [e]
      · subst honly
        exact .inl ⟨rfl, by rw [h.drop_only]; rfl⟩
      · obtain ⟨queue, chains, hok, hshape⟩ := h.drop helru honly
        exact .inr ⟨honly, queue, chains, by rw [hok]; rfl, hshape⟩
    · obtain ⟨queue, hok, hshape⟩ := h.moveToEnd helru
      exact ⟨queue, by rw [hok]; rfl, hshape⟩

/-! ## Entering -/

omit [DecidableEq V] in
/-- `cache_enter` takes a slot if there is one, and puts the entry last on the list and first on its
chain. -/
theorem Shape.cacheEnter (h : c.Shape lru chain) (ndp : Nameidata V) {fresh : E}
    (hfresh : fresh ∉ c.allocated) :
    (c.cacheEnter ndp fresh = .ok c ∧ (c.doingcache → c.slot fresh = none)) ∨
    ∃ e d, c.cacheEnter ndp fresh = .ok d ∧ c.doingcache ∧ c.slot fresh = some e ∧
      d.Shape (lru.erase e ++ [e])
        (update (fun i ↦ (chain i).erase e) (ndp.niHash &&& c.nchash)
          (e :: (chain (ndp.niHash &&& c.nchash)).erase e)) ∧
      (e ∉ lru ∨ lru.head? = some e) ∧ SameBut e c d ∧ d.entries e = c.record ndp := by
  unfold Cache.cacheEnter
  by_cases hdoing : c.doingcache = true
  swap
  · exact .inl ⟨by simp [hdoing, pure, Except.pure], fun hon ↦ absurd hon hdoing⟩
  rw [if_neg (by simpa using hdoing)]
  rcases h.takeSlot hfresh with ⟨hnone, hfull⟩ | ⟨e, d, htake, hslot, htaken, hhead, hsame⟩
  · exact .inl ⟨by rw [hnone]; rfl, fun _ ↦ hfull⟩
  obtain ⟨chains, hchains, hchained⟩ :=
    htaken.chained.insque htaken.notMem (hsame.nchash ▸ Nat.and_le_right :
      ndp.niHash &&& c.nchash ≤ _)
  have hperm : (lru.erase e ++ [e]).Perm (e :: lru.erase e) := List.perm_append_singleton ..
  refine .inr ⟨e, { d with
    entries := update d.entries e (d.record ndp), lru := d.lru.insertTail e, chains }, ?_,
    hdoing, hslot, ?_, hhead, ?_, ?_⟩
  · rw [htake]
    change (do
      let chains ← insque d.chains (.entry e) (.bucket (ndp.niHash &&& d.nchash))
      return { d with
        entries := update d.entries e (d.record ndp), lru := d.lru.insertTail e, chains }) = _
    rw [hsame.nchash, hchains]
    rfl
  · refine ⟨htaken.holds.insertTail htaken.notMem, hperm.trans htaken.perm, ?_, hchained⟩
    exact htaken.numcache_eq.trans (by simp)
  · exact ⟨hsame.doingcache, hsame.desiredvnodes, hsame.nchash, hsame.vId, hsame.nextvnodeid,
      fun f hf ↦ (update_of_ne hf ..).trans (hsame.entries f hf)⟩
  · change update d.entries e (d.record ndp) e = _
    rw [update_self]
    unfold record
    rw [hsame.vId]

/-! ## Purging a vnode -/

/-- The entry without its capability numbers. -/
def cleared (n : Namecache V) : Namecache V := { n with ncVpid := 0, ncDvpid := 0 }

omit [DecidableEq V] in
/-- The inner loop clears the entries of the rest of the chain. -/
theorem clearChain_of_run (nhp : ℕ) (l : List E) (c : Cache E V) (x : Link E) (turns : ℕ)
    (hrun : c.chains.Run (x :: (l.map .entry ++ [.bucket nhp]))) (hnodup : l.Nodup)
    (hturns : l.length < turns) :
    ∃ entries, clearChain nhp turns (c.chains.next x) c = .ok { c with entries } ∧
      ∀ e, entries e = if e ∈ l then cleared (c.entries e) else c.entries e := by
  induction l generalizing c x turns with
  | nil =>
    obtain ⟨turns, rfl⟩ := Nat.exists_eq_add_one.2 hturns
    rw [(List.isChain_cons_cons.1 hrun).1.1]
    exact ⟨c.entries, by simp [clearChain], fun e ↦ by simp⟩
  | cons e l ih =>
    obtain ⟨turns, rfl⟩ := Nat.exists_eq_add_one.2 (Nat.zero_lt_of_lt hturns)
    obtain ⟨hlink, hrest⟩ := List.isChain_cons_cons.1 hrun
    obtain ⟨he, hl⟩ := List.nodup_cons.1 hnodup
    rw [hlink.1, clearChain]
    obtain ⟨entries, hclear, hentries⟩ :=
      ih { c with entries := update c.entries e (cleared (c.entries e)) } (.entry e) turns hrest hl
        (by simpa using hturns)
    refine ⟨entries, hclear, fun f ↦ (hentries f).trans ?_⟩
    by_cases hf : f = e
    · subst hf
      simp [he]
    · simp [hf]

omit [DecidableEq V] in
/-- The outer loop clears the entries of the chains it has passed. -/
theorem Shape.clearChains (h : c.Shape lru chain) (count : ℕ) (hcount : count ≤ c.nchash + 1) :
    ∃ entries, clearChains count c = .ok { c with entries } ∧
      ∀ e, ((∃ i < count, e ∈ chain i) → entries e = cleared (c.entries e)) ∧
        ((∀ i < count, e ∉ chain i) → entries e = c.entries e) := by
  induction count generalizing c with
  | zero => exact ⟨c.entries, rfl, fun e ↦ ⟨by simp, fun _ ↦ rfl⟩⟩
  | succ count ih =>
    have hle : count ≤ c.nchash := Nat.le_of_lt_succ hcount
    obtain ⟨first, hclear, hfirst⟩ := clearChain_of_run count (chain count) c (.bucket count)
      (c.numcache + 1) (h.chained.ring count hle).2 (h.chained.nodup hle)
      (Nat.lt_succ_of_le (h.length_chain_le hle))
    have hnext : Shape { c with entries := first } lru chain :=
      ⟨h.holds, h.perm, h.numcache_eq, h.chained⟩
    obtain ⟨entries, hrest, hentries⟩ := ih hnext (Nat.le_of_succ_le hcount)
    refine ⟨entries, ?_, fun e ↦ ⟨?_, ?_⟩⟩
    · simp only [Cache.clearChains, hclear]
      exact hrest
    · rintro ⟨i, hi, he⟩
      have honly : ∀ j ≤ c.nchash, e ∈ chain j → i = j := fun j hj hej ↦
        h.chained.disjoint i (Nat.le_trans (Nat.le_of_lt_succ hi) hle) j hj e he hej
      rcases Nat.lt_or_ge i count with hlt | hge
      · have hout : e ∉ chain count := fun hmem ↦ (honly count hle hmem ▸ hlt).false
        rw [(hentries e).1 ⟨i, hlt, he⟩]
        exact congrArg cleared ((hfirst e).trans (if_neg hout))
      · obtain rfl : i = count := Nat.le_antisymm (Nat.le_of_lt_succ hi) hge
        rw [(hentries e).2 fun j hj hej ↦ hj.ne (honly j (Nat.le_trans hj.le hle) hej).symm]
        exact (hfirst e).trans (if_pos he)
    · intro hnot
      rw [(hentries e).2 fun i hi ↦ hnot i (Nat.lt_succ_of_lt hi)]
      exact (hfirst e).trans (if_neg (hnot count (Nat.lt_succ_self count)))

/-- `cache_purge` leaves the lists as they are. The vnode takes the next number, or, when the
numbers are used up, every number on the hash chains is cleared and they start again. -/
theorem Shape.cachePurge (h : c.Shape lru chain) (vp : V) :
    ∃ d, c.cachePurge vp = .ok d ∧ d.Shape lru chain ∧ d.doingcache = c.doingcache ∧
      d.desiredvnodes = c.desiredvnodes ∧ d.nchash = c.nchash ∧
      (((c.nextvnodeid + 1) % 2 ^ 32 ≠ 0 ∧ d.nextvnodeid = (c.nextvnodeid + 1) % 2 ^ 32 ∧
          d.vId = update c.vId vp ((c.nextvnodeid + 1) % 2 ^ 32) ∧ d.entries = c.entries) ∨
        ((c.nextvnodeid + 1) % 2 ^ 32 = 0 ∧ d.nextvnodeid = 1 ∧ d.vId = update c.vId vp 1 ∧
          ∀ i ≤ c.nchash, ∀ e ∈ chain i, d.entries e = cleared (c.entries e))) := by
  have hnew : ∀ d : Cache E V, d.Shape lru chain → (d.newId vp).Shape lru chain :=
    fun d hd ↦ ⟨hd.holds, hd.perm, hd.numcache_eq, hd.chained⟩
  unfold Cache.cachePurge
  by_cases hwrap : (c.nextvnodeid + 1) % 2 ^ 32 = 0
  · obtain ⟨entries, hclear, hentries⟩ := (hnew c h).clearChains (c.nchash + 1) le_rfl
    have hzero : (c.newId vp).nextvnodeid = 0 := hwrap
    refine ⟨newId { c.newId vp with entries } vp, ?_, hnew _ ?_, rfl, rfl, rfl,
      .inr ⟨hwrap, ?_, ?_, ?_⟩⟩
    · rw [if_neg (not_not.2 hzero)]
      change (do
        let c ← Cache.clearChains (c.nchash + 1) (c.newId vp)
        return c.newId vp) = _
      rw [hclear]
      rfl
    · exact ⟨h.holds, h.perm, h.numcache_eq, h.chained⟩
    · exact congrArg (fun id ↦ (id + 1) % 2 ^ 32) hzero
    · change update (c.newId vp).vId vp (((c.newId vp).nextvnodeid + 1) % 2 ^ 32) = _
      rw [hzero]
      exact update_idem ..
    · exact fun i hi e he ↦ (hentries e).1 ⟨i, Nat.lt_succ_of_le hi, he⟩
  · refine ⟨c.newId vp, ?_, hnew c h, rfl, rfl, rfl, .inl ⟨hwrap, rfl, rfl, rfl⟩⟩
    rw [if_pos (by exact hwrap)]
    rfl

/-! ## Purging a file system -/

section Purgevfs

variable {M : Type*} [DecidableEq M] {vMount : V → Option M} {mp : M}

/-- The entry is for a directory of the file system. -/
def OnFs (vMount : V → Option M) (mp : M) (c : Cache E V) (ncp : E) : Prop :=
  (c.entries ncp).ncDvp.bind vMount = some mp

instance (c : Cache E V) (ncp : E) : Decidable (OnFs vMount mp c ncp) :=
  inferInstanceAs (Decidable (_ = _))

/-- What `cache_purgevfs` does to the lists: the entries of the file system leave their chains, and
the others stay as they are, in the same order. -/
structure Purged (vMount : V → Option M) (mp : M) (c d : Cache E V) (lru lru' : List E)
    (chain chain' : ℕ → List E) : Prop where
  nchash : d.nchash = c.nchash
  vId : d.vId = c.vId
  nextvnodeid : d.nextvnodeid = c.nextvnodeid
  entries : ∀ e, ¬ OnFs vMount mp c e → d.entries e = c.entries e
  gone : ∀ e ∈ lru, ¬ OnFs vMount mp d e
  chain : ∀ i ≤ c.nchash, chain' i = (chain i).filter (¬ OnFs vMount mp c ·)
  order : lru'.filter (¬ OnFs vMount mp c ·) = lru.filter (¬ OnFs vMount mp c ·)

omit [DecidableEq V] in
theorem purgevfsLoop_of_not_onFs (turns : ℕ) (he : ¬ OnFs vMount mp c e) :
    purgevfsLoop vMount mp (turns + 1) (some e) c =
      purgevfsLoop vMount mp turns (c.lru.next e) c := if_pos he

omit [DecidableEq V] in
theorem purgevfsLoop_of_onFs (turns : ℕ) (he : OnFs vMount mp c e) :
    purgevfsLoop vMount mp (turns + 1) (some e) c = (do
      let (nxtcp, c) ← c.free e
      purgevfsLoop vMount mp turns nxtcp c) := if_neg (not_not.2 he)

omit [DecidableEq V] [DecidableEq M] in
/-- Freeing an entry takes that entry out of the file system. -/
theorem onFs_free {lists : TailQueue E} {chains : Links (Link E)} {f : E} :
    OnFs vMount mp { c with
      entries := update c.entries e { c.entries e with ncVp := none, ncDvp := none }
      chains, lru := lists } f ↔ f ≠ e ∧ OnFs vMount mp c f := by
  unfold OnFs
  by_cases hf : f = e
  · simp [hf]
  · simp [hf]

omit [DecidableEq V] in
/-- Freeing one entry and then the others. -/
theorem Purged.of_free {queue : TailQueue E} {chains : Links (Link E)} {lru' : List E}
    {chain' : ℕ → List E} (h : c.Shape lru chain) (he : e ∈ lru) (hfs : OnFs vMount mp c e)
    (hpurged : Purged vMount mp { c with
      entries := update c.entries e { c.entries e with ncVp := none, ncDvp := none }
      chains, lru := queue } d (e :: lru.erase e) lru' (fun i ↦ (chain i).erase e) chain') :
    Purged vMount mp c d lru lru' chain chain' := by
  have hperm : (e :: lru.erase e).Perm lru := (List.perm_cons_erase he).symm
  have hkeep : ∀ f, ¬ OnFs vMount mp c f → f ≠ e := fun f hf hfe ↦ hf (hfe ▸ hfs)
  refine ⟨hpurged.nchash, hpurged.vId, hpurged.nextvnodeid, ?_, ?_, ?_, ?_⟩
  · intro f hf
    refine (hpurged.entries f fun hnew ↦ hf (onFs_free.1 hnew).2).trans ?_
    exact update_of_ne (hkeep f hf) ..
  · exact fun f hf ↦ hpurged.gone f (hperm.mem_iff.2 hf)
  · intro i hi
    rw [hpurged.chain i hi, (h.chained.nodup hi).erase_eq_filter, List.filter_filter]
    refine List.filter_congr fun f _ ↦ ?_
    by_cases hf : OnFs vMount mp c f
    · by_cases hfe : f = e
      · simp [hfe, hfs, onFs_free]
      · simp [hf, hfe, onFs_free]
    · simp [hf, hkeep f hf, onFs_free]
  · have hcollapse : ∀ l : List E, (l.filter (¬ OnFs vMount mp { c with
        entries := update c.entries e { c.entries e with ncVp := none, ncDvp := none }
        chains, lru := queue } ·)).filter (¬ OnFs vMount mp c ·) =
          l.filter (¬ OnFs vMount mp c ·) := by
      intro l
      rw [List.filter_filter]
      refine List.filter_congr fun f _ ↦ ?_
      by_cases hf : OnFs vMount mp c f
      · simp [hf]
      · simp [hf, onFs_free]
    have horder := congrArg (List.filter (¬ OnFs vMount mp c ·)) hpurged.order
    rw [hcollapse, hcollapse] at horder
    rw [horder, List.filter_cons_of_neg (by simpa using hfs), h.holds.nodup.erase_eq_filter,
      List.filter_filter]
    refine List.filter_congr fun f _ ↦ ?_
    by_cases hf : OnFs vMount mp c f
    · simp [hf]
    · simp [hf, hkeep f hf]

omit [DecidableEq V] in
/-- The loop passes the entries of other file systems, and after each entry it frees the list is
passed again from its head, with one entry less to free. -/
theorem Shape.purgevfsLoop (turns : ℕ) (h : c.Shape lru chain) (p s : List E) (hlru : lru = p ++ s)
    (hpassed : ∀ f ∈ p, ¬ OnFs vMount mp c f)
    (hothers : ∀ e ∈ lru, OnFs vMount mp c e → lru ≠ [e])
    (hturns : lru.countP (OnFs vMount mp c ·) * (lru.length + 1) + s.length < turns) :
    ∃ d lru' chain', purgevfsLoop vMount mp turns s.head? c = .ok d ∧ d.Shape lru' chain' ∧
      Purged vMount mp c d lru lru' chain chain' := by
  induction turns generalizing c lru chain p s with
  | zero => exact absurd hturns (Nat.not_lt_zero _)
  | succ turns ih =>
    cases s with
    | nil =>
      rw [List.append_nil] at hlru
      subst hlru
      refine ⟨c, lru, chain, rfl, h, rfl, rfl, rfl, fun e _ ↦ rfl, hpassed, ?_, rfl⟩
      intro i hi
      rw [List.filter_eq_self.2]
      intro e he
      simpa using hpassed e (h.chained.sub i hi e he)
    | cons e s =>
      have he : e ∈ lru := hlru ▸ by simp
      have hnext : c.lru.next e = s.head? := (hlru ▸ h.holds).links_of_append.2.2
      rw [List.head?_cons]
      by_cases hfs : OnFs vMount mp c e
      · obtain ⟨queue, chains, hfree, hshape⟩ := h.free he (hothers e he hfs)
        have hrun : ∀ first d, c.free e = .ok (first, d) →
            Cache.purgevfsLoop vMount mp (turns + 1) (some e) c =
              Cache.purgevfsLoop vMount mp turns first d := by
          intro first d hd
          rw [purgevfsLoop_of_onFs turns hfs, hd]
          rfl
        rw [hrun _ _ hfree]
        have hperm : (e :: lru.erase e).Perm lru := (List.perm_cons_erase he).symm
        have hothers' : lru ≠ [e] := hothers e he hfs
        have hcount : (e :: lru.erase e).countP (OnFs vMount mp { c with
            entries := update c.entries e { c.entries e with ncVp := none, ncDvp := none }
            chains, lru := queue } ·) < lru.countP (OnFs vMount mp c ·) := by
          rw [List.countP_cons_of_neg (by simp [onFs_free]), ← hperm.countP_eq (OnFs vMount mp c ·)]
          refine Nat.lt_of_le_of_lt (List.countP_mono_left (q := (OnFs vMount mp c ·))
            fun f _ hf ↦ ?_) ?_
          · simpa using (onFs_free.1 (by simpa using hf)).2
          · rw [List.countP_cons_of_pos (by simpa using hfs)]
            exact Nat.lt_succ_self _
        have hlength : (lru.erase e).length + 1 = lru.length := hperm.length_eq
        obtain ⟨d, lru', chain', hloop, hshape', hpurged⟩ :=
          ih hshape [e] (lru.erase e) rfl
            (fun f hf hnew ↦ (onFs_free.1 hnew).1 (List.mem_singleton.1 hf))
            (fun f hf hnew hsingle ↦ by
              rw [hsingle] at hperm
              obtain rfl : lru = [f] := List.perm_singleton.1 hperm.symm
              exact hothers' (congrArg (fun g ↦ [g]) (List.mem_singleton.1 he).symm))
            (by
              have hmul := Nat.mul_le_mul_right (lru.length + 1) hcount
              rw [Nat.succ_mul] at hmul
              rw [List.length_cons] at hturns
              rw [hperm.length_eq]
              omega)
        exact ⟨d, lru', chain', hloop, hshape', hpurged.of_free h he hfs⟩
      · rw [purgevfsLoop_of_not_onFs turns hfs, hnext]
        refine ih h (p ++ [e]) s (by simp [hlru]) ?_ hothers ?_
        · intro f hf
          rcases List.mem_append.1 hf with hf | hf
          · exact hpassed f hf
          · exact List.mem_singleton.1 hf ▸ hfs
        · rw [List.length_cons] at hturns
          omega

omit [DecidableEq V] in
/-- `cache_purgevfs`, unless it frees the only entry. -/
theorem Shape.cachePurgevfs (h : c.Shape lru chain) (vMount : V → Option M) (mp : M)
    (hothers : ∀ e ∈ lru, OnFs vMount mp c e → lru ≠ [e]) :
    ∃ d lru' chain', c.cachePurgevfs vMount mp = .ok d ∧ d.Shape lru' chain' ∧
      Purged vMount mp c d lru lru' chain chain' := by
  unfold Cache.cachePurgevfs
  rw [h.holds.head_eq]
  refine h.purgevfsLoop _ [] lru rfl (fun f hf ↦ absurd hf List.not_mem_nil) hothers ?_
  have hcount := Nat.mul_le_mul_right (lru.length + 1)
    (List.countP_le_length (p := (OnFs vMount mp c ·)) (l := lru))
  rw [h.numcache_eq, Nat.succ_mul]
  omega

omit [DecidableEq V] in
theorem Shape.cachePurgevfs_only (h : c.Shape [e] chain) (hfs : OnFs vMount mp c e) :
    c.cachePurgevfs vMount mp = .error .nullPointer := by
  have hturns : (c.numcache + 1) * (c.numcache + 1) = 3 + 1 := by
    rw [h.numcache_eq]
    rfl
  unfold Cache.cachePurgevfs
  rw [h.holds.head_eq, hturns, List.head?_cons, purgevfsLoop_of_onFs 3 hfs, h.free_only]
  rfl

end Purgevfs

end Bsd386.Kern.Namcache.Cache
