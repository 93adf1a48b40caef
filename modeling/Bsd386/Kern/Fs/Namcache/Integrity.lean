import Mathlib.Logic.Relation
import Bsd386.Kern.Fs.Namcache.Routines

/-!
# Integrity of the name cache

From `nchinit` on, the lists of the cache stay well formed, and a call fails in one case only: it
follows a null pointer when it drops or frees an entry while no other is allocated.
-/

namespace Bsd386.Kern.Namcache.Cache

open Function Relation

universe u

variable {E V : Type u} [DecidableEq E]

/-! ## Initialization -/

/-- The heads are made chains of their own one by one, and stay so. -/
theorem ring_initChains (count : ℕ) (m : Links (Link E)) (i : ℕ)
    (h : i < count ∨ m.Ring (.bucket i) []) : (initChains count m).Ring (.bucket i) [] := by
  induction count generalizing m with
  | zero => exact h.resolve_left (Nat.not_lt_zero i)
  | succ count ih =>
    refine ih _ ?_
    by_cases hi : i = count
    · subst hi
      exact .inr ⟨List.nodup_singleton _, List.isChain_pair.2 (m.linked_join _ _)⟩
    · have hne : Link.bucket count ∉ [Link.bucket (E := E) i] := by
        simpa using Ne.symm hi
      exact h.imp (fun hlt ↦ by omega) fun hring ↦ hring.join_of_notMem hne hne

/-- The loop stops at the first power past the number of heads that fit. -/
theorem nchashLoop_half (heads turns nchash : ℕ) (h : nchash / 2 ≤ heads) :
    nchashLoop heads turns nchash / 2 ≤ heads := by
  induction turns generalizing nchash with
  | zero => exact h
  | succ turns ih =>
    unfold nchashLoop
    split_ifs with hle
    · refine ih _ ?_
      rw [Nat.shiftLeft_eq]
      omega
    · exact h

/-- The heads that are used are inside the table. -/
theorem nchinit_table (c : Cache E V) :
    (nchinit c).nchash + 1 ≤ nchashsize c.desiredvnodes / 8 := by
  have hhalf := nchashLoop_half (nchashsize c.desiredvnodes / 8) 32 1 (Nat.zero_le _)
  have hsize : 4096 ≤ nchashsize c.desiredvnodes := by
    unfold nchashsize
    omega
  simp only [nchinit, Nat.shiftRight_eq_div_pow]
  omega

/-- Before `nchinit` nothing is allocated; whatever else memory holds does not matter. -/
def Initial (c : Cache E V) : Prop := ∃ boot : Cache E V, boot.numcache = 0 ∧
  boot.allocated = [] ∧ c = nchinit boot

theorem Initial.shape {c : Cache E V} (h : c.Initial) : c.Shape [] fun _ ↦ [] := by
  obtain ⟨boot, hnumcache, hallocated, rfl⟩ := h
  refine ⟨TailQueue.Holds.nil _ _, by simp [nchinit, hallocated], hnumcache, ?_, ?_, ?_, ?_⟩
  · exact fun i hi ↦ ring_initChains _ _ i (.inl (Nat.lt_succ_of_le hi))
  · exact fun _ _ _ he ↦ absurd he List.not_mem_nil
  · exact fun _ _ _ _ _ he ↦ absurd he List.not_mem_nil
  · exact fun _ he ↦ absurd he List.not_mem_nil

/-! ## Calls -/

variable [DecidableEq V] {M : Type u} [DecidableEq M]

/-- A call of one of the routines. A new entry comes from `malloc`, and `v_mount` is read from the
vnodes as they are at the time. -/
inductive Call (E V M : Type u)
  | lookup (ndp : Nameidata V)
  | enter (ndp : Nameidata V) (fresh : E)
  | purge (vp : V)
  | purgevfs (vMount : V → Option M) (mp : M)

/-- The cache after a call. -/
def Call.run (c : Cache E V) : Call E V M → Except Fault (Cache E V)
  | .lookup ndp => (c.cacheLookup ndp).map fun result ↦ result.2.2
  | .enter ndp fresh => c.cacheEnter ndp fresh
  | .purge vp => c.cachePurge vp
  | .purgevfs vMount mp => c.cachePurgevfs vMount mp

/-- What callers and `malloc` promise: only names that fit are entered, and memory that is in use is
not given out again. -/
def Call.Allowed (c : Cache E V) : Call E V M → Prop
  | .enter ndp fresh => ndp.niName.length ≤ nchnamlen ∧ fresh ∉ c.allocated
  | _ => True

/-- The call drops or frees an entry while it is the only one allocated. -/
def Call.DropsOnly (c : Cache E V) : Call E V M → Prop
  | .lookup ndp => c.numcache = 1 ∧ ∃ e, c.found ndp = .ok (some e) ∧ c.Dropped ndp e
  | .purgevfs vMount mp => c.numcache = 1 ∧ ∃ e ∈ c.allocated, OnFs vMount mp c e
  | _ => False

/-- One call that does not drop the only entry. -/
def Step (M : Type u) [DecidableEq M] (c d : Cache E V) : Prop :=
  ∃ call : Call E V M, call.Allowed c ∧ ¬ call.DropsOnly c ∧ call.run c = .ok d

variable {c d : Cache E V} {lru : List E} {chain : ℕ → List E}

/-- Every call keeps the lists well formed and returns, unless it drops the only entry. -/
theorem Shape.call (h : c.Shape lru chain) (call : Call E V M) (hallowed : call.Allowed c) :
    (call.DropsOnly c ∧ call.run c = .error .nullPointer) ∨
    (¬ call.DropsOnly c ∧ ∃ d, call.run c = .ok d ∧ ∃ lru' chain', d.Shape lru' chain') := by
  cases call with
  | lookup ndp =>
    have hrun : ∀ {result}, c.cacheLookup ndp = result →
        Call.run c (.lookup ndp : Call E V M) = result.map fun r ↦ r.2.2 :=
      fun hresult ↦ congrArg (Except.map fun r : ℤ × Nameidata V × Cache E V ↦ r.2.2) hresult
    rcases h.cacheLookup ndp with ⟨hnone, makeentry, hok⟩ | ⟨e, he, hsome, hcase⟩
    · refine .inr ⟨?_, c, hrun hok, lru, chain, h⟩
      rintro ⟨-, e, he, -⟩
      rw [hnone] at he
      exact absurd he (by simp)
    · have hdrops : (Call.lookup ndp : Call E V M).DropsOnly c ↔
          c.numcache = 1 ∧ c.Dropped ndp e := by
        simp [Call.DropsOnly, hsome]
      have helru : e ∈ lru := h.chained.sub _ Nat.and_le_right e he
      rw [hdrops]
      split_ifs at hcase with hdrop
      · rcases hcase with ⟨rfl, hfault⟩ | ⟨hothers, queue, chains, hok, hshape⟩
        · exact .inl ⟨⟨h.numcache_eq, hdrop⟩, hrun hfault⟩
        · refine .inr ⟨fun hone ↦ hothers ?_, _, hrun hok, _, _, hshape⟩
          obtain ⟨f, rfl⟩ := List.length_eq_one_iff.1 (h.numcache_eq.symm.trans hone.1)
          rw [List.mem_singleton.1 helru]
      · obtain ⟨queue, hok, hshape⟩ := hcase
        exact .inr ⟨fun hone ↦ hdrop hone.2, _, hrun hok, _, _, hshape⟩
  | enter ndp fresh =>
    refine .inr ⟨id, ?_⟩
    rcases h.cacheEnter ndp hallowed.2 with ⟨hok, -⟩ | ⟨e, d, hok, -, -, hshape, -⟩
    · exact ⟨c, hok, lru, chain, h⟩
    · exact ⟨d, hok, _, _, hshape⟩
  | purge vp =>
    obtain ⟨d, hok, hshape, -⟩ := h.cachePurge vp
    exact .inr ⟨id, d, hok, _, _, hshape⟩
  | purgevfs vMount mp =>
    by_cases honly : ∃ e, OnFs vMount mp c e ∧ lru = [e]
    · obtain ⟨e, hfs, rfl⟩ := honly
      exact .inl ⟨⟨h.numcache_eq, e, h.perm.mem_iff.1 (List.mem_singleton_self e), hfs⟩,
        h.cachePurgevfs_only hfs⟩
    · push Not at honly
      obtain ⟨d, lru', chain', hok, hshape, -⟩ :=
        h.cachePurgevfs vMount mp fun e _ hfs ↦ honly e hfs
      refine .inr ⟨fun ⟨hone, e, he, hfs⟩ ↦ honly e hfs ?_, d, hok, lru', chain', hshape⟩
      obtain ⟨f, rfl⟩ := List.length_eq_one_iff.1 (h.numcache_eq.symm.trans hone)
      rw [List.mem_singleton.1 (h.perm.mem_iff.2 he)]

/-! ## Runs -/

/-- The states of all runs from `nchinit` in which no call drops the only entry. -/
def Reachable (M : Type u) [DecidableEq M] (c : Cache E V) : Prop :=
  ∃ start, Initial start ∧ ReflTransGen (Step M) start c

theorem Reachable.shape (h : Reachable M c) : ∃ lru chain, c.Shape lru chain := by
  obtain ⟨start, hstart, hrun⟩ := h
  induction hrun with
  | refl => exact ⟨_, _, hstart.shape⟩
  | tail _ hstep ih =>
    obtain ⟨lru, chain, hshape⟩ := ih
    obtain ⟨call, hallowed, hsafe, hrun⟩ := hstep
    rcases hshape.call call hallowed with ⟨hdrops, -⟩ | ⟨-, d, hok, hnext⟩
    · exact absurd hdrops hsafe
    · obtain rfl := Except.ok.inj (hrun.symm.trans hok)
      exact hnext

/-- In every state the lists are well formed, and exactly the calls that drop the only entry follow
a null pointer. -/
theorem namcache_integrity (h : Reachable M c) :
    (∃ lru chain, c.Shape lru chain) ∧ ∀ call : Call E V M, call.Allowed c →
      ((∃ d, call.run c = .ok d) ↔ ¬ call.DropsOnly c) ∧
        (call.DropsOnly c → call.run c = .error .nullPointer) := by
  obtain ⟨lru, chain, hshape⟩ := h.shape
  refine ⟨⟨lru, chain, hshape⟩, fun call hallowed ↦ ?_⟩
  rcases hshape.call call hallowed with ⟨hdrops, hfault⟩ | ⟨hsafe, d, hok, -⟩
  · exact ⟨⟨fun ⟨d, hd⟩ ↦ absurd (hfault.symm.trans hd) (by simp), fun hsafe ↦ absurd hdrops hsafe⟩,
      fun _ ↦ hfault⟩
  · exact ⟨⟨fun _ ↦ hsafe, fun _ ↦ ⟨d, hok⟩⟩, fun hdrops ↦ absurd hdrops hsafe⟩

/-! ## One entry -/

/-- Memory before `nchinit`, with room for `desiredvnodes` entries. -/
def boot (desiredvnodes : ℕ) : Cache ℕ ℕ where
  doingcache := true
  desiredvnodes
  nchash := 0
  numcache := 0
  lru := ⟨none, .head, fun _ ↦ none, fun _ ↦ none⟩
  chains := ⟨fun _ ↦ none, fun _ ↦ none⟩
  entries _ := ⟨none, 0, none, 0, []⟩
  vId _ := 0
  nextvnodeid := 0
  allocated := []

theorem boot_initial (desiredvnodes : ℕ) : (nchinit (boot desiredvnodes)).Initial :=
  ⟨boot desiredvnodes, rfl, rfl, rfl⟩

/-- A lookup of an empty name in directory 0, or the entry of `vp` for it. -/
def request (makeentry : Bool) (vp : ℕ) : Nameidata ℕ := ⟨0, [], 0, makeentry, 0, some vp⟩

/-- While there is room, `cache_enter` puts the name first on its chain. -/
theorem enter_room {c : Cache ℕ ℕ} {lru : List ℕ} {chain : ℕ → List ℕ} (h : c.Shape lru chain)
    (hdoing : c.doingcache) (hroom : c.numcache < c.desiredvnodes) (fresh : ℕ)
    (hfresh : fresh ∉ c.allocated) (vp : ℕ) :
    ∃ d chain', c.cacheEnter (request true vp) fresh = .ok d ∧ d.Shape (lru ++ [fresh]) chain' ∧
      chain' 0 = fresh :: chain 0 ∧ SameBut fresh c d ∧
      d.entries fresh = c.record (request true vp) := by
  have hslot : c.slot fresh = some fresh := if_pos hroom
  have hlru : fresh ∉ lru := fun hmem ↦ hfresh (h.perm.mem_iff.1 hmem)
  have hchain : fresh ∉ chain 0 := fun hmem ↦ hlru (h.chained.sub 0 (Nat.zero_le _) fresh hmem)
  rcases h.cacheEnter (request true vp) hfresh with
    ⟨-, hfull⟩ | ⟨e, d, hok, -, he, hshape, -, hsame, hrecord⟩
  · exact absurd ((hfull hdoing).symm.trans hslot) (by simp)
  · obtain rfl := Option.some.inj (hslot.symm.trans he)
    have hbucket : (request true vp).niHash &&& c.nchash = 0 := Nat.zero_and _
    rw [List.erase_of_not_mem hlru, hbucket] at hshape
    refine ⟨d, _, hok, hshape, ?_, hsame, hrecord⟩
    rw [update_self, List.erase_of_not_mem hchain]

/-- A lookup finds the first entry of the chain. -/
theorem found_first {c : Cache ℕ ℕ} {lru : List ℕ} {chain : ℕ → List ℕ} (h : c.Shape lru chain)
    (hdoing : c.doingcache) {e : ℕ} {rest : List ℕ} (hchain : chain 0 = e :: rest) {vp : ℕ}
    {vId : ℕ → ℕ} (hentry : c.entries e = ⟨some 0, vId 0, some vp, vId vp, []⟩)
    (hvId : c.vId = vId) (makeentry : Bool) (vp' : ℕ) :
    c.found (request makeentry vp') = .ok (some e) := by
  have hmatch : c.Matches (request makeentry vp') e := by
    unfold Matches
    rw [hentry, hvId]
    exact ⟨rfl, rfl, rfl⟩
  have hbucket : (request makeentry vp').niHash &&& c.nchash = 0 := Nat.zero_and _
  have hshort : ¬ (¬ c.doingcache ∨ nchnamlen < (request makeentry vp').niName.length) := by
    rw [hdoing]
    exact of_decide_eq_false rfl
  rw [h.found, if_neg hshort, hbucket, hchain, List.find?_cons_of_pos (by simpa using hmatch)]

/-- An entry with the present numbers is kept. -/
theorem not_dropped {c : Cache ℕ ℕ} {e vp : ℕ} {vId : ℕ → ℕ}
    (hentry : c.entries e = ⟨some 0, vId 0, some vp, vId vp, []⟩) (hvId : c.vId = vId) (vp' : ℕ) :
    ¬ c.Dropped (request true vp') e := by
  unfold Dropped
  rw [hentry]
  unfold Refused
  rw [hentry, hvId]
  simp [request]

/-- After one `cache_enter` there is one entry, and lookups find it. -/
theorem enter_one : ∃ c, (nchinit (boot 1)).cacheEnter (request true 1) 0 = .ok c ∧
    (∃ chain, c.Shape [0] chain) ∧
    (∀ makeentry, c.found (request makeentry 1) = .ok (some 0)) ∧
      ¬ c.Dropped (request true 1) 0 := by
  obtain ⟨c, chain, hok, hshape, hchain, hsame, hrecord⟩ :=
    enter_room (boot_initial 1).shape rfl (by decide) 0 List.not_mem_nil 1
  have hdoing : c.doingcache := hsame.doingcache
  exact ⟨c, hok, ⟨chain, hshape⟩, fun makeentry ↦
    found_first hshape hdoing hchain hrecord hsame.vId makeentry 1,
    not_dropped hrecord hsame.vId 1⟩

theorem enter_one_reachable {c : Cache ℕ ℕ}
    (hok : (nchinit (boot 1)).cacheEnter (request true 1) 0 = .ok c) : Reachable ℕ c :=
  ⟨_, boot_initial 1,
    .single ⟨.enter (request true 1) 0, ⟨by decide, List.not_mem_nil⟩, id, hok⟩⟩

/-- With one entry, a lookup that keeps it returns, and one that drops it follows a null pointer. -/
theorem namcache_integrity_one : ∃ c : Cache ℕ ℕ, Reachable ℕ c ∧ c.numcache = 1 ∧
    (∃ d, (Call.lookup (request true 1) : Call ℕ ℕ ℕ).run c = .ok d) ∧
    (Call.lookup (request false 1) : Call ℕ ℕ ℕ).run c = .error .nullPointer := by
  obtain ⟨c, hok, ⟨chain, hshape⟩, hfound, hkeep⟩ := enter_one
  have hreachable := enter_one_reachable hok
  have hcalls := (namcache_integrity hreachable).2
  refine ⟨c, hreachable, hshape.numcache_eq, ?_, ?_⟩
  · refine (hcalls (.lookup (request true 1)) trivial).1.2 ?_
    rintro ⟨-, f, hf, hdropped⟩
    obtain rfl := Option.some.inj (Except.ok.inj ((hfound true).symm.trans hf))
    exact hkeep hdropped
  · exact (hcalls (.lookup (request false 1)) trivial).2
      ⟨hshape.numcache_eq, 0, hfound false, .inl rfl⟩

/-- Dropping the only entry follows a null pointer. -/
theorem namcache_integrity_fails : ¬ ∀ c : Cache ℕ ℕ, Reachable ℕ c →
    ∀ call : Call ℕ ℕ ℕ, call.Allowed c → ∃ d, call.run c = .ok d := by
  intro hall
  obtain ⟨c, hok, ⟨chain, hshape⟩, hfound, -⟩ := enter_one
  obtain ⟨d, hd⟩ := hall c (enter_one_reachable hok) (.lookup (request false 1)) trivial
  rcases hshape.call (.lookup (request false 1) : Call ℕ ℕ ℕ) trivial with
    ⟨-, hfault⟩ | ⟨hsafe, -⟩
  · exact absurd (hfault.symm.trans hd) (by simp)
  · exact hsafe ⟨hshape.numcache_eq, 0, hfound false, .inl rfl⟩

end Bsd386.Kern.Namcache.Cache
