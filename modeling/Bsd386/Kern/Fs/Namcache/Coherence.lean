import Bsd386.Kern.Fs.Namcache.History

/-!
# Coherence of the name cache

What lookups return, in every state of every run: nothing about a vnode from before it was purged,
and as a positive hit only the vnode entered last for the name. Both hold as long as no purge brings
an old entry back and no lookup drops an entry in front of an outdated one. Neither holds without
this: after the numbers have started again a purge may give a directory the very number it has, and
an entry for a name may hide another.
-/

namespace Bsd386.Kern.Namcache.Cache

open Function

universe u

variable {E V M : Type u} [DecidableEq E] [DecidableEq V] [DecidableEq M]

/-! ## Runs -/

/-- The hash in the request is that of the name, as `lookup` computes it. -/
def Call.Hashed : Call E V M → Prop
  | .lookup ndp => ndp.niHash = componentHash ndp.niName
  | .enter ndp _ => ndp.niHash = componentHash ndp.niName
  | _ => True

/-- The runs from `nchinit` with their records, in which every call is permitted. -/
inductive Traced (M : Type u) [DecidableEq M]
    (Permitted : Cache E V → List (Event E V) → Call E V M → Prop) :
    Cache E V → List (Event E V) → Prop
  | start {c} : c.Initial → Traced M Permitted c []
  | call {c events d} (call : Call E V M) : Traced M Permitted c events → call.Allowed c →
      call.Hashed → Permitted c events call → call.run c = .ok d →
        Traced M Permitted d (call.events c events)

/-- The entry is on the hash chain of some name. -/
def OnChain (c : Cache E V) (e : E) : Prop :=
  ∃ i ≤ c.nchash, ∃ l, c.chains.Ring (.bucket i) l ∧ .entry e ∈ l

/-- The call brings no old entry back. The number a purge hands out, if it does not start the
numbers again, must not make an entry for the vnode an answer; and behind an entry that a lookup
drops, there must be no positive hit for the same name but the vnode entered last. -/
def Call.Clean (c : Cache E V) (events : List (Event E V)) : Call E V M → Prop
  | .lookup ndp => ∀ e, c.found ndp = .ok (some e) → c.Dropped ndp e →
      ∀ f, c.OnChain f → f ≠ e → c.Names ndp.niDvp ndp.niName f → ∀ vp, c.Current f vp →
        latest events ndp.niDvp ndp.niName = some (some vp)
  | .purge vp => (c.nextvnodeid + 1) % 2 ^ 32 ≠ 0 → ∀ e, c.OnChain e → c.About vp e →
      ¬ c.Valid (update c.vId vp ((c.nextvnodeid + 1) % 2 ^ 32)) e
  | _ => True

/-- Whatever a lookup returns has been entered since its directory and its vnode were last
purged. -/
def NoStale (c : Cache E V) (events : List (Event E V)) : Prop :=
  ∀ ndp status ndp' d, ndp.niHash = componentHash ndp.niName →
    c.cacheLookup ndp = .ok (status, ndp', d) → status ≠ 0 →
      ∃ e, c.found ndp = .ok (some e) ∧ c.answer ndp e = (status, ndp') ∧
        ∀ v, c.About v e → ¬ PurgedSince events e v

/-- A positive hit is the vnode entered last for the name in the present generation of its
directory. -/
def MostRecent (c : Cache E V) (events : List (Event E V)) : Prop :=
  ∀ ndp ndp' d, ndp.niHash = componentHash ndp.niName →
    c.cacheLookup ndp = .ok (-1, ndp', d) →
      ∃ vp, ndp'.niVp = some vp ∧ latest events ndp.niDvp ndp.niName = some (some vp)

variable {c d : Cache E V} {events : List (Event E V)} {lru : List E} {chain : ℕ → List E} {e : E}

/-! ## The invariant along a run -/

omit [DecidableEq E] [DecidableEq V] in
theorem Shape.onChain (h : c.Shape lru chain) : c.OnChain e ↔ ∃ i ≤ c.nchash, e ∈ chain i := by
  refine exists_congr fun i ↦ and_congr_right fun hi ↦ ⟨?_, fun he ↦ ?_⟩
  · rintro ⟨l, hring, he⟩
    obtain rfl := hring.unique (h.chained.ring i hi)
    simpa using he
  · exact ⟨_, h.chained.ring i hi, List.mem_map_of_mem he⟩

theorem Initial.recorded (h : c.Initial) : c.Recorded [] [] fun _ ↦ [] where
  shape := h.shape
  hashed _ _ _ he := absurd he List.not_mem_nil
  purged_ne _ _ hsince := hsince.elim
  dvpid_zero _ _ _ he := absurd he List.not_mem_nil
  vpid_zero _ _ _ he := absurd he List.not_mem_nil
  stale _ _ _ he := absurd he List.not_mem_nil
  newest _ _ := newest_nil

/-- A clean call keeps the numbers in agreement with the record. -/
theorem Recorded.call (h : c.Recorded events lru chain) {call : Call E V M}
    (hallowed : call.Allowed c) (hhashed : call.Hashed) (hclean : call.Clean c events)
    (hrun : call.run c = .ok d) :
    ∃ lru' chain', d.Recorded (call.events c events) lru' chain' := by
  cases call with
  | lookup ndp =>
    have hlookup : (c.cacheLookup ndp).map (fun result ↦ result.2.2) = .ok d := hrun
    rcases h.shape.cacheLookup ndp with ⟨-, makeentry, hok⟩ | ⟨e, he, hfound, hcase⟩
    · rw [hok] at hlookup
      obtain rfl := Except.ok.inj hlookup
      exact ⟨lru, chain, h⟩
    · split_ifs at hcase with hdrop
      · rcases hcase with ⟨-, hfault⟩ | ⟨-, queue, chains, hok, hshape⟩
        · rw [hfault] at hlookup
          exact absurd hlookup (by simp [Except.map])
        · rw [hok] at hlookup
          obtain rfl := Except.ok.inj hlookup
          refine ⟨_, _, h.drop hhashed hfound (fun f hf hfe hnames vp hcur ↦ ?_) hshape⟩
          have hon : c.OnChain f := h.shape.onChain.2 ⟨_, Nat.and_le_right, hf⟩
          exact hclean e hfound hdrop f hon hfe hnames vp hcur
      · obtain ⟨queue, hok, hshape⟩ := hcase
        rw [hok] at hlookup
        obtain rfl := Except.ok.inj hlookup
        exact ⟨_, _, h.moveToEnd hhashed hfound hshape⟩
  | enter ndp fresh =>
    rcases h.shape.cacheEnter ndp hallowed.2 with
      ⟨hok, hnone⟩ | ⟨e, d', hok, hdoing, hslot, hshape, hhead, hsame, hrecord⟩
    · obtain rfl := Except.ok.inj (hok.symm.trans hrun)
      have hnot : (if c.doingcache then c.slot fresh else none) = none := by
        split_ifs with hdoing
        · exact hnone hdoing
        · rfl
      have hevents : (Call.enter ndp fresh : Call E V M).events c events = events := by
        simp only [Call.events, hnot]
      refine ⟨lru, chain, ?_⟩
      rw [hevents]
      exact h
    · obtain rfl := Except.ok.inj (hok.symm.trans hrun)
      have hsome : (if c.doingcache then c.slot fresh else none) = some e := by
        rw [if_pos hdoing, hslot]
      have hevents : (Call.enter ndp fresh : Call E V M).events c events =
          .entered e ndp.niDvp ndp.niName ndp.niVp :: events := by
        simp only [Call.events, hsome]
      exact ⟨_, _, hevents ▸ h.enter hhashed hshape hhead hsame hrecord⟩
  | purge vp =>
    obtain ⟨d', hok, hshape, -, -, hnchash, hnext | hwrap⟩ := h.shape.cachePurge vp
    · obtain ⟨hid, -, hvId, hentries⟩ := hnext
      obtain rfl := Except.ok.inj (hok.symm.trans hrun)
      refine ⟨lru, chain, h.purge hshape hnchash hid hvId hentries fun i hi e he habout ↦ ?_⟩
      exact hclean hid e (h.shape.onChain.2 ⟨i, hi, he⟩) habout
    · obtain ⟨-, -, hvId, hcleared⟩ := hwrap
      obtain rfl := Except.ok.inj (hok.symm.trans hrun)
      exact ⟨lru, chain, h.purge_wrap hshape hnchash hvId hcleared⟩
  | purgevfs vMount mp =>
    by_cases honly : ∃ e, OnFs vMount mp c e ∧ lru = [e]
    · obtain ⟨e, hfs, rfl⟩ := honly
      have hfault : Call.run c (.purgevfs vMount mp : Call E V M) = .error .nullPointer :=
        h.shape.cachePurgevfs_only hfs
      exact absurd (hfault.symm.trans hrun) (by simp)
    · push Not at honly
      obtain ⟨d', lru', chain', hok, hshape, hpurged⟩ :=
        h.shape.cachePurgevfs vMount mp fun e _ hfs ↦ honly e hfs
      obtain rfl := Except.ok.inj (hok.symm.trans hrun)
      exact ⟨lru', chain', h.purgevfs hshape hpurged⟩

theorem Traced.recorded (h : Traced M Call.Clean c events) :
    ∃ lru chain, c.Recorded events lru chain := by
  induction h with
  | start hinitial => exact ⟨_, _, hinitial.recorded⟩
  | call call _ hallowed hhashed hclean hrun ih =>
    obtain ⟨lru, chain, hrecorded⟩ := ih
    exact hrecorded.call hallowed hhashed hclean hrun

/-! ## Answers -/

omit [DecidableEq E] [DecidableEq V] in
/-- An entry that is not refused answers with its vnode, or with its absence. -/
theorem answer_status (ndp : Nameidata V) :
    (c.answer ndp e).1 = -1 ↔ ∃ vp, (c.entries e).ncVp = some vp ∧
      c.answer ndp e = (-1, { ndp with niVp := some vp }) := by
  unfold answer
  cases (c.entries e).ncVp with
  | none => simp [enoent]
  | some vp => simp

/-- A lookup that returns something returns a valid entry for the name, and the newest. -/
theorem Recorded.answer (h : c.Recorded events lru chain) {ndp ndp' : Nameidata V} {status : ℤ}
    (hhash : ndp.niHash = componentHash ndp.niName)
    (hlookup : c.cacheLookup ndp = .ok (status, ndp', d)) (hstatus : status ≠ 0) :
    ∃ e ∈ chain (ndp.niHash &&& c.nchash), c.found ndp = .ok (some e) ∧
      c.answer ndp e = (status, ndp') ∧ c.Valid c.vId e ∧
      ∀ vp, (c.entries e).ncVp = some vp →
        latest events ndp.niDvp ndp.niName = some (some vp) := by
  rcases h.shape.cacheLookup ndp with ⟨-, makeentry, hok⟩ | ⟨e, he, hfound, hcase⟩
  · rw [hok] at hlookup
    exact absurd (congrArg (fun r ↦ r.1) (Except.ok.inj hlookup)).symm hstatus
  split_ifs at hcase with hdrop
  · rcases hcase with ⟨-, hfault⟩ | ⟨-, queue, chains, hok, -⟩
    · exact absurd (hfault.symm.trans hlookup) (by simp)
    · rw [hok] at hlookup
      exact absurd (congrArg (fun r ↦ r.1) (Except.ok.inj hlookup)).symm hstatus
  obtain ⟨queue, hok, -⟩ := hcase
  obtain ⟨hstatus', hndp', -⟩ : _ ∧ _ ∧ _ := by
    simpa using Except.ok.inj (hok.symm.trans hlookup)
  have hanswer : c.answer ndp e = (status, ndp') := Prod.ext hstatus' hndp'
  obtain ⟨-, hnames, rest, hlist, -⟩ := h.found hhash hfound
  have hcurrent : ∀ vp, (c.entries e).ncVp = some vp → c.Current e vp := by
    refine fun vp hvp ↦ ⟨hvp, ?_⟩
    by_contra hid
    refine hdrop (.inr ?_)
    rw [hvp]
    exact hid
  refine ⟨e, he, hfound, hanswer, ⟨⟨_, hnames.1, hnames.2.1⟩, fun vp hvp ↦ (hcurrent vp hvp).2⟩, ?_⟩
  intro vp hvp
  rcases h.newest ndp.niDvp ndp.niName with ⟨f, others, hothers, hlatest, -⟩ | hall
  · obtain ⟨rfl, -⟩ := List.cons.inj (hlist.symm.trans hothers)
    rw [hlatest, hvp]
  · exact hall e (hlist ▸ List.mem_cons_self ..) vp (hcurrent vp hvp)

/-- In every state of a run of clean calls, lookups return nothing from before a purge, and only the
vnode entered last. -/
theorem namcache_coherence (h : Traced M Call.Clean c events) :
    c.NoStale events ∧ c.MostRecent events := by
  obtain ⟨lru, chain, hrecorded⟩ := h.recorded
  constructor
  · intro ndp status ndp' d hhash hlookup hstatus
    obtain ⟨e, he, hfound, hanswer, hvalid, -⟩ := hrecorded.answer hhash hlookup hstatus
    refine ⟨e, hfound, hanswer, fun v habout hsince ↦ ?_⟩
    exact hrecorded.stale _ Nat.and_le_right e he v habout hsince hvalid
  · intro ndp ndp' d hhash hlookup
    obtain ⟨e, -, -, hanswer, -, hlatest⟩ := hrecorded.answer hhash hlookup (by decide)
    have hpositive : (c.answer ndp e).1 = -1 := by rw [hanswer]
    obtain ⟨vp, hvp, hvnode⟩ := (answer_status ndp).1 hpositive
    refine ⟨vp, ?_, hlatest vp hvp⟩
    obtain rfl := (Prod.ext_iff.1 (hanswer.symm.trans hvnode)).2
    rfl

/-! ## Runs on one name -/

section OneName

variable {Permitted : Cache ℕ ℕ → List (Event ℕ ℕ) → Call ℕ ℕ ℕ → Prop} {c : Cache ℕ ℕ}
  {events : List (Event ℕ ℕ)} {lru : List ℕ} {chain : ℕ → List ℕ}

/-- Entering the name while there is room. -/
theorem Traced.enter_room (h : Traced ℕ Permitted c events) (hshape : c.Shape lru chain)
    (hdoing : c.doingcache) (hroom : c.numcache < c.desiredvnodes) (fresh : ℕ)
    (hfresh : fresh ∉ c.allocated) (vp : ℕ)
    (hpermitted : Permitted c events (.enter (request true vp) fresh)) :
    ∃ d chain', Traced ℕ Permitted d (.entered fresh 0 [] (some vp) :: events) ∧
      d.Shape (lru ++ [fresh]) chain' ∧ chain' 0 = fresh :: chain 0 ∧ SameBut fresh c d ∧
        d.entries fresh = c.record (request true vp) := by
  obtain ⟨d, chain', hok, hshape', hchain, hsame, hrecord⟩ :=
    Cache.enter_room hshape hdoing hroom fresh hfresh vp
  have hslot : (if c.doingcache then c.slot fresh else none) = some fresh := by
    rw [if_pos hdoing]
    exact if_pos hroom
  have hevents : (Call.enter (request true vp) fresh : Call ℕ ℕ ℕ).events c events =
      .entered fresh 0 [] (some vp) :: events := by
    simp only [Call.events, hslot]
    rfl
  refine ⟨d, chain', ?_, hshape', hchain, hsame, hrecord⟩
  rw [← hevents]
  exact h.call (.enter (request true vp) fresh) ⟨Nat.zero_le _, hfresh⟩ rfl hpermitted hok

/-- A lookup that finds an entry with the present numbers is a positive hit. -/
theorem Shape.lookup_hit (h : c.Shape lru chain) {e vp : ℕ} {vId : ℕ → ℕ} {vp' : ℕ}
    (hfound : c.found (request true vp') = .ok (some e))
    (hentry : c.entries e = ⟨some 0, vId 0, some vp, vId vp, []⟩) (hvId : c.vId = vId) :
    ∃ d, c.cacheLookup (request true vp') = .ok (-1, request true vp, d) := by
  rcases h.cacheLookup (request true vp') with ⟨hnone, -⟩ | ⟨f, -, hf, hcase⟩
  · exact absurd (hnone.symm.trans hfound) (by simp)
  obtain rfl := Option.some.inj (Except.ok.inj (hfound.symm.trans hf))
  rw [if_neg (not_dropped hentry hvId vp')] at hcase
  obtain ⟨queue, hok, -⟩ := hcase
  have hanswer : c.answer (request true vp') e = (-1, request true vp) := by
    unfold answer
    rw [hentry]
    rfl
  rw [hanswer] at hok
  exact ⟨_, hok⟩

/-- After a name has been entered, a lookup returns its vnode. -/
theorem namcache_coherence_one : ∃ (c : Cache ℕ ℕ) (events : List (Event ℕ ℕ)),
    Traced ℕ Call.Clean c events ∧
    (∃ d, c.cacheLookup (request true 0) = .ok (-1, request true 1, d)) ∧
    c.NoStale events ∧ c.MostRecent events := by
  have hstart : Traced ℕ Call.Clean (nchinit (boot 1)) [] := .start (boot_initial 1)
  obtain ⟨c, chain, htraced, hshape, hchain, hsame, hrecord⟩ :=
    hstart.enter_room (boot_initial 1).shape rfl (by decide) 0 List.not_mem_nil 1 trivial
  have hdoing : c.doingcache := hsame.doingcache
  have hfound := found_first hshape hdoing hchain hrecord hsame.vId true 0
  exact ⟨c, _, htraced, hshape.lookup_hit hfound hrecord hsame.vId, namcache_coherence htraced⟩

/-- Every call is permitted. -/
def Any (_ : Cache ℕ ℕ) (_ : List (Event ℕ ℕ)) (_ : Call ℕ ℕ ℕ) : Prop := True

/-- A run in which nothing has been entered, with the last number given out and the number of the
directory. -/
structure Idle (c : Cache ℕ ℕ) (events : List (Event ℕ ℕ)) (next id : ℕ) : Prop where
  traced : Traced ℕ Any c events
  shape : c.Shape [] fun _ ↦ []
  doingcache : c.doingcache
  room : 0 < c.desiredvnodes
  next_eq : c.nextvnodeid = next
  id_eq : c.vId 0 = id

/-- A purge with nothing in the cache. -/
theorem Idle.purge {next id : ℕ} (h : Idle c events next id) (vp : ℕ) :
    ∃ d, Idle d (.purged vp :: events) (if (next + 1) % 2 ^ 32 = 0 then 1 else (next + 1) % 2 ^ 32)
      (if 0 = vp then if (next + 1) % 2 ^ 32 = 0 then 1 else (next + 1) % 2 ^ 32 else id) := by
  obtain ⟨d, hok, hshape, hdoing, hroom, -, hcase⟩ := h.shape.cachePurge vp
  have htraced : Traced ℕ Any d (.purged vp :: events) := h.traced.call (.purge vp) trivial trivial
    trivial hok
  refine ⟨d, htraced, hshape, hdoing.trans h.doingcache, hroom ▸ h.room, ?_, ?_⟩
  · rw [h.next_eq] at hcase
    rcases hcase with ⟨hne, hnext, -⟩ | ⟨hzero, hnext, -⟩
    · rw [if_neg hne, hnext]
    · rw [if_pos hzero, hnext]
  · rw [h.next_eq] at hcase
    rcases hcase with ⟨hne, -, hvId, -⟩ | ⟨hzero, -, hvId, -⟩
    · rw [if_neg hne, hvId, ← h.id_eq]
      exact update_apply c.vId vp _ 0
    · rw [if_pos hzero, hvId, ← h.id_eq]
      exact update_apply c.vId vp _ 0

/-- Many purges of a vnode other than the directory. -/
theorem Idle.purge_many {next id : ℕ} (h : Idle c events next id) (count : ℕ)
    (hcount : next + count < 2 ^ 32) : ∃ d events', Idle d events' (next + count) id := by
  induction count with
  | zero => exact ⟨c, events, h⟩
  | succ count ih =>
    obtain ⟨d, events', hidle⟩ := ih (Nat.lt_of_succ_lt hcount)
    obtain ⟨d', hidle'⟩ := hidle.purge 2
    have hnext : (next + count + 1) % 2 ^ 32 = next + count + 1 := Nat.mod_eq_of_lt hcount
    rw [hnext, if_neg (Nat.succ_ne_zero _), if_neg (by decide)] at hidle'
    exact ⟨d', _, hidle'⟩

/-- The numbers have started again, and the next one is that of the directory. -/
theorem idle_wrapped : ∃ c events, Idle c events 1 2 := by
  have hstart : Idle (nchinit (boot 2)) [] 0 0 :=
    ⟨.start (boot_initial 2), (boot_initial 2).shape, rfl, by decide, rfl, rfl⟩
  obtain ⟨c₁, hfirst⟩ := hstart.purge 2
  obtain ⟨c₂, hsecond⟩ := hfirst.purge 0
  have htwo : Idle c₂ _ 2 2 := hsecond
  obtain ⟨c₃, events₃, hlast⟩ := htwo.purge_many (2 ^ 32 - 3) (by decide)
  obtain ⟨c₄, hwrapped⟩ := hlast.purge 2
  exact ⟨c₄, _, hwrapped⟩

/-- A purge gives the directory the number it has, and the entry stays valid. -/
theorem purge_returns_stale : ∃ c events, Traced ℕ Any c events ∧ ¬ c.NoStale events := by
  obtain ⟨c, events, hidle⟩ := idle_wrapped
  have hroom : c.numcache < c.desiredvnodes := by
    rw [hidle.shape.numcache_eq]
    exact hidle.room
  have hfresh : 0 ∉ c.allocated := fun hmem ↦
    List.not_mem_nil (hidle.shape.perm.mem_iff.2 hmem)
  obtain ⟨d, chain, htraced, hshape, hchain, hsame, hrecord⟩ :=
    hidle.traced.enter_room hidle.shape hidle.doingcache hroom 0 hfresh 1 trivial
  have hnext : d.nextvnodeid = 1 := hsame.nextvnodeid.trans hidle.next_eq
  obtain ⟨d', hok, hshape', hdoing, -, -, hcase⟩ := hshape.cachePurge 0
  have htraced' := htraced.call (.purge 0) trivial trivial trivial hok
  rw [hnext] at hcase
  obtain ⟨-, -, hvId, hentries⟩ := hcase.resolve_right fun hwrap ↦ absurd hwrap.1 (by decide)
  have hsameId : d'.vId = c.vId := by
    have htwo : (1 + 1) % 2 ^ 32 = c.vId 0 := hidle.id_eq.symm
    rw [hvId, hsame.vId, htwo, update_eq_self]
  have hentry : d'.entries 0 = ⟨some 0, c.vId 0, some 1, c.vId 1, []⟩ :=
    (congrFun hentries 0).trans hrecord
  have hdoing' : d'.doingcache := hdoing.trans (hsame.doingcache.trans hidle.doingcache)
  have hfound := found_first hshape' hdoing' hchain hentry hsameId true 0
  obtain ⟨final, hlookup⟩ := hshape'.lookup_hit hfound hentry hsameId
  refine ⟨d', _, htraced', fun hstale ↦ ?_⟩
  obtain ⟨e, he, -, hnot⟩ := hstale _ _ _ _ rfl hlookup (by decide)
  obtain rfl := Option.some.inj (Except.ok.inj (hfound.symm.trans he))
  exact hnot 0 (.inl (by rw [hentry])) (.inl rfl)

/-- A lookup drops the newest entry for a name, and the next returns an older one. -/
theorem lookup_returns_old : ∃ c events, Traced ℕ Any c events ∧ ¬ c.MostRecent events := by
  have hstart : Traced ℕ Any (nchinit (boot 2)) [] := .start (boot_initial 2)
  obtain ⟨c, chain, htraced, hshape, hchain, hsame, hrecord⟩ :=
    hstart.enter_room (boot_initial 2).shape rfl (by decide) 0 List.not_mem_nil 1 trivial
  have hfresh : 1 ∉ c.allocated := fun hmem ↦ absurd (hshape.perm.mem_iff.2 hmem) (by decide)
  have hroom : c.numcache < c.desiredvnodes := by
    rw [hshape.numcache_eq, hsame.desiredvnodes]
    decide
  obtain ⟨d, chain', htraced', hshape', hchain', hsame', hrecord'⟩ :=
    htraced.enter_room hshape hsame.doingcache hroom 1 hfresh 2 trivial
  have hdoing : d.doingcache := hsame'.doingcache.trans hsame.doingcache
  have hfound := found_first hshape' hdoing hchain' hrecord' hsame'.vId false 0
  rcases hshape'.cacheLookup (request false 0) with ⟨hnone, -⟩ | ⟨e, -, he, hcase⟩
  · exact absurd (hnone.symm.trans hfound) (by simp)
  obtain rfl := Option.some.inj (Except.ok.inj (hfound.symm.trans he))
  rw [if_pos (.inl rfl)] at hcase
  obtain ⟨-, queue, chains, hok, hshape''⟩ := hcase.resolve_left fun honly ↦
    absurd honly.1 (by decide)
  have htraced'' := htraced'.call (.lookup (request false 0)) trivial rfl trivial
    (congrArg (Except.map fun r : ℤ × Nameidata ℕ × Cache ℕ ℕ ↦ r.2.2) hok)
  have hold : (chain' 0).erase 1 = [0] := by
    rw [hchain', hchain]
    rfl
  have hentry : d.entries 0 =
      ⟨some 0, (nchinit (boot 2)).vId 0, some 1, (nchinit (boot 2)).vId 1, []⟩ :=
    (hsame'.entries 0 (by decide)).trans hrecord
  have hvId : d.vId = (nchinit (boot 2)).vId := hsame'.vId.trans hsame.vId
  have hfound' := found_first hshape'' hdoing hold hentry hvId true 0
  obtain ⟨final, hlookup⟩ := hshape''.lookup_hit hfound' hentry hvId
  refine ⟨_, _, htraced'', fun hrecent ↦ ?_⟩
  obtain ⟨vp, hvp, hlatest⟩ := hrecent _ _ _ rfl hlookup
  obtain rfl := Option.some.inj hvp
  have hnewer : latest [.entered 1 0 [] (some 2), .entered 0 0 [] (some 1)] 0 [] =
      some (some 1) := hlatest
  exact absurd hnewer (by decide)

/-- Without the condition lookups return entries from before a purge, and vnodes that are not the
ones entered last. -/
theorem namcache_coherence_fails :
    (¬ ∀ c events, Traced ℕ Any c events → c.NoStale events) ∧
      ¬ ∀ c events, Traced ℕ Any c events → c.MostRecent events := by
  constructor
  · intro hall
    obtain ⟨c, events, htraced, hnot⟩ := purge_returns_stale
    exact hnot (hall c events htraced)
  · intro hall
    obtain ⟨c, events, htraced, hnot⟩ := lookup_returns_old
    exact hnot (hall c events htraced)

end OneName

end Bsd386.Kern.Namcache.Cache
