import Bsd386.Kern.Fs.Namcache.Integrity

/-!
# What the name cache remembers

An entry carries the capability numbers of its two vnodes, and a purge is no more than a new number.
To say what the entries are worth, a run is recorded beside the cache: the names entered and the
vnodes purged. The invariant relates the numbers on the hash chains to this record. It holds as long
as a purge does not hand out a number that some entry for the vnode still carries, and no lookup
drops an entry in front of an older one that names another vnode.
-/

namespace Bsd386.Kern.Namcache.Cache

open Function

universe u

variable {E V : Type u} [DecidableEq E] [DecidableEq V]

/-! ## The record of a run -/

/-- What a call adds to the record. -/
inductive Event (E V : Type*)
  | entered (ncp : E) (dvp : V) (name : List UInt8) (vp : Option V)
  | purged (vp : V)

/-- The vnode, or the absence of one, entered last for a name since the directory was last purged.
The most recent event comes first. -/
def latest : List (Event E V) → V → List UInt8 → Option (Option V)
  | [], _, _ => none
  | .entered _ dvp name vp :: events, d, n =>
    if dvp = d ∧ name = n then some vp else latest events d n
  | .purged vp :: events, d, n => if vp = d then none else latest events d n

/-- The vnode has been purged since the entry was last entered. -/
def PurgedSince : List (Event E V) → E → V → Prop
  | [], _, _ => False
  | .entered ncp _ _ _ :: events, e, v => ncp ≠ e ∧ PurgedSince events e v
  | .purged vp :: events, e, v => vp = v ∨ PurgedSince events e v

variable {M : Type u} [DecidableEq M]

/-- The record after a call. -/
def Call.events (c : Cache E V) (events : List (Event E V)) : Call E V M → List (Event E V)
  | .enter ndp fresh =>
    match if c.doingcache then c.slot fresh else none with
    | some e => .entered e ndp.niDvp ndp.niName ndp.niVp :: events
    | none => events
  | .purge vp => .purged vp :: events
  | _ => events

/-! ## The invariant -/

/-- The entry is for a name in the present generation of a directory. -/
def Names (c : Cache E V) (d : V) (n : List UInt8) (e : E) : Prop :=
  (c.entries e).ncDvp = some d ∧ (c.entries e).ncDvpid = c.vId d ∧ (c.entries e).ncName = n

instance (c : Cache E V) (d : V) (n : List UInt8) (e : E) : Decidable (c.Names d n e) :=
  inferInstanceAs (Decidable (_ ∧ _))

/-- The entry would be a positive hit for `vp`. -/
def Current (c : Cache E V) (e : E) (vp : V) : Prop :=
  (c.entries e).ncVp = some vp ∧ (c.entries e).ncVpid = c.vId vp

/-- The entry is for the directory `v`, or names it. -/
def About (c : Cache E V) (v : V) (e : E) : Prop :=
  (c.entries e).ncDvp = some v ∨ (c.entries e).ncVp = some v

/-- With the capability numbers `vId`, the entry is the answer to a lookup of its name. -/
def Valid (c : Cache E V) (vId : V → ℕ) (e : E) : Prop :=
  (∃ d, (c.entries e).ncDvp = some d ∧ (c.entries e).ncDvpid = vId d) ∧
    ∀ vp, (c.entries e).ncVp = some vp → (c.entries e).ncVpid = vId vp

/-- The entries `l` for a name, newest first: either the one entered last is there, and is used
after the others, or whatever vnode they still name is the one entered last. -/
def Newest (c : Cache E V) (events : List (Event E V)) (lru l : List E) (d : V)
    (n : List UInt8) : Prop :=
  (∃ e rest, l = e :: rest ∧ latest events d n = some (c.entries e).ncVp ∧
    ∀ f ∈ rest, [f, e].Sublist lru) ∨
  ∀ e ∈ l, ∀ vp, c.Current e vp → latest events d n = some (some vp)

/-- The numbers on the hash chains agree with the record. -/
structure Recorded (c : Cache E V) (events : List (Event E V)) (lru : List E)
    (chain : ℕ → List E) : Prop where
  shape : c.Shape lru chain
  hashed : ∀ i ≤ c.nchash, ∀ e ∈ chain i, componentHash (c.entries e).ncName &&& c.nchash = i
  purged_ne : ∀ e v, PurgedSince events e v → c.vId v ≠ 0
  dvpid_zero : ∀ i ≤ c.nchash, ∀ e ∈ chain i, ∀ d, (c.entries e).ncDvp = some d → c.vId d = 0 →
    (c.entries e).ncDvpid = 0
  vpid_zero : ∀ i ≤ c.nchash, ∀ e ∈ chain i, ∀ v, (c.entries e).ncVp = some v → c.vId v = 0 →
    (c.entries e).ncVpid = 0
  stale : ∀ i ≤ c.nchash, ∀ e ∈ chain i, ∀ v, c.About v e → PurgedSince events e v →
    ¬ c.Valid c.vId e
  newest : ∀ d n, c.Newest events lru
    ((chain (componentHash n &&& c.nchash)).filter (c.Names d n ·)) d n

variable {c c' : Cache E V} {events events' : List (Event E V)} {lru lru' l : List E}
  {chain : ℕ → List E} {d : V} {n : List UInt8} {e : E}

omit [DecidableEq E] in
/-- What the invariant about one name depends on. -/
theorem Newest.congr (h : c.Newest events lru l d n)
    (hlatest : latest events' d n = latest events d n)
    (hvp : ∀ e ∈ l, (c'.entries e).ncVp = (c.entries e).ncVp)
    (hcurrent : ∀ e ∈ l, ∀ vp, c'.Current e vp → c.Current e vp)
    (horder : ∀ e rest, l = e :: rest → ∀ f ∈ rest, [f, e].Sublist lru → [f, e].Sublist lru') :
    c'.Newest events' lru' l d n := by
  rcases h with ⟨e, rest, rfl, hentry, hrest⟩ | hall
  · refine .inl ⟨e, rest, rfl, ?_, fun f hf ↦ ?_⟩
    · rw [hlatest, hvp e (List.mem_cons_self ..)]
      exact hentry
    · exact horder e rest rfl f hf (hrest f hf)
  · exact .inr fun e he vp hvp ↦ hlatest.trans (hall e he vp (hcurrent e he vp hvp))

omit [DecidableEq E] in
theorem newest_nil : c.Newest events lru [] d n := .inr fun _ he ↦ absurd he List.not_mem_nil

/-- The order of two entries is that of the list without the others. -/
theorem order_erase {f g : E} (h : [f, g].Sublist lru) (hf : f ≠ e) (hg : g ≠ e) :
    [f, g].Sublist (lru.erase e) := by
  have herase := h.erase e
  rwa [List.erase_of_not_mem (by simp [hf.symm, hg.symm])] at herase

omit [DecidableEq E] in
theorem mem_named {i : ℕ} : e ∈ (chain i).filter (c.Names d n ·) ↔ e ∈ chain i ∧ c.Names d n e := by
  simp

omit [DecidableEq E] [DecidableEq V] in
/-- An entry is for one directory and one name. -/
theorem Names.unique {d' : V} {n' : List UInt8} (h : c.Names d n e) (h' : c.Names d' n' e) :
    d = d' ∧ n = n' :=
  ⟨Option.some.inj (h.1.symm.trans h'.1), h.2.2.symm.trans h'.2.2⟩

omit [DecidableEq E] [DecidableEq V] in
theorem names_congr (hentry : c'.entries e = c.entries e) (hvId : c'.vId d = c.vId d) :
    c'.Names d n e ↔ c.Names d n e := by
  unfold Names
  rw [hentry, hvId]

omit [DecidableEq E] [DecidableEq V] in
theorem current_congr {v : V} (hentry : c'.entries e = c.entries e) (hvId : c'.vId v = c.vId v) :
    c'.Current e v ↔ c.Current e v := by
  unfold Current
  rw [hentry, hvId]

omit [DecidableEq E] [DecidableEq V] in
theorem about_congr {v : V} (hentry : c'.entries e = c.entries e) :
    c'.About v e ↔ c.About v e := by
  unfold About
  rw [hentry]

omit [DecidableEq E] [DecidableEq V] in
/-- Whether an entry answers depends on the numbers of its own vnodes. -/
theorem valid_congr {vId vId' : V → ℕ} (hentry : c'.entries e = c.entries e)
    (hvId : ∀ v, c.About v e → vId' v = vId v) : c'.Valid vId' e ↔ c.Valid vId e := by
  unfold Valid
  rw [hentry]
  refine and_congr (exists_congr fun d ↦ and_congr_right fun hd ↦ ?_)
    (forall_congr' fun vp ↦ imp_congr_right fun hvp ↦ ?_)
  · rw [hvId d (.inl hd)]
  · rw [hvId vp (.inr hvp)]

omit [DecidableEq E] [DecidableEq V] in
/-- A positive hit is an answer. -/
theorem Names.valid {v : V} (h : c.Names d n e) (hcurrent : c.Current e v) : c.Valid c.vId e := by
  refine ⟨⟨d, h.1, h.2.1⟩, fun vp hvp ↦ ?_⟩
  rw [Option.some.inj (hvp.symm.trans hcurrent.1)]
  exact hcurrent.2

/-! ## Lookups -/

omit [DecidableEq E] in
/-- The entry found is the newest of those for its name. -/
theorem Recorded.found (h : c.Recorded events lru chain) {ndp : Nameidata V}
    (hhash : ndp.niHash = componentHash ndp.niName) (hfound : c.found ndp = .ok (some e)) :
    e ∈ lru ∧ c.Names ndp.niDvp ndp.niName e ∧ ∃ rest,
      (chain (componentHash ndp.niName &&& c.nchash)).filter (c.Names ndp.niDvp ndp.niName ·) =
        e :: rest ∧ e ∉ rest := by
  have hfirst := h.shape.found_first hfound
  obtain ⟨hmem, hmatch⟩ := h.shape.found_mem hfound
  rw [hhash] at hfirst hmem
  refine ⟨h.shape.chained.sub _ Nat.and_le_right e hmem, hmatch, ?_⟩
  have hnodup := (h.shape.chained.nodup (i := componentHash ndp.niName &&& c.nchash)
    Nat.and_le_right).filter (c.Names ndp.niDvp ndp.niName ·)
  have hhead : ((chain (componentHash ndp.niName &&& c.nchash)).filter
      (c.Names ndp.niDvp ndp.niName ·)).head? = some e := by
    rw [List.head?_filter]
    exact hfirst
  obtain ⟨rest, hrest⟩ := List.head?_eq_some_iff.1 hhead
  rw [hrest] at hnodup ⊢
  exact ⟨rest, rfl, (List.nodup_cons.1 hnodup).1⟩

/-- An entry that is found and kept goes to the end of the list. -/
theorem Recorded.moveToEnd (h : c.Recorded events lru chain) {ndp : Nameidata V}
    (hhash : ndp.niHash = componentHash ndp.niName) (hfound : c.found ndp = .ok (some e))
    {queue : TailQueue E}
    (hshape : Shape { c with lru := queue } (lru.erase e ++ [e]) chain) :
    Recorded { c with lru := queue } events (lru.erase e ++ [e]) chain := by
  refine ⟨hshape, h.hashed, h.purged_ne, h.dvpid_zero, h.vpid_zero, h.stale, ?_⟩
  intro d n
  obtain ⟨-, hnames, rest, hlist, hnot⟩ := h.found hhash hfound
  refine (h.newest d n).congr rfl (fun _ _ ↦ rfl) (fun _ _ _ hcur ↦ hcur)
    fun g others hothers f hf hfg ↦ ?_
  have hgmem : g ∈ g :: others := List.mem_cons_self ..
  have hfmem : f ∈ g :: others := List.mem_cons_of_mem g hf
  rw [← hothers, mem_named] at hgmem hfmem
  have hge : f ≠ e → g ≠ e → [f, g].Sublist (lru.erase e ++ [e]) := fun hfe hge ↦
    (order_erase hfg hfe hge).trans (List.sublist_append_left _ _)
  by_cases hname : c.Names d n e
  · obtain ⟨rfl, rfl⟩ := hnames.unique hname
    obtain ⟨rfl, rfl⟩ := List.cons.inj (hlist.symm.trans hothers)
    have hne : f ≠ e := fun hfe ↦ hnot (hfe ▸ hf)
    have hflru : f ∈ lru := hfg.subset (List.mem_cons_self ..)
    exact (List.singleton_sublist.2 ((List.mem_erase_of_ne hne).2 hflru)).append
      (List.Sublist.refl [e])
  · exact hge (fun hfe ↦ hname (hfe ▸ hfmem.2)) (fun hge ↦ hname (hge ▸ hgmem.2))

/-- An entry that is found and dropped leaves its chain. The entries behind it for the same name
must agree with the record. -/
theorem Recorded.drop (h : c.Recorded events lru chain) {ndp : Nameidata V}
    (hhash : ndp.niHash = componentHash ndp.niName) (hfound : c.found ndp = .ok (some e))
    (hbehind : ∀ f ∈ chain (componentHash ndp.niName &&& c.nchash), f ≠ e →
      c.Names ndp.niDvp ndp.niName f → ∀ vp, c.Current f vp →
        latest events ndp.niDvp ndp.niName = some (some vp))
    {queue : TailQueue E} {chains : Links (Link E)}
    (hshape : Shape { c with lru := queue, chains } (e :: lru.erase e)
      (fun i ↦ (chain i).erase e)) :
    Recorded { c with lru := queue, chains } events (e :: lru.erase e)
      (fun i ↦ (chain i).erase e) := by
  have hsub : ∀ i, ∀ f ∈ (chain i).erase e, f ∈ chain i := fun i f ↦ List.mem_of_mem_erase
  have hnewest : ∀ d n, c.Newest events (e :: lru.erase e)
      (((chain (componentHash n &&& c.nchash)).erase e).filter (c.Names d n ·)) d n := by
    intro d n
    obtain ⟨-, hnames, rest, hlist, hnot⟩ := h.found hhash hfound
    rw [← List.erase_filter]
    by_cases hname : c.Names d n e
    · obtain ⟨rfl, rfl⟩ := hnames.unique hname
      rw [hlist, List.erase_cons_head]
      refine .inr fun f hf vp hvp ↦ ?_
      have hfmem : f ∈ e :: rest := List.mem_cons_of_mem e hf
      rw [← hlist, mem_named] at hfmem
      exact hbehind f hfmem.1 (fun hfe ↦ hnot (hfe ▸ hf)) hfmem.2 vp hvp
    · rw [List.erase_of_not_mem fun he ↦ hname (mem_named.1 he).2]
      refine (h.newest d n).congr rfl (fun _ _ ↦ rfl) (fun _ _ _ hcur ↦ hcur)
        fun g others hothers f hf hfg ↦ ?_
      have hgmem : g ∈ g :: others := List.mem_cons_self ..
      have hfmem : f ∈ g :: others := List.mem_cons_of_mem g hf
      rw [← hothers, mem_named] at hgmem hfmem
      have hfe : f ≠ e := fun hfe ↦ hname (hfe ▸ hfmem.2)
      have hge : g ≠ e := fun hge ↦ hname (hge ▸ hgmem.2)
      exact (order_erase hfg hfe hge).trans (List.sublist_cons_self _ _)
  exact ⟨hshape, fun i hi f hf ↦ h.hashed i hi f (hsub i f hf), h.purged_ne,
    fun i hi f hf ↦ h.dvpid_zero i hi f (hsub i f hf),
    fun i hi f hf ↦ h.vpid_zero i hi f (hsub i f hf),
    fun i hi f hf ↦ h.stale i hi f (hsub i f hf), hnewest⟩

/-! ## Entering -/

/-- Taking the first entry of the list does not take the newest of several for one name. -/
theorem Newest.erase (h : c.Newest events lru l d n) (hlru : lru.Nodup) (hl : l.Nodup)
    (hsub : ∀ f ∈ l, f ∈ lru) (hslot : e ∉ lru ∨ lru.head? = some e) :
    c.Newest events (lru.erase e ++ [e]) (l.erase e) d n := by
  rcases h with ⟨g, rest, rfl, hentry, hrest⟩ | hall
  · by_cases hge : g = e
    · subst hge
      have hhead : lru.head? = some g := hslot.resolve_left fun hout ↦
        hout (hsub g (List.mem_cons_self ..))
      obtain ⟨others, rfl⟩ := List.head?_eq_some_iff.1 hhead
      have hgone : rest = [] := by
        refine List.eq_nil_iff_forall_not_mem.2 fun f hf ↦ ?_
        have hne : f ≠ g := fun hfg ↦ (List.nodup_cons.1 hl).1 (hfg ▸ hf)
        have horder : [f, g].Sublist others := (hrest f hf).of_cons_of_ne hne
        exact (List.nodup_cons.1 hlru).1 (horder.subset (by simp))
      have hnil : [g].erase g = [] := List.erase_cons_head ..
      rw [hgone, hnil]
      exact newest_nil
    · have hbeq : ¬ (g == e) = true := by simpa using hge
      have hrestNodup : rest.Nodup := (List.nodup_cons.1 hl).2
      rw [List.erase_cons_tail hbeq]
      refine .inl ⟨g, rest.erase e, rfl, hentry, fun f hf ↦ ?_⟩
      obtain ⟨hfe, hfrest⟩ := hrestNodup.mem_erase_iff.1 hf
      exact (order_erase (hrest f hfrest) hfe hge).trans (List.sublist_append_left _ _)
  · exact .inr fun f hf ↦ hall f (List.mem_of_mem_erase hf)

/-- A new entry is the newest for its name, whatever was there. -/
theorem Recorded.enter (h : c.Recorded events lru chain) {ndp : Nameidata V}
    (hhash : ndp.niHash = componentHash ndp.niName)
    (hshape : c'.Shape (lru.erase e ++ [e])
      (update (fun i ↦ (chain i).erase e) (ndp.niHash &&& c.nchash)
        (e :: (chain (ndp.niHash &&& c.nchash)).erase e)))
    (hslot : e ∉ lru ∨ lru.head? = some e) (hsame : SameBut e c c')
    (hrecord : c'.entries e = c.record ndp) :
    c'.Recorded (.entered e ndp.niDvp ndp.niName ndp.niVp :: events) (lru.erase e ++ [e])
      (update (fun i ↦ (chain i).erase e) (ndp.niHash &&& c.nchash)
        (e :: (chain (ndp.niHash &&& c.nchash)).erase e)) := by
  rw [hhash] at hshape ⊢
  have hnodup : ∀ i ≤ c.nchash, (chain i).Nodup := fun i hi ↦ h.shape.chained.nodup hi
  -- A chained entry is the new one, or one that was chained before and has not changed.
  have hmem : ∀ i ≤ c.nchash, ∀ f,
      f ∈ update (fun i ↦ (chain i).erase e) (componentHash ndp.niName &&& c.nchash)
        (e :: (chain (componentHash ndp.niName &&& c.nchash)).erase e) i →
      (f = e ∧ i = componentHash ndp.niName &&& c.nchash) ∨
        f ≠ e ∧ f ∈ chain i ∧ c'.entries f = c.entries f := by
    intro i hi f hf
    have hold : f ∈ (chain i).erase e → f ≠ e ∧ f ∈ chain i ∧ c'.entries f = c.entries f := by
      intro hf
      obtain ⟨hfe, hfi⟩ := (hnodup i hi).mem_erase_iff.1 hf
      exact ⟨hfe, hfi, hsame.entries f hfe⟩
    by_cases hib : i = componentHash ndp.niName &&& c.nchash
    · subst hib
      rw [update_self] at hf
      rcases List.mem_cons.1 hf with hf | hf
      · exact .inl ⟨hf, rfl⟩
      · exact .inr (hold hf)
    · rw [update_of_ne hib] at hf
      exact .inr (hold hf)
  have hvId : c'.vId = c.vId := hsame.vId
  refine ⟨hshape, ?_, ?_, ?_, ?_, ?_, ?_⟩
  · intro i hi f hf
    rw [hsame.nchash] at hi ⊢
    rcases hmem i hi f hf with ⟨rfl, rfl⟩ | ⟨hfe, hfi, hentry⟩
    · rw [hrecord]
      rfl
    · rw [hentry]
      exact h.hashed i hi f hfi
  · intro f v hpurged
    rw [hvId]
    exact h.purged_ne f v hpurged.2
  · intro i hi f hf d hd hzero
    rw [hsame.nchash] at hi
    rw [hvId] at hzero
    rcases hmem i hi f hf with ⟨rfl, rfl⟩ | ⟨hfe, hfi, hentry⟩
    · rw [hrecord] at hd ⊢
      obtain rfl := Option.some.inj hd
      exact hzero
    · rw [hentry] at hd ⊢
      exact h.dvpid_zero i hi f hfi d hd hzero
  · intro i hi f hf v hv hzero
    rw [hsame.nchash] at hi
    rw [hvId] at hzero
    rcases hmem i hi f hf with ⟨rfl, rfl⟩ | ⟨hfe, hfi, hentry⟩
    · rw [hrecord] at hv ⊢
      unfold record at hv ⊢
      simp only at hv ⊢
      rw [hv]
      exact hzero
    · rw [hentry] at hv ⊢
      exact h.vpid_zero i hi f hfi v hv hzero
  · intro i hi f hf v habout hpurged
    rw [hsame.nchash] at hi
    rw [hvId]
    rcases hmem i hi f hf with ⟨rfl, rfl⟩ | ⟨hfe, hfi, hentry⟩
    · exact absurd rfl hpurged.1
    · rw [valid_congr hentry (fun _ _ ↦ rfl)]
      exact h.stale i hi f hfi v ((about_congr hentry).1 habout) hpurged.2
  · intro d n
    rw [hsame.nchash]
    by_cases hkey : ndp.niDvp = d ∧ ndp.niName = n
    · obtain ⟨rfl, rfl⟩ := hkey
      have hnames : c'.Names ndp.niDvp ndp.niName e := by
        unfold Names
        rw [hrecord, hvId]
        exact ⟨rfl, rfl, rfl⟩
      rw [update_self, List.filter_cons_of_pos (by simpa using hnames)]
      refine .inl ⟨e, _, rfl, ?_, fun f hf ↦ ?_⟩
      · rw [hrecord]
        exact if_pos ⟨rfl, rfl⟩
      · obtain ⟨hfe, hfi⟩ := (hnodup _ Nat.and_le_right).mem_erase_iff.1 (List.mem_of_mem_filter hf)
        have hflru : f ∈ lru.erase e :=
          (List.mem_erase_of_ne hfe).2 (h.shape.chained.sub _ Nat.and_le_right f hfi)
        exact (List.singleton_sublist.2 hflru).append (List.Sublist.refl [e])
    · have hnames : ¬ c'.Names d n e := by
        unfold Names
        rw [hrecord]
        exact fun hall ↦ hkey ⟨Option.some.inj hall.1, hall.2.2⟩
      have hlist : (update (fun i ↦ (chain i).erase e) (componentHash ndp.niName &&& c.nchash)
          (e :: (chain (componentHash ndp.niName &&& c.nchash)).erase e)
            (componentHash n &&& c.nchash)).filter (c'.Names d n ·) =
          ((chain (componentHash n &&& c.nchash)).filter (c.Names d n ·)).erase e := by
        have hsub : ((chain (componentHash n &&& c.nchash)).erase e).filter (c'.Names d n ·) =
            ((chain (componentHash n &&& c.nchash)).filter (c.Names d n ·)).erase e := by
          rw [List.erase_filter]
          refine List.filter_congr fun f hf ↦ ?_
          have hfe : f ≠ e := ((hnodup _ Nat.and_le_right).mem_erase_iff.1 hf).1
          exact decide_eq_decide.2 (names_congr (hsame.entries f hfe) (congrFun hvId d))
        by_cases hbucket : componentHash n &&& c.nchash = componentHash ndp.niName &&& c.nchash
        · rw [hbucket, update_self, List.filter_cons_of_neg (by simpa using hnames),
            ← hbucket, hsub]
        · rw [update_of_ne hbucket, hsub]
      rw [hlist]
      have hfilter : ((chain (componentHash n &&& c.nchash)).filter (c.Names d n ·)).Nodup :=
        (hnodup _ Nat.and_le_right).filter _
      have hne : ∀ f ∈ ((chain (componentHash n &&& c.nchash)).filter (c.Names d n ·)).erase e,
          c'.entries f = c.entries f := fun f hf ↦
        hsame.entries f (hfilter.mem_erase_iff.1 hf).1
      have hnewest := (h.newest d n).erase h.shape.holds.nodup hfilter
        (fun f hf ↦ h.shape.chained.sub _ Nat.and_le_right f (List.mem_of_mem_filter hf)) hslot
      refine hnewest.congr (if_neg hkey) (fun f hf ↦ ?_) (fun f hf vp hvp ↦ ?_)
        fun _ _ _ _ _ horder ↦ horder
      · rw [hne f hf]
      · unfold Current at hvp ⊢
        rwa [hne f hf, hvId] at hvp

/-! ## Purging -/

omit [DecidableEq E] in
/-- A purge that hands out the next number, when no entry for the vnode answers with it. -/
theorem Recorded.purge (h : c.Recorded events lru chain) {vp : V} {id : ℕ}
    (hshape : c'.Shape lru chain) (hnchash : c'.nchash = c.nchash) (hid : id ≠ 0)
    (hvId : c'.vId = update c.vId vp id) (hentries : c'.entries = c.entries)
    (hclean : ∀ i ≤ c.nchash, ∀ e ∈ chain i, c.About vp e → ¬ c.Valid (update c.vId vp id) e) :
    c'.Recorded (.purged vp :: events) lru chain := by
  have hself : c'.vId vp = id := by rw [hvId, update_self]
  have hother : ∀ v, v ≠ vp → c'.vId v = c.vId v := fun v hv ↦ by rw [hvId, update_of_ne hv]
  have hpurged : ∀ e v, v ≠ vp → PurgedSince (.purged vp :: events) e v → PurgedSince events e v :=
    fun e v hv hsince ↦ hsince.resolve_left (Ne.symm hv)
  have hclean' : ∀ i ≤ c.nchash, ∀ e ∈ chain i, c.About vp e → ¬ c'.Valid c'.vId e := by
    intro i hi e he habout
    rw [valid_congr (congrFun hentries e) (fun _ _ ↦ congrFun hvId _)]
    exact hclean i hi e he habout
  refine ⟨hshape, hnchash ▸ hentries ▸ h.hashed, ?_, ?_, ?_, ?_, ?_⟩
  · intro e v hsince
    by_cases hv : v = vp
    · rwa [hv, hself]
    · rw [hother v hv]
      exact h.purged_ne e v (hpurged e v hv hsince)
  · intro i hi e he d hd hzero
    rw [hnchash] at hi
    rw [hentries] at hd ⊢
    have hne : d ≠ vp := fun hdv ↦ hid (hself.symm.trans (hdv ▸ hzero))
    exact h.dvpid_zero i hi e he d hd (hother d hne ▸ hzero)
  · intro i hi e he v hv hzero
    rw [hnchash] at hi
    rw [hentries] at hv ⊢
    have hne : v ≠ vp := fun hvv ↦ hid (hself.symm.trans (hvv ▸ hzero))
    exact h.vpid_zero i hi e he v hv (hother v hne ▸ hzero)
  · intro i hi e he v habout hsince
    rw [hnchash] at hi
    rw [about_congr (congrFun hentries e)] at habout
    by_cases hvp : c.About vp e
    · exact hclean' i hi e he hvp
    · have hne : ∀ w, c.About w e → w ≠ vp := fun w hw hwv ↦ hvp (hwv ▸ hw)
      rw [valid_congr (congrFun hentries e) fun w hw ↦ hother w (hne w hw)]
      exact h.stale i hi e he v habout (hpurged e v (hne v habout) hsince)
  · intro d n
    rw [hnchash]
    have hnot : ∀ e ∈ (chain (componentHash n &&& c.nchash)).filter (c'.Names d n ·),
        c.About vp e → ∀ v, ¬ c'.Current e v := by
      intro e he habout v hcur
      obtain ⟨hchain, hnames⟩ := mem_named.1 he
      exact hclean' _ Nat.and_le_right e hchain habout (hnames.valid hcur)
    by_cases hdv : d = vp
    · refine .inr fun e he v hcur ↦ absurd hcur (hnot e he (.inl ?_) v)
      have hnames := (mem_named.1 he).2
      rw [← hdv, ← hentries]
      exact hnames.1
    · have hlist : (chain (componentHash n &&& c.nchash)).filter (c'.Names d n ·) =
          (chain (componentHash n &&& c.nchash)).filter (c.Names d n ·) :=
        List.filter_congr fun e _ ↦
          decide_eq_decide.2 (names_congr (congrFun hentries e) (hother d hdv))
      rw [hlist] at hnot ⊢
      refine (h.newest d n).congr (if_neg (Ne.symm hdv)) (fun e _ ↦ ?_) (fun e he v hcur ↦ ?_)
        fun _ _ _ _ _ horder ↦ horder
      · rw [hentries]
      · have hv : v ≠ vp := by
          rintro rfl
          exact hnot e he (.inr (hentries ▸ hcur.1)) v hcur
        exact (current_congr (congrFun hentries e) (hother v hv)).1 hcur

omit [DecidableEq E] in
/-- A purge that starts the numbers again: no vnode that was purged has the number zero, which all
the entries get. -/
theorem Recorded.purge_wrap (h : c.Recorded events lru chain) {vp : V}
    (hshape : c'.Shape lru chain) (hnchash : c'.nchash = c.nchash)
    (hvId : c'.vId = update c.vId vp 1)
    (hcleared : ∀ i ≤ c.nchash, ∀ e ∈ chain i, c'.entries e = cleared (c.entries e)) :
    c'.Recorded (.purged vp :: events) lru chain := by
  have hself : c'.vId vp = 1 := by rw [hvId, update_self]
  have hother : ∀ v, v ≠ vp → c'.vId v = c.vId v := fun v hv ↦ by rw [hvId, update_of_ne hv]
  have hpurged_ne : ∀ e v, PurgedSince (.purged vp :: events) e v → c'.vId v ≠ 0 := by
    intro e v hsince
    by_cases hv : v = vp
    · rw [hv, hself]
      exact Nat.one_ne_zero
    · rw [hother v hv]
      exact h.purged_ne e v (hsince.resolve_left (Ne.symm hv))
  -- A number that is still zero has not changed.
  have hzero : ∀ v, c'.vId v = 0 → v ≠ vp ∧ c.vId v = 0 := by
    intro v hv
    have hne : v ≠ vp := fun hvv ↦ Nat.one_ne_zero (hself.symm.trans (hvv ▸ hv))
    exact ⟨hne, hother v hne ▸ hv⟩
  refine ⟨hshape, ?_, hpurged_ne, ?_, ?_, ?_, ?_⟩
  · intro i hi e he
    rw [hnchash] at hi ⊢
    rw [hcleared i hi e he]
    exact h.hashed i hi e he
  · intro i hi e he _ _ _
    rw [hcleared i (hnchash ▸ hi) e he]
    rfl
  · intro i hi e he _ _ _
    rw [hcleared i (hnchash ▸ hi) e he]
    rfl
  · rintro i hi e he v habout hsince ⟨⟨d, hd, hdvpid⟩, hvpid⟩
    refine hpurged_ne e v hsince ?_
    rw [hcleared i (hnchash ▸ hi) e he] at hdvpid hvpid
    rcases habout with hv | hv
    · rw [← Option.some.inj (hd.symm.trans hv)]
      exact hdvpid.symm
    · rw [hcleared i (hnchash ▸ hi) e he] at hv
      exact (hvpid v hv).symm
  · intro d n
    rw [hnchash]
    by_cases hd : c'.vId d = 0
    · obtain ⟨hne, hold⟩ := hzero d hd
      have hlist : (chain (componentHash n &&& c.nchash)).filter (c'.Names d n ·) =
          (chain (componentHash n &&& c.nchash)).filter (c.Names d n ·) := by
        refine List.filter_congr fun e he ↦ decide_eq_decide.2 ?_
        have hold_zero := h.dvpid_zero _ Nat.and_le_right e he d
        unfold Names
        rw [hcleared _ Nat.and_le_right e he, hd, hold]
        exact ⟨fun hnames ↦ ⟨hnames.1, hold_zero hnames.1 hold, hnames.2.2⟩,
          fun hnames ↦ ⟨hnames.1, rfl, hnames.2.2⟩⟩
      have hchained : ∀ e ∈ (chain (componentHash n &&& c.nchash)).filter (c.Names d n ·),
          e ∈ chain (componentHash n &&& c.nchash) := fun e ↦ List.mem_of_mem_filter
      rw [hlist]
      refine (h.newest d n).congr (if_neg (Ne.symm hne)) (fun e he ↦ ?_) (fun e he v hcur ↦ ?_)
        fun _ _ _ _ _ horder ↦ horder
      · rw [hcleared _ Nat.and_le_right e (hchained e he)]
        rfl
      · unfold Current at hcur
        rw [hcleared _ Nat.and_le_right e (hchained e he)] at hcur
        have hv := (hzero v hcur.2.symm).2
        exact ⟨hcur.1, (h.vpid_zero _ Nat.and_le_right e (hchained e he) v hcur.1 hv).trans hv.symm⟩
    · have hnone : (chain (componentHash n &&& c.nchash)).filter (c'.Names d n ·) = [] := by
        refine List.filter_eq_nil_iff.2 fun e he ↦ ?_
        rw [decide_eq_true_iff]
        rintro ⟨-, hdvpid, -⟩
        rw [hcleared _ Nat.and_le_right e he] at hdvpid
        exact hd hdvpid.symm
      rw [hnone]
      exact newest_nil

omit [DecidableEq E] in
/-- The entries of the other file systems stay as they are. -/
theorem Recorded.purgevfs {M : Type*} [DecidableEq M] {vMount : V → Option M} {mp : M}
    {chain' : ℕ → List E} (h : c.Recorded events lru chain) (hshape : c'.Shape lru' chain')
    (hpurged : Purged vMount mp c c' lru lru' chain chain') :
    c'.Recorded events lru' chain' := by
  have hmem : ∀ i ≤ c.nchash, ∀ e ∈ chain' i, e ∈ chain i ∧ ¬ OnFs vMount mp c e := by
    intro i hi e he
    rw [hpurged.chain i hi] at he
    simpa using he
  have hentry : ∀ i ≤ c.nchash, ∀ e ∈ chain' i, c'.entries e = c.entries e :=
    fun i hi e he ↦ hpurged.entries e (hmem i hi e he).2
  refine ⟨hshape, ?_, hpurged.vId ▸ h.purged_ne, ?_, ?_, ?_, ?_⟩
  · intro i hi e he
    rw [hpurged.nchash] at hi ⊢
    rw [hentry i hi e he]
    exact h.hashed i hi e (hmem i hi e he).1
  · intro i hi e he
    rw [hpurged.nchash] at hi
    rw [hentry i hi e he, hpurged.vId]
    exact h.dvpid_zero i hi e (hmem i hi e he).1
  · intro i hi e he
    rw [hpurged.nchash] at hi
    rw [hentry i hi e he, hpurged.vId]
    exact h.vpid_zero i hi e (hmem i hi e he).1
  · intro i hi e he v habout hsince
    rw [hpurged.nchash] at hi
    rw [valid_congr (hentry i hi e he) fun w _ ↦ congrFun hpurged.vId w]
    exact h.stale i hi e (hmem i hi e he).1 v ((about_congr (hentry i hi e he)).1 habout) hsince
  · intro d n
    rw [hpurged.nchash]
    have hbucket : componentHash n &&& c.nchash ≤ c.nchash := Nat.and_le_right
    by_cases hmount : vMount d = some mp
    · have hnone : (chain' (componentHash n &&& c.nchash)).filter (c'.Names d n ·) = [] := by
        refine List.filter_eq_nil_iff.2 fun e he ↦ ?_
        rw [decide_eq_true_iff]
        rintro ⟨hdvp, -⟩
        rw [hentry _ hbucket e he] at hdvp
        refine (hmem _ hbucket e he).2 ?_
        unfold OnFs
        rwa [hdvp]
      rw [hnone]
      exact newest_nil
    · have hnames_off : ∀ e, c.Names d n e → ¬ OnFs vMount mp c e := by
        rintro e ⟨hdvp, -⟩
        unfold OnFs
        rwa [hdvp]
      have hlist : (chain' (componentHash n &&& c.nchash)).filter (c'.Names d n ·) =
          (chain (componentHash n &&& c.nchash)).filter (c.Names d n ·) := by
        rw [hpurged.chain _ hbucket, List.filter_filter]
        refine List.filter_congr fun e _ ↦ ?_
        by_cases hfs : OnFs vMount mp c e
        · have hnot : ¬ c.Names d n e := fun hnames ↦ hnames_off e hnames hfs
          simp [hfs, hnot]
        · have hcongr := names_congr (d := d) (n := n) (hpurged.entries e hfs)
            (congrFun hpurged.vId d)
          simp [hfs, hcongr]
      have hkept : ∀ e ∈ (chain (componentHash n &&& c.nchash)).filter (c.Names d n ·),
          ¬ OnFs vMount mp c e := fun e he ↦ hnames_off e (mem_named.1 he).2
      rw [hlist]
      refine (h.newest d n).congr rfl (fun e he ↦ ?_) (fun e he v hcur ↦ ?_)
        fun e rest hcons f hf horder ↦ ?_
      · rw [hpurged.entries e (hkept e he)]
      · exact (current_congr (hpurged.entries e (hkept e he)) (congrFun hpurged.vId v)).1 hcur
      · rw [hcons] at hkept
        have hpair : [f, e].filter (¬ OnFs vMount mp c ·) = [f, e] := by
          refine List.filter_eq_self.2 fun g hg ↦ ?_
          rcases List.mem_pair.1 hg with rfl | rfl
          · simpa using hkept g (List.mem_cons_of_mem _ hf)
          · simpa using hkept g (List.mem_cons_self ..)
        have hfilter := horder.filter (¬ OnFs vMount mp c ·)
        rw [hpair, ← hpurged.order] at hfilter
        exact hfilter.trans List.filter_sublist

end Bsd386.Kern.Namcache.Cache
