import Bsd386.Kern.Mbufs.Sharing
import Bsd386.Lib.Machine
import Mathlib.Data.List.Perm.Basic

/-!
# Runs on the cluster pool

The chains that are in use and the clusters that `m_clalloc` has allocated, through any sequence of
`MGET`, `MCLGET`, `m_copym`, `MFREE` and `m_freem`. An entry of `mclrefcnt` is a `char`, and only
the first entries of the table are cleared when it is allocated: the entry of a cluster is the
number of its references as long as there are at most 127 of them and the entry was zero when
`m_clalloc` came to the cluster.
-/

namespace Bsd386.Kern.Mbufs

/-- `NMBCLUSTERS`. -/
abbrev nmbclusters : ℕ := 256

/-- The clusters, the chains in use, and the clusters that were allocated. -/
structure State where
  store : Store
  live : List Chain
  pool : List ℕ

/-- The mbufs in use. -/
def State.mbufs (st : State) : Chain := st.live.flatten

/-- What happens to mbufs. `MCLGET` and `MFREE` are for the first mbuf of a chain; the mbufs in use
may be linked, cut and adjusted in any way. -/
inductive Event
  | get (a : Area)
  | clget (i : ℕ) (page : Option ℕ)
  | copym (i : ℕ) (off0 len : ℤ) (gets : Gets)
  | free (i : ℕ)
  | freem (i : ℕ)
  | arrange (live : List Chain)

/-- The page that `m_clalloc` gets. -/
def State.newPage (st : State) (page : Option ℕ) : Option ℕ :=
  if st.store.mclfree = [] then page else none

/-- The clusters of a page. -/
def clustersOf (page : Option ℕ) : List ℕ :=
  match page with
  | none => []
  | some c => [c + 1, c]

/-- `MCLGET` for `m`, with which a chain begins. -/
def State.clget (st : State) (i : ℕ) (m : Mbuf) (next : Chain) (page : Option ℕ) : State where
  store := (mclget page m st.store).2
  live := ((mclget page m st.store).1 :: next) :: st.live.eraseIdx i
  pool := clustersOf (st.newPage page) ++ st.pool

/-- An event. A panic leaves everything as it is. -/
def State.exec (st : State) (e : Event) : Unit × State :=
  ((), match e with
    | .get a => { st with live := [⟨0, 0, none, none, a⟩] :: st.live }
    | .clget i page =>
      match st.live[i]? with
      | some (m :: next) => if m.ext = none then st.clget i m next page else st
      | _ => st
    | .copym i off0 len gets =>
      match st.live[i]? with
      | some chain =>
        match mCopym chain off0 len gets st.store with
        | .ok made => { st with store := made.2, live := made.1 :: st.live }
        | .error _ => st
      | none => st
    | .free i =>
      match st.live[i]? with
      | some (m :: next) =>
        { st with store := mfree m st.store, live := next :: st.live.eraseIdx i }
      | _ => st
    | .freem i =>
      match st.live[i]? with
      | some chain => { st with store := mFreem chain st.store, live := st.live.eraseIdx i }
      | none => st
    | .arrange live =>
      if (live.flatten.map Mbuf.ext).Perm (st.mbufs.map Mbuf.ext) then { st with live := live }
      else st)

/-- The state behind `mbinit`: `memset` has cleared the first entries of `mclrefcnt`, and the others
are what `malloc` has returned. -/
def boot (mbutl : ℕ) (clusters : ℕ → Block mclbytes) (ram : ℕ → ℤ) : State where
  store := mClalloc (some 0) ⟨mbutl, clusters,
    fun i ↦ if i < nmbclusters + 2 then 0 else char (ram i), []⟩
  live := []
  pool := clustersOf (some 0)

/-! ## Exact counts -/

/-- The entry of each cluster is the number of mbufs that refer to it, and a cluster is on the free
list, once, when there is none. -/
structure Exact (s : Store) (pool : List ℕ) (mbufs : Chain) : Prop where
  entry : ∀ c ∈ pool, s.mclrefcnt (mtocl c) = refs mbufs c
  free_iff : ∀ c ∈ pool, c ∈ s.mclfree ↔ refs mbufs c = 0
  nodup : s.mclfree.Nodup

/-- Only clusters of the pool are free or referred to, and the entries are values of a `char`. -/
structure Framed (s : Store) (pool : List ℕ) (mbufs : Chain) : Prop where
  free_pool : ∀ c ∈ s.mclfree, c ∈ pool
  refs_pool : ∀ c, 0 < refs mbufs c → c ∈ pool
  low : ∀ c, -128 ≤ s.mclrefcnt (mtocl c)
  high : ∀ c, s.mclrefcnt (mtocl c) < 128

variable {s : Store} {pool : List ℕ} {m : Mbuf} {chain mbufs mbufs' : Chain} {st : State}

/-- No cluster has too many references. -/
theorem Exact.refs_le (hexact : Exact s pool mbufs) (hframed : Framed s pool mbufs) (c : ℕ) :
    refs mbufs c ≤ 127 := by
  rcases Nat.eq_zero_or_pos (refs mbufs c) with hzero | hpos
  · omega
  · have hentry := hexact.entry c (hframed.refs_pool c hpos)
    have hhigh := hframed.high c
    omega

theorem Exact.held (hexact : Exact s pool mbufs) (hframed : Framed s pool mbufs)
    (hle : ∀ c, refs chain c ≤ refs mbufs c) : Held s chain := by
  intro c hpos
  have hrefs := hle c
  have hentry := hexact.entry c (hframed.refs_pool c (by omega))
  have hhigh := hframed.high c
  omega

theorem Exact.congr (hexact : Exact s pool mbufs) (hrefs : ∀ c, refs mbufs' c = refs mbufs c) :
    Exact s pool mbufs' :=
  ⟨fun c hc ↦ by rw [hrefs]; exact hexact.entry c hc,
    fun c hc ↦ by rw [hrefs]; exact hexact.free_iff c hc, hexact.nodup⟩

theorem Framed.congr (hframed : Framed s pool mbufs) (hrefs : ∀ c, refs mbufs' c = refs mbufs c) :
    Framed s pool mbufs' :=
  ⟨hframed.free_pool, fun c hc ↦ hframed.refs_pool c (hrefs c ▸ hc), hframed.low, hframed.high⟩

/-! ## Freeing -/

theorem mclfree_mclfree (c : ℕ) (s : Store) :
    (mclfree c s).mclfree =
      if char (s.mclrefcnt (mtocl c) - 1) = 0 then c :: s.mclfree else s.mclfree := by
  unfold mclfree
  rw [decr_mclrefcnt, if_pos rfl]
  split_ifs <;> rfl

/-- `MFREE` keeps the counts exact. -/
theorem Exact.mfree (hexact : Exact s pool (m :: mbufs)) (hframed : Framed s pool (m :: mbufs)) :
    Exact (mfree m s) pool mbufs ∧ Framed (Mbufs.mfree m s) pool mbufs := by
  have hrefs : ∀ c, refs (m :: mbufs) c = refs mbufs c + if m.ext = some c then 1 else 0 :=
    fun c ↦ refs_cons
  cases hext : m.ext with
  | none =>
    have hsame : ∀ c, refs mbufs c = refs (m :: mbufs) c := fun c ↦ by
      rw [hrefs, hext]
      rfl
    have hfree : Mbufs.mfree m s = s := by
      unfold Mbufs.mfree
      rw [hext]
    rw [hfree]
    exact ⟨hexact.congr hsame, hframed.congr hsame⟩
  | some d =>
    have hfree : Mbufs.mfree m s = mclfree d s := by
      unfold Mbufs.mfree
      rw [hext]
    have hone : refs (m :: mbufs) d = refs mbufs d + 1 := by
      rw [hrefs, if_pos hext]
    have hother : ∀ c, c ≠ d → refs (m :: mbufs) c = refs mbufs c := fun c hne ↦ by
      rw [hrefs, hext, if_neg fun h ↦ hne (Option.some.inj h).symm, Nat.add_zero]
    have hpool : d ∈ pool := hframed.refs_pool d (by omega)
    have hentry := hexact.entry d hpool
    have hhigh := hframed.high d
    have hnew : char (s.mclrefcnt (mtocl d) - 1) = refs mbufs d := by
      rw [char_eq (by omega) (by omega)]
      omega
    have hnotfree : d ∉ s.mclfree := fun hmem ↦ by
      have hzero := (hexact.free_iff d hpool).1 hmem
      omega
    have hcount : ∀ c, (mclfree d s).mclrefcnt (mtocl c) =
        if c = d then (refs mbufs d : ℤ) else s.mclrefcnt (mtocl c) := fun c ↦ by
      rw [mclfree_mclrefcnt, decr_mclrefcnt]
      split_ifs with hc
      · rw [hc, hnew]
      · rfl
    have hlist : (mclfree d s).mclfree =
        if refs mbufs d = 0 then d :: s.mclfree else s.mclfree := by
      rw [mclfree_mclfree, hnew]
      simp only [Int.natCast_eq_zero]
    rw [hfree]
    refine ⟨⟨fun c hc ↦ ?_, fun c hc ↦ ?_, ?_⟩, fun c hc ↦ ?_, fun c hc ↦ ?_, fun c ↦ ?_,
      fun c ↦ ?_⟩
    · rw [hcount]
      split_ifs with heq
      · rw [heq]
      · rw [← hother c heq]
        exact hexact.entry c hc
    · rw [hlist]
      by_cases heq : c = d
      · rw [heq]
        split_ifs with hzero
        · exact iff_of_true List.mem_cons_self hzero
        · exact iff_of_false hnotfree hzero
      · rw [← hother c heq, ← hexact.free_iff c hc]
        split_ifs
        · rw [List.mem_cons, or_iff_right heq]
        · rfl
    · rw [hlist]
      split_ifs
      · exact List.nodup_cons.2 ⟨hnotfree, hexact.nodup⟩
      · exact hexact.nodup
    · rw [hlist] at hc
      split_ifs at hc
      · rcases List.mem_cons.1 hc with heq | hmem
        · exact heq ▸ hpool
        · exact hframed.free_pool c hmem
      · exact hframed.free_pool c hc
    · apply hframed.refs_pool c
      rw [hrefs]
      omega
    · rw [hcount]
      split_ifs
      · omega
      · exact hframed.low c
    · rw [hcount]
      split_ifs
      · omega
      · exact hframed.high c

/-- `m_freem` keeps the counts exact. -/
theorem Exact.mFreem (hexact : Exact s pool (chain ++ mbufs))
    (hframed : Framed s pool (chain ++ mbufs)) :
    Exact (mFreem chain s) pool mbufs ∧ Framed (Mbufs.mFreem chain s) pool mbufs := by
  induction chain generalizing s with
  | nil => exact ⟨hexact, hframed⟩
  | cons m chain ih =>
    have hfree := Exact.mfree hexact hframed
    exact ih hfree.1 hfree.2

/-! ## Taking references -/

/-- References to clusters that are in use stay exact exactly when there are not too many. -/
theorem Exact.shareAll (hexact : Exact s pool mbufs) (hframed : Framed s pool mbufs)
    (hle : ∀ c, refs chain c ≤ refs mbufs c) :
    Framed (shareAll chain s) pool (chain ++ mbufs) ∧
      (Exact (Mbufs.shareAll chain s) pool (chain ++ mbufs) ↔
        ∀ c, refs (chain ++ mbufs) c ≤ 127) := by
  have hcount : ∀ c, (Mbufs.shareAll chain s).mclrefcnt (mtocl c) =
      char (s.mclrefcnt (mtocl c) + refs chain c) := fun c ↦
    shareAll_mclrefcnt (hframed.low c) (hframed.high c)
  have hrefs : ∀ c, refs (chain ++ mbufs) c = refs chain c + refs mbufs c := fun c ↦ refs_append
  have hframed' : Framed (Mbufs.shareAll chain s) pool (chain ++ mbufs) := by
    refine ⟨?_, fun c hc ↦ ?_, fun c ↦ ?_, fun c ↦ ?_⟩
    · rw [shareAll_mclfree]
      exact hframed.free_pool
    · have hused := hle c
      rw [hrefs] at hc
      exact hframed.refs_pool c (by omega)
    · rw [hcount]
      exact le_char _
    · rw [hcount]
      exact char_lt _
  refine ⟨hframed', fun hexact' c ↦ hexact'.refs_le hframed' c, fun hfew ↦ ⟨fun c hc ↦ ?_,
    fun c hc ↦ ?_, ?_⟩⟩
  · have hentry := hexact.entry c hc
    have hbound := hfew c
    rw [hrefs] at hbound ⊢
    rw [hcount, char_eq (by omega) (by omega)]
    omega
  · have hused := hle c
    rw [shareAll_mclfree, hrefs, hexact.free_iff c hc]
    omega
  · rw [shareAll_mclfree]
    exact hexact.nodup

/-- The reference to the first free cluster is counted right exactly when its entry was zero. -/
theorem exact_take {c : ℕ} {rest : List ℕ} (hframed : Framed s pool mbufs)
    (hfree : s.mclfree = c :: rest) (hunused : refs mbufs c = 0) (hm : m.ext = some c) :
    Framed { s.incr c with mclfree := rest } pool (m :: mbufs) ∧
      (Exact { s.incr c with mclfree := rest } pool (m :: mbufs) ↔ Exact s pool mbufs) := by
  have hpool : c ∈ pool := hframed.free_pool c (hfree ▸ List.mem_cons_self)
  have hrefs : ∀ d, refs (m :: mbufs) d = refs mbufs d + if d = c then 1 else 0 := fun d ↦ by
    rw [refs_cons, hm]
    simp only [Option.some.injEq, eq_comm]
  have hcount : ∀ d, (s.incr c).mclrefcnt (mtocl d) =
      if d = c then char (s.mclrefcnt (mtocl d) + 1) else s.mclrefcnt (mtocl d) :=
    fun d ↦ incr_mclrefcnt
  have hone : char (s.mclrefcnt (mtocl c) + 1) = 1 ↔ s.mclrefcnt (mtocl c) = 0 := by
    have hlow := hframed.low c
    have hhigh := hframed.high c
    simp only [char, Int.bmod]
    split_ifs <;> omega
  refine ⟨⟨fun d hd ↦ ?_, fun d hd ↦ ?_, fun d ↦ ?_, fun d ↦ ?_⟩, fun hexact ↦ ?_, fun hexact ↦ ?_⟩
  · exact hframed.free_pool d (hfree ▸ List.mem_cons_of_mem c hd)
  · rw [hrefs] at hd
    split_ifs at hd with heq
    · exact heq ▸ hpool
    · exact hframed.refs_pool d hd
  · change -128 ≤ (s.incr c).mclrefcnt (mtocl d)
    rw [hcount]
    split_ifs
    · exact le_char _
    · exact hframed.low d
  · change (s.incr c).mclrefcnt (mtocl d) < 128
    rw [hcount]
    split_ifs
    · exact char_lt _
    · exact hframed.high d
  · have hentry : ∀ d ∈ pool, (s.incr c).mclrefcnt (mtocl d) = refs (m :: mbufs) d := hexact.entry
    have hlist : ∀ d ∈ pool, d ∈ rest ↔ refs (m :: mbufs) d = 0 := hexact.free_iff
    have hnotfree : c ∉ rest := fun hmem ↦ by
      have hzero := (hlist c hpool).1 hmem
      rw [hrefs, if_pos rfl] at hzero
      omega
    refine ⟨fun d hd ↦ ?_, fun d hd ↦ ?_, hfree ▸ List.nodup_cons.2 ⟨hnotfree, hexact.nodup⟩⟩
    · have hd' := hentry d hd
      rw [hcount, hrefs] at hd'
      split_ifs at hd' with heq
      · rw [heq, hunused] at hd' ⊢
        exact hone.1 hd'
      · exact hd'
    · rw [hfree, List.mem_cons]
      by_cases heq : d = c
      · exact iff_of_true (Or.inl heq) (heq ▸ hunused)
      · rw [or_iff_right heq, hlist d hd, hrefs, if_neg heq, Nat.add_zero]
  · have hlist := hexact.nodup
    rw [hfree, List.nodup_cons] at hlist
    refine ⟨fun d hd ↦ ?_, fun d hd ↦ ?_, hlist.2⟩
    · change (s.incr c).mclrefcnt (mtocl d) = _
      rw [hcount, hrefs]
      split_ifs with heq
      · rw [heq, hunused]
        have hzero := hexact.entry c hpool
        rw [hunused] at hzero
        exact hone.2 hzero
      · exact hexact.entry d hd
    · change d ∈ rest ↔ _
      have hd' := hexact.free_iff d hd
      rw [hfree, List.mem_cons] at hd'
      rw [hrefs]
      split_ifs with heq
      · exact iff_of_false (heq ▸ hlist.1) fun hfalse ↦ hfalse.elim
      · rw [or_iff_right heq] at hd'
        exact hd'

/-- The clusters of a new page are free and counted right exactly when their entries are zero. -/
theorem exact_clalloc {p : ℕ} (hexact : Exact s pool mbufs) (hframed : Framed s pool mbufs)
    (hfree : s.mclfree = []) (hp : p ∉ pool) (hp' : p + 1 ∉ pool) :
    Framed (mClalloc (some p) s) (clustersOf (some p) ++ pool) mbufs ∧
      (Exact (mClalloc (some p) s) (clustersOf (some p) ++ pool) mbufs ↔
        s.mclrefcnt (mtocl p) = 0 ∧ s.mclrefcnt (mtocl (p + 1)) = 0) := by
  have hunused : ∀ c, c ∉ pool → refs mbufs c = 0 := fun c hc ↦ by
    by_contra hne
    exact hc (hframed.refs_pool c (Nat.pos_of_ne_zero hne))
  have hlist : (mClalloc (some p) s).mclfree = [p + 1, p] := by
    change (p + 1) :: p :: s.mclfree = _
    rw [hfree]
  have hcount : (mClalloc (some p) s).mclrefcnt = s.mclrefcnt := rfl
  have hmem : ∀ c, c ∈ clustersOf (some p) ++ pool ↔ c = p + 1 ∨ c = p ∨ c ∈ pool := fun c ↦ by
    simp [clustersOf]
  refine ⟨⟨fun c hc ↦ ?_, fun c hc ↦ ?_, hframed.low, hframed.high⟩, fun hexact' ↦ ?_,
    fun hzero ↦ ?_⟩
  · rw [hlist, List.mem_cons, List.mem_singleton] at hc
    rw [hmem]
    tauto
  · rw [hmem]
    exact Or.inr (Or.inr (hframed.refs_pool c hc))
  · have hentry := hexact'.entry
    rw [hcount] at hentry
    have hfirst := hentry p ((hmem p).2 (Or.inr (Or.inl rfl)))
    have hsecond := hentry (p + 1) ((hmem _).2 (Or.inl rfl))
    rw [hunused p hp] at hfirst
    rw [hunused (p + 1) hp'] at hsecond
    exact ⟨hfirst, hsecond⟩
  · refine ⟨fun c hc ↦ ?_, fun c hc ↦ ?_, ?_⟩
    · rw [hcount]
      rcases (hmem c).1 hc with heq | heq | hold
      · rw [heq, hunused _ hp', hzero.2]
        rfl
      · rw [heq, hunused _ hp, hzero.1]
        rfl
      · exact hexact.entry c hold
    · rw [hlist, List.mem_cons, List.mem_singleton]
      rcases (hmem c).1 hc with heq | heq | hold
      · exact iff_of_true (Or.inl heq) (heq ▸ hunused _ hp')
      · exact iff_of_true (Or.inr heq) (heq ▸ hunused _ hp)
      · have hc' := hexact.free_iff c hold
        rw [hfree] at hc'
        rw [← hc']
        refine iff_of_false ?_ List.not_mem_nil
        rintro (heq | heq)
        · exact hp' (heq ▸ hold)
        · exact hp (heq ▸ hold)
    · rw [hlist]
      simp

/-! ## Steps -/

/-- The clusters of a state are counted right. -/
def State.Exact (st : State) : Prop := Mbufs.Exact st.store st.pool st.mbufs

/-- The page that an event allocates. -/
def State.allocates (st : State) : Event → Option ℕ
  | .clget i page =>
    if (st.live[i]?.bind List.head?).any fun m ↦ m.ext = none then st.newPage page else none
  | _ => none

/-- `kmem_alloc` returns a page that was not allocated. -/
def State.FreshPage (st : State) (e : Event) : Prop :=
  ∀ p, st.allocates e = some p → p ∉ st.pool ∧ p + 1 ∉ st.pool

/-- No cluster has more than 127 references behind the event, and the entries of new clusters are
zero. -/
def State.Meets (st : State) (e : Event) : Prop :=
  (∀ c, refs (st.exec e).2.mbufs c ≤ 127) ∧
    ∀ p, st.allocates e = some p →
      st.store.mclrefcnt (mtocl p) = 0 ∧ st.store.mclrefcnt (mtocl (p + 1)) = 0

/-- The counts are exact, and everything else is in order. -/
structure State.Sound (st : State) : Prop where
  exact_counts : st.Exact
  framed : Framed st.store st.pool st.mbufs

theorem refs_eraseIdx {i : ℕ} (hchain : st.live[i]? = some chain) (c : ℕ) :
    refs st.mbufs c = refs (chain ++ (st.live.eraseIdx i).flatten) c := by
  obtain ⟨hlt, hget⟩ := List.getElem?_eq_some_iff.1 hchain
  have hperm := List.getElem_cons_eraseIdx_perm hlt
  rw [hget] at hperm
  exact (hperm.flatten.countP_eq _).symm

theorem mclget_free {c : ℕ} {rest : List ℕ} (page : Option ℕ) (hfree : s.mclfree = c :: rest) :
    mclget page m s =
      ({ m with mData := 0, ext := some c }, { s.incr c with mclfree := rest }) := by
  have hsame : (if s.mclfree = [] then mClalloc page s else s) = s :=
    if_neg (hfree ▸ List.cons_ne_nil c rest)
  simp only [mclget, mclalloc, hsame]
  simp only [hfree]

theorem mclget_page {p : ℕ} (hfree : s.mclfree = []) :
    mclget (some p) m s = mclget none m (mClalloc (some p) s) := by
  have hlist : (mClalloc (some p) s).mclfree = [p + 1, p] := by
    change (p + 1) :: p :: s.mclfree = _
    rw [hfree]
  rw [mclget_free none hlist]
  simp only [mclget, mclalloc, if_pos hfree, hlist]

theorem mclget_none (hfree : s.mclfree = []) : mclget none m s = (m, s) := by
  have hsame : (if s.mclfree = [] then mClalloc none s else s) = s := if_pos hfree
  simp only [mclget, mclalloc, hsame]
  simp only [hfree]

/-- `MCLGET` keeps the counts exact exactly when the entries of the clusters of a new page are
zero. -/
theorem State.clget_step (hsound : st.Sound) {i : ℕ} {next : Chain} (page : Option ℕ)
    (hchain : st.live[i]? = some (m :: next)) (hext : m.ext = none)
    (hfresh : ∀ p, st.newPage page = some p → p ∉ st.pool ∧ p + 1 ∉ st.pool) :
    Framed (st.clget i m next page).store (st.clget i m next page).pool
        (st.clget i m next page).mbufs ∧
      ((st.clget i m next page).Exact ↔ ∀ p, st.newPage page = some p →
        st.store.mclrefcnt (mtocl p) = 0 ∧ st.store.mclrefcnt (mtocl (p + 1)) = 0) := by
  obtain ⟨others, hothers⟩ : ∃ others, others = next ++ (st.live.eraseIdx i).flatten := ⟨_, rfl⟩
  have hrefs : ∀ c, refs others c = refs st.mbufs c := fun c ↦ by
    rw [refs_eraseIdx hchain, List.cons_append, refs_cons, hext, hothers]
    rfl
  have hexact := hsound.exact_counts.congr hrefs
  have hframed := hsound.framed.congr hrefs
  have hmbufs : (st.clget i m next page).mbufs = (mclget page m st.store).1 :: others := by
    rw [hothers]
    rfl
  rw [State.Exact, hmbufs]
  change Framed (mclget page m st.store).2 (clustersOf (st.newPage page) ++ st.pool) _ ∧
    (Mbufs.Exact (mclget page m st.store).2 (clustersOf (st.newPage page) ++ st.pool) _ ↔ _)
  cases hfree : st.store.mclfree with
  | cons c rest =>
    have hnone : st.newPage page = none := if_neg (hfree ▸ List.cons_ne_nil c rest)
    have hunused := (hexact.free_iff c (hframed.free_pool c (hfree ▸ List.mem_cons_self))).1
      (hfree ▸ List.mem_cons_self)
    have htake := exact_take (m := { m with mData := 0, ext := some c }) hframed hfree hunused rfl
    rw [mclget_free page hfree, hnone]
    exact ⟨htake.1, iff_of_true (htake.2.2 hexact) fun p hp ↦ by cases hp⟩
  | nil =>
    have hpage : st.newPage page = page := if_pos hfree
    rw [hpage] at hfresh ⊢
    cases page with
    | none =>
      have hsame : ∀ c, refs (m :: others) c = refs others c := fun c ↦ by
        rw [refs_cons, hext]
        rfl
      rw [mclget_none hfree]
      exact ⟨hframed.congr hsame, iff_of_true (hexact.congr hsame) fun p hp ↦ by cases hp⟩
    | some p =>
      have hnew := hfresh p rfl
      have hclalloc := exact_clalloc hexact hframed hfree hnew.1 hnew.2
      have hlist : (mClalloc (some p) st.store).mclfree = [p + 1, p] := by
        change (p + 1) :: p :: st.store.mclfree = _
        rw [hfree]
      have hunused : refs others (p + 1) = 0 := by
        by_contra hne
        exact hnew.2 (hframed.refs_pool _ (Nat.pos_of_ne_zero hne))
      have htake := exact_take (m := { m with mData := 0, ext := some (p + 1) }) hclalloc.1 hlist
        hunused rfl
      rw [mclget_page hfree, mclget_free none hlist]
      refine ⟨htake.1, htake.2.trans (hclalloc.2.trans ⟨fun hzero q hq ↦ ?_, fun hzero ↦ ?_⟩)⟩
      · cases hq
        exact hzero
      · exact hzero p rfl

/-- Under a fresh page, the counts stay exact exactly when the condition is met, and everything else
stays in order. -/
theorem State.exec_step (hsound : st.Sound) (e : Event) (hfresh : st.FreshPage e) :
    Framed (st.exec e).2.store (st.exec e).2.pool (st.exec e).2.mbufs ∧
      ((st.exec e).2.Exact ↔ st.Meets e) := by
  have hkept : ∀ st' : State, (st.exec e).2 = st' → st.allocates e = none → st'.Sound →
      Framed (st.exec e).2.store (st.exec e).2.pool (st.exec e).2.mbufs ∧
        ((st.exec e).2.Exact ↔ st.Meets e) := fun st' hst hnone hsound' ↦ by
    rw [State.Meets, hst, hnone]
    refine ⟨hsound'.framed, iff_of_true hsound'.exact_counts ⟨fun c ↦ ?_, fun p hp ↦ ?_⟩⟩
    · exact hsound'.exact_counts.refs_le hsound'.framed c
    · cases hp
  cases e with
  | get a =>
    refine hkept _ rfl rfl ⟨hsound.exact_counts.congr fun c ↦ ?_, hsound.framed.congr fun c ↦ ?_⟩
    all_goals exact refs_cons
  | clget i page =>
    cases hchain : st.live[i]? with
    | none =>
      refine hkept st ?_ ?_ hsound
      · simp only [State.exec, hchain]
      · simp [State.allocates, hchain]
    | some chain =>
      cases chain with
      | nil =>
        refine hkept st ?_ ?_ hsound
        · simp only [State.exec, hchain]
        · simp [State.allocates, hchain]
      | cons m next =>
        by_cases hext : m.ext = none
        · have hallocates : st.allocates (.clget i page) = st.newPage page := by
            simp [State.allocates, hchain, hext]
          have hexec : (st.exec (.clget i page)).2 = st.clget i m next page := by
            simp only [State.exec, hchain, if_pos hext]
          have hstep := State.clget_step hsound page hchain hext fun p hp ↦
            hfresh p (hallocates.trans hp)
          rw [State.Meets, hallocates, hexec]
          refine ⟨hstep.1, fun hexact ↦ ⟨?_, hstep.2.1 hexact⟩, fun hmeets ↦ hstep.2.2 hmeets.2⟩
          exact fun c ↦ hexact.refs_le hstep.1 c
        · refine hkept st ?_ ?_ hsound
          · simp only [State.exec, hchain, if_neg hext]
          · simp [State.allocates, hchain, hext]
  | copym i off0 len gets =>
    cases hchain : st.live[i]? with
    | none =>
      refine hkept st ?_ rfl hsound
      simp only [State.exec, hchain]
    | some chain =>
      cases hcopym : mCopym chain off0 len gets st.store with
      | error fault =>
        refine hkept st ?_ rfl hsound
        simp only [State.exec, hchain, hcopym]
      | ok made =>
        have hexec : (st.exec (.copym i off0 len gets)).2 =
            { st with store := made.2, live := made.1 :: st.live } := by
          simp only [State.exec, hchain, hcopym]
        have hle : ∀ c, refs chain c ≤ refs st.mbufs c := fun c ↦ by
          rw [refs_eraseIdx hchain, refs_append]
          omega
        have hheld := hsound.exact_counts.held hsound.framed hle
        rcases mCopym_refs hheld hcopym with hfailed | ⟨hshared, hcopies⟩
        · refine hkept { st with live := [] :: st.live } (hexec.trans ?_) rfl
            ⟨hsound.exact_counts, hsound.framed⟩
          rw [hfailed]
        · have hused : ∀ c, refs made.1 c ≤ refs st.mbufs c := fun c ↦
            Nat.le_trans (hcopies c) (hle c)
          have hshare := hsound.exact_counts.shareAll hsound.framed hused
          rw [State.Meets, hexec]
          rw [← hshared] at hshare
          refine ⟨hshare.1, hshare.2.trans ⟨fun hfew ↦ ⟨hfew, fun p hp ↦ ?_⟩, fun h ↦ h.1⟩⟩
          cases hp
  | free i =>
    cases hchain : st.live[i]? with
    | none =>
      refine hkept st ?_ rfl hsound
      simp only [State.exec, hchain]
    | some chain =>
      cases chain with
      | nil =>
        refine hkept st ?_ rfl hsound
        simp only [State.exec, hchain]
      | cons m next =>
        have hfree := Exact.mfree
          (hsound.exact_counts.congr fun c ↦ (refs_eraseIdx hchain c).symm)
          (hsound.framed.congr fun c ↦ (refs_eraseIdx hchain c).symm)
        refine hkept { st with store := mfree m st.store, live := next :: st.live.eraseIdx i }
          ?_ rfl ⟨hfree.1, hfree.2⟩
        simp only [State.exec, hchain]
  | freem i =>
    cases hchain : st.live[i]? with
    | none =>
      refine hkept st ?_ rfl hsound
      simp only [State.exec, hchain]
    | some chain =>
      have hfree := Exact.mFreem
        (hsound.exact_counts.congr fun c ↦ (refs_eraseIdx hchain c).symm)
        (hsound.framed.congr fun c ↦ (refs_eraseIdx hchain c).symm)
      refine hkept { st with store := mFreem chain st.store, live := st.live.eraseIdx i }
        ?_ rfl ⟨hfree.1, hfree.2⟩
      simp only [State.exec, hchain]
  | arrange live =>
    by_cases hperm : (live.flatten.map Mbuf.ext).Perm (st.mbufs.map Mbuf.ext)
    · have hrefs : ∀ c, refs live.flatten c = refs st.mbufs c := fun c ↦
        refs_eq_of_map hperm c
      refine hkept { st with live := live } ?_ rfl
        ⟨hsound.exact_counts.congr hrefs, hsound.framed.congr hrefs⟩
      simp only [State.exec, if_pos hperm]
    · refine hkept st ?_ rfl hsound
      simp only [State.exec, if_neg hperm]

/-! ## Runs -/

theorem boot_sound (mbutl : ℕ) (clusters : ℕ → Block mclbytes) (ram : ℕ → ℤ) :
    (boot mbutl clusters ram).Sound := by
  have hrange : ∀ i, -128 ≤ (if i < nmbclusters + 2 then (0 : ℤ) else char (ram i)) ∧
      (if i < nmbclusters + 2 then (0 : ℤ) else char (ram i)) < 128 := fun i ↦ by
    split_ifs
    · omega
    · exact ⟨le_char _, char_lt _⟩
  have hempty : Framed ⟨mbutl, clusters, fun i ↦ if i < nmbclusters + 2 then 0 else char (ram i),
      []⟩ [] [] :=
    ⟨fun _ hc ↦ (List.not_mem_nil hc).elim, fun _ hc ↦ (Nat.lt_irrefl 0 hc).elim,
      fun _ ↦ (hrange _).1, fun _ ↦ (hrange _).2⟩
  have hexact : Exact ⟨mbutl, clusters, fun i ↦ if i < nmbclusters + 2 then 0 else char (ram i),
      []⟩ [] [] :=
    ⟨fun _ hc ↦ (List.not_mem_nil hc).elim, fun _ hc ↦ (List.not_mem_nil hc).elim,
      List.nodup_nil⟩
  have hclalloc := exact_clalloc (p := 0) hexact hempty rfl List.not_mem_nil List.not_mem_nil
  rw [List.append_nil] at hclalloc
  exact ⟨hclalloc.2.2 ⟨rfl, rfl⟩, hclalloc.1⟩

/-- The entry of each cluster is the number of the mbufs that refer to it, and the clusters without
such an mbuf are the free ones, all along a run exactly when no cluster ever has more than 127
references and the entries of the clusters that `m_clalloc` comes to are zero. -/
theorem counts_exact (mbutl : ℕ) (clusters : ℕ → Block mclbytes) (ram : ℕ → ℤ)
    (events : List Event)
    (hfresh : Machine.Each State.exec State.FreshPage events (boot mbutl clusters ram)) :
    Machine.Each State.exec (fun st e ↦ (st.exec e).2.Exact) events (boot mbutl clusters ram) ↔
      Machine.Each State.exec State.Meets events (boot mbutl clusters ram) := by
  apply Machine.each_iff State.Sound ?_ ?_ events (boot_sound mbutl clusters ram) hfresh
  · exact fun st e hsound hpage ↦ (State.exec_step hsound e hpage).2
  · intro st e hsound hpage hmeets
    have hstep := State.exec_step hsound e hpage
    exact ⟨hstep.2.2 hmeets, hstep.1⟩

theorem freshPages {events : List Event} (hnone : ∀ e ∈ events, ∀ i p, e ≠ .clget i (some p))
    (st : State) : Machine.Each State.exec State.FreshPage events st := by
  induction events generalizing st with
  | nil => exact trivial
  | cons e events ih =>
    refine ⟨fun p hp ↦ ?_, ih (fun e he ↦ hnone e (List.mem_cons_of_mem _ he)) _⟩
    cases e with
    | clget i page =>
      cases page with
      | some q => exact absurd rfl (hnone _ List.mem_cons_self i q)
      | none =>
        simp only [State.allocates, State.newPage, ite_self] at hp
        cases hp
    | _ => cases hp

/-- An mbuf with a cluster, and copies of it. -/
def copies (n : ℕ) : List Event :=
  [.get zeroArea, .clget 0 none] ++ List.replicate n (.copym 0 0 mCopyall [some zeroArea])

theorem copies_freshPages (n : ℕ) (st : State) :
    Machine.Each State.exec State.FreshPage (copies n) st := by
  apply freshPages
  rintro e he i p rfl
  simp [copies] at he

/-- The counts are exact while an mbuf gets a cluster. -/
theorem counts_exact_cluster :
    Machine.Each State.exec (fun st e ↦ (st.exec e).2.Exact) (copies 0)
      (boot 0 (fun _ ↦ zeroCluster) fun _ ↦ 0) := by
  have hrefs : ∀ mbufs : Chain, mbufs.length ≤ 127 → ∀ c, refs mbufs c ≤ 127 := fun mbufs hle c ↦
    Nat.le_trans List.countP_le_length hle
  refine (counts_exact 0 _ (fun _ ↦ 0) (copies 0) (copies_freshPages 0 _)).2
    ⟨⟨hrefs _ (by decide), fun p hp ↦ by cases hp⟩,
      ⟨hrefs _ (by decide), fun p hp ↦ ?_⟩, trivial⟩
  simp only [State.allocates, State.newPage, ite_self] at hp
  cases hp

/-- With 128 references the entry is negative. -/
theorem counts_overflow :
    ¬∀ (mbutl : ℕ) (clusters : ℕ → Block mclbytes) (ram : ℕ → ℤ) (events : List Event),
      Machine.Each State.exec State.FreshPage events (boot mbutl clusters ram) →
        Machine.Each State.exec (fun st e ↦ (st.exec e).2.Exact) events
          (boot mbutl clusters ram) := by
  intro hexact
  have hcopies := hexact 0 (fun _ ↦ zeroCluster) (fun _ ↦ 0) (copies 127) (copies_freshPages 127 _)
  have hlast := Machine.Each.last (q := State.Exact) (boot_sound 0 _ _).exact_counts hcopies
  have hentry := hlast.entry 1 (by decide +kernel)
  exact absurd hentry (by decide +kernel)

end Bsd386.Kern.Mbufs
