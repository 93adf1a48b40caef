import Bsd386.Dosfs.Fat

/-!
# Files

A denode with its cache of two places in the chain of clusters, and the functions that map, extend
and truncate a file, of `dosfs/dosfs_fat.c` and `dosfs/dosfs_denode.c`. There are no errors of the
disk.
-/

namespace Bsd386.Dosfs

open Function

/-- `struct fatcache`, whose fields are of type `u_short`. -/
structure Fatcache where
  frcn : ℕ
  fsrcn : ℕ

/-- `FCE_EMPTY`. -/
def fceEmpty : ℕ := 0xffff

/-- `struct denode`. `directory` is `ATTR_DIRECTORY`, `root` is `VROOT` of its vnode, and `lastmap`
and `lastfc` are the slots of `de_fc`. -/
structure Denode where
  startCluster : ℕ
  directory : Bool
  root : Bool
  fileSize : ℕ
  lastmap : Fatcache
  lastfc : Fatcache

/-- What `fc_setcache` stores. -/
def fcSetcache (frcn fsrcn : ℕ) : Fatcache := ⟨frcn % 0x10000, fsrcn % 0x10000⟩

/-- `fc_lookup`, which finds the closest slot before a cluster of the file. -/
def fcLookup (dep : Denode) (findcn : ℕ) : Option Fatcache :=
  [dep.lastmap, dep.lastfc].foldl (fun closest fc ↦
    if fc.frcn ≠ fceEmpty ∧ fc.frcn ≤ findcn ∧ (closest.all fun c ↦ c.frcn < fc.frcn) then some fc
    else closest) none

/-- A slot behind `fc_purge`. -/
def Fatcache.purge (frcn : ℕ) (fc : Fatcache) : Fatcache :=
  if fc.frcn ≠ fceEmpty ∧ frcn ≤ fc.frcn then { fc with frcn := fceEmpty } else fc

/-- `fc_purge`. -/
def fcPurge (dep : Denode) (frcn : ℕ) : Denode :=
  { dep with lastmap := dep.lastmap.purge frcn, lastfc := dep.lastfc.purge frcn }

/-- What `pcbmap` returns: an error, the block number and the cluster number. -/
structure Mapped where
  error : Option Errno
  bn : Option ℕ
  cn : Option ℕ
  deriving DecidableEq

/-- The loop of `pcbmap`, with the cluster before the one that is reached. -/
def walk (entry : ℕ → ℕ) : ℕ → ℕ → ℕ → ℕ → ℕ × ℕ × ℕ
  | 0, i, cn, prevcn => (i, cn, prevcn)
  | n + 1, i, cn, prevcn =>
    if Pcfseof cn then (i, cn, prevcn) else walk entry n (i + 1) (entry cn) cn

/-- `pcbmap` behind the cache. -/
def mapFrom (V : Volume) (entry : ℕ → ℕ) (dep : Denode) (findcn i cn : ℕ) : Mapped × Denode :=
  let (i, cn, prevcn) := walk entry (findcn - i) i cn 0
  if Pcfseof cn then
    -- The place before `i`, as a number of 16 bits.
    (⟨some .E2BIG, none, some i⟩, { dep with lastfc := fcSetcache (i + 0xffff) prevcn })
  else (⟨none, some (V.cntobn cn), some cn⟩, { dep with lastmap := fcSetcache i cn })

/-- `pcbmap`. -/
def pcbmap (V : Volume) (entry : ℕ → ℕ) (dep : Denode) (findcn : ℕ) : Mapped × Denode :=
  if dep.startCluster = pcfsroot then
    if dep.directory then
      if V.rootdirsize < findcn * V.sectPerClust then
        (⟨some .E2BIG, none, some (V.rootdirsize / V.sectPerClust)⟩, dep)
      else (⟨none, some (V.rootdirblk + findcn * V.sectPerClust), some pcfsroot⟩, dep)
    else (⟨some .E2BIG, none, some 0⟩, dep)
  else
    match fcLookup dep findcn with
    | none => mapFrom V entry dep findcn 0 dep.startCluster
    | some fc => mapFrom V entry dep findcn fc.frcn fc.fsrcn

/-! ### Extending -/

/-- What functions return that change a file: the denode and the table besides the result. -/
abbrev Changed (R : Type) : Type := Except Errno R × Denode × Fat

/-- `extendfile` from the allocation on. The new cluster is returned with its place in the file. -/
def chainOn (V : Volume) (dep : Denode) (s : Fat) : Changed (Option (ℕ × ℕ)) :=
  match clusteralloc V clustEofe s with
  | .error e => (.error e, dep, s)
  | .ok (cn, s) =>
    if dep.startCluster = 0 then
      (.ok (some (0, cn)), { dep with startCluster := cn, lastfc := fcSetcache 0 cn }, s)
    else
      match fatentry V dep.lastfc.fsrcn cn s with
      | .error e =>
        match clusterfree V cn s with
        | .error _ => (.error e, dep, s)
        | .ok (_, s) => (.error e, dep, s)
      | .ok (_, s) =>
        (.ok (some (dep.lastfc.frcn + 1, cn)),
          { dep with lastfc := fcSetcache (dep.lastfc.frcn + 1) cn }, s)

/-- `extendfile`. If the last cluster is not known it is looked up, which is to fail with `E2BIG`.
-/
def extendfile (V : Volume) (dep : Denode) (s : Fat) : Changed (Option (ℕ × ℕ)) :=
  if dep.root then (.error .ENOSPC, dep, s)
  else if dep.lastfc.frcn = fceEmpty ∧ dep.startCluster ≠ 0 then
    match pcbmap V s.entry dep 0xffff with
    | (⟨none, _, _⟩, dep) => (.ok none, dep, s)
    | (⟨some .E2BIG, _, _⟩, dep) => chainOn V dep s
    | (⟨some e, _, _⟩, dep) => (.error e, dep, s)
  else chainOn V dep s

/-! ### Truncating -/

/-- The buffers of a file when it is truncated: whether the last block that stays is known by its
place on the disk, and the delayed writes of blocks that are not, in the order in which `vinvalbuf`
finds them. -/
structure Buffers where
  mapped : Bool
  dirty : List ℕ

/-- `vinvalbuf`, which writes what is dirty. -/
def vinvalbuf (V : Volume) (entry : ℕ → ℕ) (dirty : List ℕ) (dep : Denode) : Denode :=
  dirty.foldl (fun dep bn ↦ (pcbmap V entry dep bn).2) dep

/-- `detrunc` to a length other than zero before the chain is cut behind the cluster `eofentry`. -/
def trimmed (V : Volume) (length : ℕ) (b : Buffers) (entry : ℕ → ℕ) (dep : Denode) : Denode :=
  let dep := fcPurge dep ((length + (V.bpcluster - 1)) % 0x100000000 / V.bpcluster)
  let dep := if length % V.bpcluster ≠ 0 ∧ dep.directory = false ∧ b.mapped = false then
      (pcbmap V entry dep ((length - 1) / V.bpcluster)).2
    else dep
  vinvalbuf V entry b.dirty { dep with fileSize := length }

/-- The end of `detrunc`. -/
def freeRest (V : Volume) (chaintofree : ℕ) (s : Fat) : Fat :=
  if chaintofree ≠ 0 ∧ ¬Pcfseof chaintofree then
    (freeclusterchain V (V.maxcluster + 1) chaintofree s).2
  else s

/-- `detrunc`. -/
def detrunc (V : Volume) (length : ℕ) (b : Buffers) (dep : Denode) (s : Fat) : Changed Unit :=
  if dep.root then (.error .EINVAL, dep, s)
  else if dep.fileSize ≤ length then (.ok (), dep, s)
  else if length = 0 then
    (.ok (), fcPurge { dep with startCluster := 0, fileSize := 0 } 0, freeRest V dep.startCluster s)
  else
    match pcbmap V s.entry dep ((length - 1) / V.bpcluster) with
    | (⟨some e, _, _⟩, dep) => (.error e, dep, s)
    | (⟨none, _, none⟩, dep) => (.ok (), dep, s)
    | (⟨none, _, some eofentry⟩, dep) =>
      let dep := trimmed V length b s.entry dep
      match fatentry V eofentry clustEofe s with
      | .error e => (.error e, dep, s)
      | .ok (chaintofree, s) =>
        (.ok (), { dep with lastfc := fcSetcache ((length - 1) / V.bpcluster) eofentry },
          freeRest V chaintofree s)

end Bsd386.Dosfs

/-!
# Chains of files

What a denode says about the clusters of its file, and what `pcbmap` makes of it.
-/

namespace Bsd386.Dosfs

open Function

/-- The clusters of a file that starts at a cluster. -/
def FileChain (entry : ℕ → ℕ) (start : ℕ) (l : List ℕ) : Prop :=
  start = 0 ∧ l = [] ∨ start ≠ 0 ∧ l ≠ [] ∧ Chain entry Pcfseof start l

/-- A slot of the cache is empty or tells a cluster of the file. -/
def Fatcache.On (fc : Fatcache) (l : List ℕ) : Prop :=
  fc.frcn ≠ fceEmpty → l[fc.frcn]? = some fc.fsrcn

/-- The file of a denode has these clusters, and the cache knows some of them. -/
structure Holds (V : Volume) (entry : ℕ → ℕ) (dep : Denode) (l : List ℕ) : Prop where
  chain : FileChain entry dep.startCluster l
  has : ∀ c ∈ l, V.Has c
  nodup : l.Nodup
  lastmap : dep.lastmap.On l
  lastfc : dep.lastfc.On l
  last : dep.lastfc.frcn ≠ fceEmpty → dep.lastfc.frcn + 1 = l.length
  root : dep.root = true → dep.startCluster = 0 ∧ dep.directory = true

variable {V : Volume} {entry : ℕ → ℕ} {dep : Denode} {l : List ℕ} {n c : ℕ}

/-! ### Chains -/

theorem FileChain.eq_nil (h : FileChain entry 0 l) : l = [] :=
  h.elim (fun h ↦ h.2) fun h ↦ absurd rfl h.1

theorem FileChain.chain {start : ℕ} (h : FileChain entry start l) (hstart : start ≠ 0) :
    l ≠ [] ∧ Chain entry Pcfseof start l :=
  h.elim (fun h ↦ absurd h.1 hstart) fun h ↦ h.2

theorem FileChain.congr {start : ℕ} {entry' : ℕ → ℕ} (h : FileChain entry start l)
    (hentry : ∀ c ∈ l, entry' c = entry c) : FileChain entry' start l :=
  h.imp_right fun h ↦ ⟨h.1, h.2.1, h.2.2.congr hentry⟩

theorem FileChain.unique {start : ℕ} {l' : List ℕ} (h : FileChain entry start l)
    (h' : FileChain entry start l') (hl : ∀ c ∈ l, V.Has c) (hl' : ∀ c ∈ l', V.Has c) : l = l' := by
  rcases h with h | h
  · rw [h.1] at h'
    rw [h.2, h'.eq_nil]
  · exact h.2.2.unique (h'.chain h.1).2 (fun c hc ↦ (hl c hc).not_pcfseof) fun c hc ↦
      (hl' c hc).not_pcfseof

/-- A file has fewer clusters than there are numbers for them. -/
theorem length_lt (hhas : ∀ c ∈ l, V.Has c) (hnodup : l.Nodup) : l.length < clustRsrvs := by
  have hsub : l.toFinset ⊆ Finset.Icc clustFirst V.maxcluster := fun c hc ↦
    Finset.mem_Icc.mpr (hhas c (List.mem_toFinset.mp hc))
  have hcard := Finset.card_le_card hsub
  rw [List.toFinset_card_of_nodup hnodup, Nat.card_Icc] at hcard
  have hmax := V.maxcluster_lt
  have hfirst : clustFirst = 2 := rfl
  omega

/-- An entry of a chain is not free. -/
theorem Chain.ne_free {start : ℕ} (h : Chain entry Pcfseof start l) (hhas : ∀ c ∈ l, V.Has c)
    (hc : c ∈ l) :
    entry c ≠ pcfsfree :=
  (h.next_mem_or_isEnd hc).elim (fun hmem ↦ (hhas _ hmem).ne_free) ne_free_of_pcfseof

theorem Holds.ne_free (h : Holds V entry dep l) (hc : c ∈ l) : entry c ≠ pcfsfree := by
  rcases h.chain with hchain | hchain
  · rw [hchain.2] at hc
    exact absurd hc List.not_mem_nil
  · exact Chain.ne_free hchain.2.2 h.has hc

theorem Holds.congr {entry' : ℕ → ℕ} (h : Holds V entry dep l)
    (hentry : ∀ c ∈ l, entry' c = entry c) :
    Holds V entry' dep l :=
  ⟨h.chain.congr hentry, h.has, h.nodup, h.lastmap, h.lastfc, h.last, h.root⟩

theorem fcSetcache_eq {frcn fsrcn : ℕ} (h : frcn < 0x10000) (h' : fsrcn < 0x10000) :
    fcSetcache frcn fsrcn = ⟨frcn, fsrcn⟩ := by
  rw [fcSetcache, Nat.mod_eq_of_lt h, Nat.mod_eq_of_lt h']

theorem Volume.Has.lt_short (h : V.Has c) : c < 0x10000 := h.lt.trans (by decide)

theorem length_lt_short (hhas : ∀ c ∈ l, V.Has c) (hnodup : l.Nodup) : l.length < fceEmpty :=
  (length_lt hhas hnodup).trans (by decide)

/-! ### Mapping -/

/-- The loop of `pcbmap` goes along the chain, as far as it goes. -/
theorem walk_spec {cn : ℕ} (hchain : Chain entry Pcfseof cn l) (hhas : ∀ c ∈ l, V.Has c)
    (n i prevcn : ℕ) :
    (∀ c, l[n]? = some c → ∃ prevcn', walk entry n i cn prevcn = (i + n, c, prevcn')) ∧
      (l.length ≤ n → ∃ e, Pcfseof e ∧
        walk entry n i cn prevcn = (i + l.length, e, l.getLast?.getD prevcn)) := by
  induction l generalizing n i cn prevcn with
  | nil =>
    refine ⟨fun c hc ↦ absurd hc (by simp), fun _ ↦ ⟨cn, hchain, ?_⟩⟩
    cases n with
    | zero => rfl
    | succ n =>
      have heof : Pcfseof cn := hchain
      rw [walk, if_pos heof]
      rfl
  | cons b l ih =>
    obtain ⟨rfl, hrest⟩ := hchain
    cases n with
    | zero =>
      refine ⟨fun c hc ↦ ⟨prevcn, ?_⟩, fun hle ↦ absurd hle (Nat.not_succ_le_zero _)⟩
      rw [List.getElem?_cons_zero, Option.some.injEq] at hc
      rw [hc]
      rfl
    | succ n =>
      have hnot : ¬Pcfseof cn := (hhas cn (List.mem_cons_self ..)).not_pcfseof
      obtain ⟨hmapped, hbeyond⟩ := ih hrest (fun c hc ↦ hhas c (List.mem_cons_of_mem cn hc)) n
        (i + 1) cn
      rw [walk, if_neg hnot]
      refine ⟨fun c hc ↦ ?_, fun hle ↦ ?_⟩
      · rw [List.getElem?_cons_succ] at hc
        obtain ⟨prevcn', hwalk⟩ := hmapped c hc
        exact ⟨prevcn', by rw [hwalk, Nat.add_right_comm, Nat.add_assoc]⟩
      · rw [List.length_cons] at hle
        obtain ⟨e, he, hwalk⟩ := hbeyond (Nat.le_of_succ_le_succ hle)
        refine ⟨e, he, ?_⟩
        rw [hwalk, List.getLast?_cons, List.length_cons, Nat.add_right_comm, Nat.add_assoc]
        rfl

/-- From a place of the chain on `pcbmap` finds the cluster. -/
theorem mapFrom_mapped {i cn : ℕ} (hi : i ≤ n) (hat : Chain entry Pcfseof cn (l.drop i))
    (hhas : ∀ c ∈ l, V.Has c) (hnodup : l.Nodup) (hn : l[n]? = some c) :
    mapFrom V entry dep n i cn =
      (⟨none, some (V.cntobn c), some c⟩, { dep with lastmap := ⟨n, c⟩ }) := by
  have hc : V.Has c := hhas c (List.mem_of_getElem? hn)
  have hlt : n < l.length := (List.getElem?_eq_some_iff.mp hn).1
  have hdrop : (l.drop i)[n - i]? = some c := by
    rw [List.getElem?_drop, Nat.add_sub_cancel' hi]
    exact hn
  obtain ⟨prevcn, hwalk⟩ :=
    (walk_spec hat (fun c hc ↦ hhas c (List.mem_of_mem_drop hc)) (n - i) i 0).1 c hdrop
  rw [mapFrom, hwalk, Nat.add_sub_cancel' hi]
  dsimp only
  rw [if_neg hc.not_pcfseof, fcSetcache_eq (Nat.lt_succ_of_lt
    (hlt.trans (length_lt_short hhas hnodup))) hc.lt_short]

/-- From a place of the chain on `pcbmap` finds the end. -/
theorem mapFrom_beyond {i cn : ℕ} (hi : i < l.length) (hat : Chain entry Pcfseof cn (l.drop i))
    (hhas : ∀ c ∈ l, V.Has c) (hnodup : l.Nodup) (hn : l.length ≤ n) (hlast : l.getLast? = some c) :
    mapFrom V entry dep n i cn =
      (⟨some .E2BIG, none, some l.length⟩, { dep with lastfc := ⟨l.length - 1, c⟩ }) := by
  have hc : V.Has c := hhas c (List.mem_of_getLast? hlast)
  have hlt := length_lt_short hhas hnodup
  have hempty : fceEmpty = 0xffff := rfl
  obtain ⟨e, he, hwalk⟩ :=
    (walk_spec hat (fun c hc ↦ hhas c (List.mem_of_mem_drop hc)) (n - i) i 0).2
    (by rw [List.length_drop]; omega)
  rw [mapFrom, hwalk, List.length_drop, List.getLast?_drop, if_neg (Nat.not_le.mpr hi), hlast,
    Nat.add_sub_cancel' hi.le]
  dsimp only
  rw [if_pos he]
  have hset : fcSetcache (l.length + 0xffff) c = ⟨l.length - 1, c⟩ := by
    have hmod : (l.length + 0xffff) % 0x10000 = l.length - 1 := by omega
    rw [fcSetcache, Nat.mod_eq_of_lt hc.lt_short, hmod]
  rw [Option.getD_some, hset]

/-- What `fc_lookup` finds is a slot of the cache. -/
theorem fcLookup_eq_some {fc : Fatcache} (h : fcLookup dep n = some fc) :
    (fc = dep.lastmap ∨ fc = dep.lastfc) ∧ fc.frcn ≠ fceEmpty ∧ fc.frcn ≤ n := by
  rw [fcLookup] at h
  simp only [List.foldl_cons, List.foldl_nil] at h
  split_ifs at h with hlastmap hlastfc hlastfc
  · cases h
    exact ⟨.inr rfl, hlastfc.1, hlastfc.2.1⟩
  · cases h
    exact ⟨.inl rfl, hlastmap.1, hlastmap.2.1⟩
  · cases h
    exact ⟨.inr rfl, hlastfc.1, hlastfc.2.1⟩

/-- The search for a cluster begins at a place of the chain. -/
theorem Holds.pcbmap_eq (h : Holds V entry dep l) (hstart : dep.startCluster ≠ 0) (n : ℕ) :
    ∃ i cn, i ≤ n ∧ i < l.length ∧ Chain entry Pcfseof cn (l.drop i) ∧
      pcbmap V entry dep n = mapFrom V entry dep n i cn := by
  obtain ⟨hne, hchain⟩ := h.chain.chain hstart
  have hroot : dep.startCluster ≠ pcfsroot := hstart
  rw [pcbmap, if_neg hroot]
  cases hlookup : fcLookup dep n with
  | none => exact ⟨0, dep.startCluster, Nat.zero_le n, List.length_pos_of_ne_nil hne, hchain, rfl⟩
  | some fc =>
    obtain ⟨hslot, hempty, hle⟩ := fcLookup_eq_some hlookup
    have hon : l[fc.frcn]? = some fc.fsrcn := by
      rcases hslot with rfl | rfl
      · exact h.lastmap hempty
      · exact h.lastfc hempty
    obtain ⟨hlt, hget⟩ := List.getElem?_eq_some_iff.mp hon
    refine ⟨fc.frcn, fc.fsrcn, hle, hlt, ?_, rfl⟩
    have hsplit : l = l.take fc.frcn ++ fc.fsrcn :: l.drop (fc.frcn + 1) := by
      rw [← hget, ← List.drop_eq_getElem_cons hlt, List.take_append_drop]
    rw [List.drop_eq_getElem_cons hlt, hget]
    rw [hsplit] at hchain
    exact hchain.of_append

/-- A cluster of the file is mapped. -/
theorem Holds.pcbmap_mapped (h : Holds V entry dep l) (hn : l[n]? = some c) :
    pcbmap V entry dep n =
      (⟨none, some (V.cntobn c), some c⟩, { dep with lastmap := ⟨n, c⟩ }) := by
  have hstart : dep.startCluster ≠ 0 := fun hzero ↦ by
    have hchain := h.chain
    rw [hzero] at hchain
    rw [hchain.eq_nil] at hn
    cases hn
  obtain ⟨i, cn, hi, -, hat, hmap⟩ := h.pcbmap_eq hstart n
  rw [hmap]
  exact mapFrom_mapped hi hat h.has h.nodup hn

/-- Beyond the end of the file the number of its clusters is found. -/
theorem Holds.pcbmap_beyond (h : Holds V entry dep l) (hstart : dep.startCluster ≠ 0)
    (hn : l.length ≤ n) :
    ∃ c, l.getLast? = some c ∧ pcbmap V entry dep n =
      (⟨some .E2BIG, none, some l.length⟩, { dep with lastfc := ⟨l.length - 1, c⟩ }) := by
  obtain ⟨i, cn, -, hi, hat, hmap⟩ := h.pcbmap_eq hstart n
  obtain ⟨c, hlast⟩ : ∃ c, l.getLast? = some c :=
    Option.ne_none_iff_exists'.mp fun hnone ↦ (h.chain.chain hstart).1
      (List.getLast?_eq_none_iff.mp hnone)
  refine ⟨c, hlast, ?_⟩
  rw [hmap]
  exact mapFrom_beyond hi hat h.has h.nodup hn hlast

/-- The cache is filled with a place of the chain. -/
theorem Holds.setLastmap (h : Holds V entry dep l) (hn : l[n]? = some c) :
    Holds V entry { dep with lastmap := ⟨n, c⟩ } l :=
  ⟨h.chain, h.has, h.nodup, fun _ ↦ hn, h.lastfc, h.last, h.root⟩

/-- The cache is filled with the end of the chain. -/
theorem Holds.setLastfc (h : Holds V entry dep l) (hlast : l.getLast? = some c) :
    Holds V entry { dep with lastfc := ⟨l.length - 1, c⟩ } l := by
  have hget : l[l.length - 1]? = some c := by rw [← List.getLast?_eq_getElem?, hlast]
  have hpos : l.length ≠ 0 := fun hzero ↦ by
    rw [List.length_eq_zero_iff.mp hzero] at hlast
    cases hlast
  exact ⟨h.chain, h.has, h.nodup, h.lastmap, fun _ ↦ hget, fun _ ↦ Nat.succ_pred_eq_of_ne_zero hpos,
    h.root⟩

/-- Two denodes differ in their caches only. -/
structure SameFile (dep dep' : Denode) : Prop where
  startCluster : dep'.startCluster = dep.startCluster
  directory : dep'.directory = dep.directory
  root : dep'.root = dep.root

theorem SameFile.refl (dep : Denode) : SameFile dep dep := ⟨rfl, rfl, rfl⟩

theorem SameFile.trans {dep' dep'' : Denode} (h : SameFile dep dep') (h' : SameFile dep' dep'') :
    SameFile dep dep'' :=
  ⟨h'.startCluster.trans h.startCluster, h'.directory.trans h.directory, h'.root.trans h.root⟩

/-- `pcbmap` keeps what a denode knows. -/
theorem Holds.pcbmap (h : Holds V entry dep l) (n : ℕ) :
    Holds V entry (pcbmap V entry dep n).2 l ∧ SameFile dep (pcbmap V entry dep n).2 := by
  by_cases hstart : dep.startCluster = pcfsroot
  · have hsame : (Dosfs.pcbmap V entry dep n).2 = dep := by
      rw [Dosfs.pcbmap, if_pos hstart]
      split_ifs <;> rfl
    rw [hsame]
    exact ⟨h, SameFile.refl dep⟩
  · rcases Nat.lt_or_ge n l.length with hlt | hge
    · have hn : l[n]? = some (l.get ⟨n, hlt⟩) := List.getElem?_eq_getElem hlt
      rw [h.pcbmap_mapped hn]
      exact ⟨h.setLastmap hn, ⟨rfl, rfl, rfl⟩⟩
    · obtain ⟨c, hlast, hmap⟩ := h.pcbmap_beyond hstart hge
      rw [hmap]
      exact ⟨h.setLastfc hlast, ⟨rfl, rfl, rfl⟩⟩

end Bsd386.Dosfs
