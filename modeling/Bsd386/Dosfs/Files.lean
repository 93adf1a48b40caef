import Bsd386.Dosfs.Denode

/-!
# Extending and truncating files

What `extendfile` and `detrunc` do to the chain of a file, its cache and the table. Truncation
leaves a cache that is right unless the last delayed write that `vinvalbuf` finds is one of a block
behind the new end.
-/

namespace Bsd386.Dosfs

open Function

variable {V : Volume} {s s' : Fat} {dep dep' : Denode} {l l' : List ℕ} {n c cn : ℕ}

/-- A function has changed a file and nothing else. -/
structure Changes (V : Volume) (s s' : Fat) (dep dep' : Denode) (l l' : List ℕ) : Prop where
  accounts : Accounts V s'
  holds : Holds V s'.entry dep' l'
  frame : ∀ c, c ∉ l → c ∉ l' → s'.entry c = s.entry c
  mem : ∀ c ∈ l', c ∈ l ∨ c ∈ free V s
  directory : dep'.directory = dep.directory
  root : dep'.root = dep.root

/-- A function that leaves the table and the chain alone. -/
theorem Changes.of_sameFile (haccounts : Accounts V s) (h : Holds V s.entry dep' l)
    (hsame : SameFile dep dep') :
    Changes V s s dep dep' l l :=
  ⟨haccounts, h, fun _ _ _ ↦ rfl, fun _ hc ↦ .inl hc, hsame.directory, hsame.root⟩

/-! ### Extending -/

/-- A cluster that ends a chain of its own is chained behind the last one. -/
theorem Holds.concat {entry : ℕ → ℕ} (h : Holds V entry dep l) (hstart : dep.startCluster ≠ 0)
    (hcn : V.Has cn)
    (hnot : cn ∉ l) (heof : Pcfseof (entry cn)) (hlast : l.getLast? = some c) :
    Holds V (update entry c cn) { dep with lastfc := ⟨l.length, cn⟩ } (l ++ [cn]) := by
  obtain ⟨hne, hchain⟩ := h.chain.chain hstart
  obtain ⟨m, hm⟩ : ∃ m, l = m ++ [c] := List.getLast?_eq_some_iff.mp hlast
  refine ⟨.inr ⟨hstart, List.append_ne_nil_of_right_ne_nil l (List.cons_ne_nil cn []), ?_⟩, ?_, ?_,
    ?_, ?_, ?_,
    h.root⟩
  · have hnodup := h.nodup
    rw [hm] at hchain hnot hnodup ⊢
    exact hchain.concat (fun hc ↦ List.nodup_append.mp hnodup |>.2.2 c hc c
      (List.mem_singleton_self c) rfl)
      hnot heof
  · intro d hd
    rcases List.mem_append.mp hd with hd | hd
    · exact h.has d hd
    · rw [List.mem_singleton.mp hd]
      exact hcn
  · rw [← List.concat_eq_append]
    exact h.nodup.concat hnot
  · intro hempty
    have hon := h.lastmap hempty
    rw [List.getElem?_append_left (List.getElem?_eq_some_iff.mp hon).1]
    exact hon
  · intro _
    exact List.getElem?_concat_length
  · intro _
    rw [List.length_append, List.length_singleton]

/-- A file without clusters gets its first one. What the cache says about the last cluster fits it.
-/
theorem Holds.first {entry entry' : ℕ → ℕ} {fc : Fatcache} (h : Holds V entry dep [])
    (hroot : dep.root = false)
    (hcn : V.Has cn) (heof : Pcfseof (entry' cn)) (hfc : fc.frcn ≠ fceEmpty → fc = ⟨0, cn⟩) :
    Holds V entry' { dep with startCluster := cn, lastfc := fc } [cn] := by
  refine ⟨.inr ⟨hcn.ne_free, List.cons_ne_nil cn [], rfl, heof⟩, ?_, List.nodup_singleton cn, ?_,
    ?_, ?_,
    fun h ↦ absurd (hroot.symm.trans h) (by decide)⟩
  · intro d hd
    rw [List.mem_singleton.mp hd]
    exact hcn
  · intro hempty
    have hon := h.lastmap hempty
    rw [List.getElem?_nil] at hon
    cases hon
  · intro hempty
    change [cn][fc.frcn]? = some fc.fsrcn
    rw [hfc hempty]
    rfl
  · intro hempty
    change fc.frcn + 1 = 1
    rw [hfc hempty]

theorem Holds.lastfc_empty {entry : ℕ → ℕ} (h : Holds V entry dep []) :
    dep.lastfc.frcn = fceEmpty := by
  by_contra hempty
  have hlast := h.last hempty
  cases hlast

/-- `extendfile` when the last cluster of the file is known. -/
theorem chainOn_spec (haccounts : Accounts V s) (h : Holds V s.entry dep l)
    (hroot : dep.root = false)
    (hknown : dep.startCluster ≠ 0 → dep.lastfc.frcn ≠ fceEmpty) :
    chainOn V dep s = (.error .ENOSPC, dep, s) ∧ free V s = ∅ ∨
      ∃ cn dep' s', chainOn V dep s = (.ok (some (l.length, cn)), dep', s') ∧
        cn ∈ free V s ∧ (∀ d ∈ free V s, cn ≤ d) ∧ Changes V s s' dep dep' l (l ++ [cn]) := by
  rw [chainOn]
  rcases clusteralloc_spec haccounts (by decide : clustEofe ≠ pcfsfree) with ⟨halloc, hnone⟩ | hsome
  · rw [halloc]
    exact .inl ⟨rfl, hnone⟩
  obtain ⟨cn, s₁, halloc, hcn, hleast, hentry, haccounts₁⟩ := hsome
  have hhas := (mem_free.mp hcn).1
  have hmem : ∀ d ∈ l ++ [cn], d ∈ l ∨ d ∈ free V s := by
    intro d hd
    rcases List.mem_append.mp hd with hd | hd
    · exact .inl hd
    · rw [List.mem_singleton.mp hd]
      exact .inr hcn
  refine .inr ?_
  rw [halloc]
  dsimp only
  by_cases hstart : dep.startCluster = 0
  · have hchain := h.chain
    rw [hstart] at hchain
    have hnil := hchain.eq_nil
    subst hnil
    rw [if_pos hstart, fcSetcache_eq (by decide) hhas.lt_short]
    refine ⟨cn, _, s₁, rfl, hcn, hleast, haccounts₁, ?_, fun d _ hd ↦ ?_, hmem, rfl, rfl⟩
    · refine h.first hroot hhas ?_ fun _ ↦ rfl
      rw [hentry, update_self]
      exact pcfseof_clustEofe
    · rw [hentry, update_of_ne fun hdc ↦ hd (List.mem_singleton.mpr hdc)]
  · have hon := h.lastfc (hknown hstart)
    have hlen := h.last (hknown hstart)
    have hlast : l.getLast? = some dep.lastfc.fsrcn := by
      rw [List.getLast?_eq_getElem?, ← hlen, Nat.add_sub_cancel]
      exact hon
    have hmemLast : dep.lastfc.fsrcn ∈ l := List.mem_of_getElem? hon
    have huse : s₁.entry dep.lastfc.fsrcn ≠ pcfsfree := by
      rw [hentry]
      by_cases hd : dep.lastfc.fsrcn = cn
      · rw [hd, update_self]
        decide
      · rw [update_of_ne hd]
        exact h.ne_free hmemLast
    have hshort : l.length < 0x10000 := Nat.lt_succ_of_lt (length_lt_short h.has h.nodup)
    rw [if_neg hstart, fatentry, if_pos (h.has _ hmemLast)]
    dsimp only
    rw [hlen, fcSetcache_eq hshort hhas.lt_short]
    refine ⟨cn, _, _, rfl, hcn, hleast, haccounts₁.set huse hhas.ne_free, ?_, fun d hd hd' ↦ ?_,
      hmem, rfl, rfl⟩
    · have hnot : cn ∉ l := fun hmem ↦ h.ne_free hmem (mem_free.mp hcn).2
      have hkept : Holds V s₁.entry dep l := h.congr fun d hd ↦ by
        rw [hentry, update_of_ne fun hdc : d = cn ↦ hnot (hdc ▸ hd)]
      refine hkept.concat hstart hhas hnot ?_ hlast
      rw [hentry, update_self]
      exact pcfseof_clustEofe
    · change update s₁.entry dep.lastfc.fsrcn cn d = s.entry d
      have hne : d ≠ cn := fun hdc ↦ hd' (List.mem_append_right l (List.mem_singleton.mpr hdc))
      rw [update_of_ne fun hdc : d = _ ↦ hd (hdc ▸ hmemLast), hentry, update_of_ne hne]

/-- What `extendfile` does: it fails where no cluster is free, and else chains a cluster to the
file. -/
theorem extendfile_spec (haccounts : Accounts V s) (h : Holds V s.entry dep l)
    (hroot : dep.root = false) :
    (∃ dep', extendfile V dep s = (.error .ENOSPC, dep', s) ∧ free V s = ∅ ∧
        Changes V s s dep dep' l l) ∨
      ∃ cn dep' s', extendfile V dep s = (.ok (some (l.length, cn)), dep', s') ∧
        cn ∈ free V s ∧ (∀ d ∈ free V s, cn ≤ d) ∧ Changes V s s' dep dep' l (l ++ [cn]) := by
  have hnot : ¬dep.root = true := fun htrue ↦ absurd (hroot.symm.trans htrue) (by decide)
  rw [extendfile, if_neg hnot]
  by_cases hlookup : dep.lastfc.frcn = fceEmpty ∧ dep.startCluster ≠ 0
  · have hbeyond : l.length ≤ 0xffff := (length_lt_short h.has h.nodup).le
    obtain ⟨c, hlast, hmap⟩ := h.pcbmap_beyond hlookup.2 hbeyond
    have hholds := h.setLastfc hlast
    rw [if_pos hlookup, hmap]
    dsimp only
    have hknown : l.length - 1 ≠ fceEmpty :=
      Nat.ne_of_lt ((Nat.sub_le l.length 1).trans_lt (length_lt_short h.has h.nodup))
    rcases chainOn_spec haccounts hholds hroot fun _ ↦ hknown with ⟨hrun, hnone⟩ | hsome
    · exact .inl ⟨_, hrun, hnone, .of_sameFile haccounts hholds ⟨rfl, rfl, rfl⟩⟩
    · obtain ⟨cn, dep', s', hrun, hcn, hleast, hch⟩ := hsome
      exact .inr ⟨cn, dep', s', hrun, hcn, hleast, hch.accounts, hch.holds, hch.frame, hch.mem,
        hch.directory, hch.root⟩
  · rw [if_neg hlookup]
    rcases chainOn_spec haccounts h hroot fun hstart hempty ↦ hlookup ⟨hempty, hstart⟩ with
      ⟨hrun, hnone⟩ | hsome
    · exact .inl ⟨dep, hrun, hnone, .of_sameFile haccounts h (SameFile.refl dep)⟩
    · exact .inr hsome

/-! ### Truncating -/

/-- `fc_purge` keeps what is before a place. -/
theorem Fatcache.purge_on {fc : Fatcache} (h : fc.On l) (p : ℕ) :
    (fc.purge p).On l ∧ ((fc.purge p).frcn ≠ fceEmpty → (fc.purge p).frcn < p ∧
      fc.purge p = fc) := by
  rw [Fatcache.purge]
  split_ifs with hpurge
  · exact ⟨fun hempty ↦ absurd rfl hempty, fun hempty ↦ absurd rfl hempty⟩
  · exact ⟨h, fun hempty ↦ ⟨Nat.lt_of_not_le fun hle ↦ hpurge ⟨hempty, hle⟩, rfl⟩⟩

theorem Holds.fcPurge {entry : ℕ → ℕ} (h : Holds V entry dep l) (p : ℕ) :
    Holds V entry (fcPurge dep p) l := by
  refine ⟨h.chain, h.has, h.nodup, (Fatcache.purge_on h.lastmap p).1,
    (Fatcache.purge_on h.lastfc p).1, ?_,
    h.root⟩
  intro hempty
  have hsame := ((Fatcache.purge_on h.lastfc p).2 hempty).2
  change (dep.lastfc.purge p).frcn + 1 = l.length
  change (dep.lastfc.purge p).frcn ≠ fceEmpty at hempty
  rw [hsame] at hempty ⊢
  exact h.last hempty

/-- The last mapping is before a place of the file. -/
def Before (dep : Denode) (k : ℕ) : Prop := dep.lastmap.frcn ≠ fceEmpty → dep.lastmap.frcn < k

/-- `vinvalbuf` keeps what a denode knows. -/
theorem Holds.vinvalbuf {entry : ℕ → ℕ} (h : Holds V entry dep l) (dirty : List ℕ) :
    Holds V entry (vinvalbuf V entry dirty dep) l ∧ SameFile dep (vinvalbuf V entry dirty dep) := by
  induction dirty generalizing dep with
  | nil => exact ⟨h, SameFile.refl dep⟩
  | cons bn dirty ih =>
    obtain ⟨hholds, hsame⟩ := ih (h.pcbmap bn).1
    exact ⟨hholds, (h.pcbmap bn).2.trans hsame⟩

/-- `vinvalbuf` leaves the mapping of the last block that it writes. -/
theorem Holds.vinvalbuf_before {entry : ℕ → ℕ} {dirty : List ℕ} {k : ℕ} (h : Holds V entry dep l)
    (hblocks : ∀ bn ∈ dirty, bn < l.length) (hbefore : dirty = [] → Before dep k)
    (hlast : ∀ bn ∈ dirty.getLast?, bn < k) : Before (Dosfs.vinvalbuf V entry dirty dep) k := by
  induction dirty generalizing dep with
  | nil => exact hbefore rfl
  | cons bn dirty ih =>
    have hmap := h.pcbmap_mapped (List.getElem?_eq_getElem (hblocks bn (List.mem_cons_self ..)))
    have hlastmap : dirty = [] → Before (Dosfs.pcbmap V entry dep bn).2 k := by
      intro hnil _
      rw [hmap]
      rw [hnil] at hlast
      exact hlast bn rfl
    refine ih (h.pcbmap bn).1 (fun b hb ↦ hblocks b (List.mem_cons_of_mem bn hb)) hlastmap
      fun b hb ↦ hlast b ?_
    rw [Option.mem_def] at hb ⊢
    rw [List.getLast?_cons, hb]
    rfl

/-- The denode between `fc_purge` and `vinvalbuf` of `detrunc`. -/
def purged (V : Volume) (length : ℕ) (b : Buffers) (entry : ℕ → ℕ) (dep : Denode) : Denode :=
  let dep := fcPurge dep ((length + (V.bpcluster - 1)) % 0x100000000 / V.bpcluster)
  if length % V.bpcluster ≠ 0 ∧ dep.directory = false ∧ b.mapped = false then
    (pcbmap V entry dep ((length - 1) / V.bpcluster)).2
  else dep

theorem Holds.purged {entry : ℕ → ℕ} (h : Holds V entry dep l) (length : ℕ) (b : Buffers) :
    Holds V entry (purged V length b entry dep) l ∧ SameFile dep (purged V length b entry dep) := by
  rw [Dosfs.purged]
  split_ifs
  · obtain ⟨hholds, hsame⟩ := (h.fcPurge _).pcbmap ((length - 1) / V.bpcluster)
    exact ⟨hholds, ⟨hsame.startCluster, hsame.directory, hsame.root⟩⟩
  · exact ⟨h.fcPurge _, ⟨rfl, rfl, rfl⟩⟩

/-- `fc_purge` leaves nothing behind the new end, whether its argument overflows or not. -/
theorem Holds.purged_before {entry : ℕ → ℕ} {length : ℕ} (h : Holds V entry dep l)
    (hlength : length ≠ 0)
    (hend : (length - 1) / V.bpcluster < l.length) (b : Buffers) :
    Before (Dosfs.purged V length b entry dep) ((length - 1) / V.bpcluster + 1) := by
  have hle : (length + (V.bpcluster - 1)) % 0x100000000 / V.bpcluster ≤
      (length - 1) / V.bpcluster + 1 := by
    refine (Nat.div_le_div_right (Nat.mod_le _ _)).trans ?_
    have hpos := V.bpcluster_pos
    have hsum : length + (V.bpcluster - 1) = length - 1 + V.bpcluster := by omega
    rw [hsum, Nat.add_div_right _ hpos]
  rw [Dosfs.purged]
  split_ifs
  · rw [(h.fcPurge _).pcbmap_mapped (List.getElem?_eq_getElem hend)]
    exact fun _ ↦ Nat.lt_succ_self _
  · exact fun hempty ↦ ((Fatcache.purge_on h.lastmap _).2 hempty).1.trans_le hle

theorem trimmed_eq {entry : ℕ → ℕ} {length : ℕ} {b : Buffers} : trimmed V length b entry dep =
    vinvalbuf V entry b.dirty { purged V length b entry dep with fileSize := length } := rfl

theorem Holds.setSize {entry : ℕ → ℕ} (h : Holds V entry dep l) (length : ℕ) :
    Holds V entry { dep with fileSize := length } l :=
  ⟨h.chain, h.has, h.nodup, h.lastmap, h.lastfc, h.last, h.root⟩

/-- What the denode knows before the chain is cut. -/
theorem Holds.trimmed {entry : ℕ → ℕ} (h : Holds V entry dep l) (length : ℕ) (b : Buffers) :
    Holds V entry (trimmed V length b entry dep) l ∧
    SameFile dep (trimmed V length b entry dep) := by
  rw [trimmed_eq]
  obtain ⟨hholds, hsame⟩ := h.purged length b
  obtain ⟨hfinal, hsame'⟩ := (hholds.setSize length).vinvalbuf b.dirty
  exact ⟨hfinal, hsame.trans ⟨hsame'.startCluster, hsame'.directory, hsame'.root⟩⟩

/-- Nothing behind the new end is in the cache before the chain is cut. -/
theorem Holds.trimmed_before {entry : ℕ → ℕ} {length : ℕ} {b : Buffers} (h : Holds V entry dep l)
    (hlength : length ≠ 0) (hend : (length - 1) / V.bpcluster < l.length)
    (hblocks : ∀ bn ∈ b.dirty, bn < l.length)
    (hlast : ∀ bn ∈ b.dirty.getLast?, bn < (length - 1) / V.bpcluster + 1) :
    Before (Dosfs.trimmed V length b entry dep) ((length - 1) / V.bpcluster + 1) := by
  rw [trimmed_eq]
  have hbefore := h.purged_before hlength hend b
  exact ((h.purged length b).1.setSize length).vinvalbuf_before hblocks (fun _ ↦ hbefore) hlast

/-- The end of `detrunc` frees the rest of the chain. -/
theorem freeRest_spec {start : ℕ} (h : Accounts V s)
    (hchain : start = 0 ∧ l = [] ∨ Chain s.entry Pcfseof start l)
    (hhas : ∀ c ∈ l, V.Has c) (hnodup : l.Nodup) :
    (∀ c, (freeRest V start s).entry c = if c ∈ l then pcfsfree else s.entry c) ∧
      Accounts V (freeRest V start s) := by
  have hnothing : l = [] → ∀ c, s.entry c = if c ∈ l then pcfsfree else s.entry c := by
    rintro rfl c
    rw [if_neg List.not_mem_nil]
  rw [freeRest]
  split_ifs with hrest
  · have hchain := hchain.resolve_left fun hzero ↦ hrest.1 hzero.1
    have hlen : l.length < V.maxcluster + 1 := by
      have hsub : l.toFinset ⊆ Finset.Icc clustFirst V.maxcluster := fun c hc ↦
        Finset.mem_Icc.mpr (hhas c (List.mem_toFinset.mp hc))
      have hcard := Finset.card_le_card hsub
      rw [List.toFinset_card_of_nodup hnodup, Nat.card_Icc] at hcard
      have hfirst : clustFirst = 2 := rfl
      omega
    obtain ⟨s', hrun, hentry, haccounts⟩ := freeclusterchain_spec h hchain hhas hnodup hlen
    rw [hrun]
    exact ⟨hentry, haccounts⟩
  · refine ⟨hnothing ?_, h⟩
    rcases hchain with hzero | hchain
    · exact hzero.2
    · cases l with
      | nil => rfl
      | cons d l =>
        have hd := hhas d (List.mem_cons_self ..)
        rw [hchain.1] at hrest
        exact absurd ⟨hd.ne_free, hd.not_pcfseof⟩ hrest

/-- The chain of a file that is cut behind a cluster. -/
theorem Holds.cut {k : ℕ} (h : Holds V s.entry dep l) (hk : l[k]? = some c)
    (hbefore : Before dep (k + 1)) :
    Holds V (update s.entry c clustEofe) { dep with lastfc := ⟨k, c⟩ } (l.take (k + 1)) := by
  have hstart : dep.startCluster ≠ 0 := fun hzero ↦ by
    have hchain := h.chain
    rw [hzero] at hchain
    rw [hchain.eq_nil] at hk
    cases hk
  obtain ⟨hlt, hget⟩ := List.getElem?_eq_some_iff.mp hk
  have htake : l.take (k + 1) = l.take k ++ [c] := by rw [List.take_add_one, hk, Option.toList_some]
  have hsplit : l = l.take k ++ c :: l.drop (k + 1) := by
    rw [← hget, ← List.drop_eq_getElem_cons hlt, List.take_append_drop]
  have hnot : c ∉ l.take k := by
    have hnodup := h.nodup
    rw [hsplit] at hnodup
    exact fun hmem ↦ (List.nodup_append.mp hnodup).2.2 c hmem c (List.mem_cons_self ..) rfl
  have hchain := (h.chain.chain hstart).2
  rw [hsplit] at hchain
  refine ⟨.inr ⟨hstart, ?_, ?_⟩, fun d hd ↦ h.has d (List.mem_of_mem_take hd), h.nodup.take, ?_, ?_,
    ?_, h.root⟩
  · rw [htake]
    exact List.append_ne_nil_of_right_ne_nil _ (List.cons_ne_nil c [])
  · rw [htake]
    exact hchain.cut hnot pcfseof_clustEofe
  · intro hempty
    rw [List.getElem?_take_of_lt (hbefore hempty)]
    exact h.lastmap hempty
  · intro _
    rw [List.getElem?_take_of_lt (Nat.lt_succ_self k)]
    exact hk
  · intro _
    rw [List.length_take, Nat.min_eq_left hlt]

/-- A function leaves a beginning of the chain of a file and frees the rest. -/
def Truncates (V : Volume) (s s' : Fat) (dep dep' : Denode) (l : List ℕ) : Prop :=
  ∃ k, Changes V s s' dep dep' l (l.take k) ∧ ∀ c ∈ l.drop k, c ∈ free V s'

theorem Truncates.of_sameFile (haccounts : Accounts V s) (h : Holds V s.entry dep' l)
    (hsame : SameFile dep dep') : Truncates V s s dep dep' l := by
  refine ⟨l.length, ?_, fun c hc ↦ ?_⟩
  · rw [List.take_length]
    exact .of_sameFile haccounts h hsame
  · rw [List.drop_length] at hc
    exact absurd hc List.not_mem_nil

/-- A file without clusters whose cache is purged. -/
theorem Holds.purge_all {entry : ℕ → ℕ} {dep : Denode} (hstart : dep.startCluster = 0)
    (hroot : dep.root ≠ true) : Holds V entry (Dosfs.fcPurge dep 0) [] := by
  have hfresh : ∀ fc : Fatcache, (fc.purge 0).frcn = fceEmpty := by
    intro fc
    rw [Fatcache.purge]
    split_ifs with hpurge
    · rfl
    · by_contra hempty
      exact hpurge ⟨hempty, Nat.zero_le _⟩
  exact ⟨.inl ⟨hstart, rfl⟩, fun c hc ↦ absurd hc List.not_mem_nil, List.nodup_nil,
    fun hempty ↦ absurd (hfresh dep.lastmap) hempty, fun hempty ↦ absurd (hfresh dep.lastfc) hempty,
    fun hempty ↦ absurd (hfresh dep.lastfc) hempty, fun htrue ↦ absurd htrue hroot⟩

/-- The file is truncated to nothing. -/
theorem Holds.truncate_all (h : Holds V s.entry dep l) (haccounts : Accounts V s)
    (hroot : dep.root ≠ true) :
    Truncates V s (freeRest V dep.startCluster s) dep
      (Dosfs.fcPurge { dep with startCluster := 0, fileSize := 0 } 0) l := by
  have hchain : dep.startCluster = 0 ∧ l = [] ∨ Chain s.entry Pcfseof dep.startCluster l :=
    h.chain.imp_right fun hchain ↦ hchain.2.2
  obtain ⟨hentry, haccounts'⟩ := freeRest_spec haccounts hchain h.has h.nodup
  refine ⟨0, ⟨haccounts', Holds.purge_all rfl hroot, fun c hc _ ↦ ?_,
    fun c hc ↦ absurd hc List.not_mem_nil, rfl, rfl⟩, fun c hc ↦ ?_⟩
  · rw [hentry, if_neg hc]
  · rw [List.drop_zero] at hc
    rw [mem_free, hentry, if_pos hc]
    exact ⟨h.has c hc, rfl⟩

/-- The chain is cut and the rest freed. -/
theorem Holds.truncate_behind {k : ℕ} (h : Holds V s.entry dep l) (haccounts : Accounts V s)
    (hk : l[k]? = some c)
    (hbefore : Before dep (k + 1)) :
    Truncates V s (freeRest V (s.entry c) { s with entry := update s.entry c clustEofe }) dep
      { dep with lastfc := ⟨k, c⟩ } l := by
  obtain ⟨hlt, hget⟩ := List.getElem?_eq_some_iff.mp hk
  have hmem : c ∈ l := List.mem_of_getElem? hk
  have hsplit : l = l.take k ++ c :: l.drop (k + 1) := by
    rw [← hget, ← List.drop_eq_getElem_cons hlt, List.take_append_drop]
  have hrest : (c :: l.drop (k + 1)).Nodup := by
    have hnodup := h.nodup
    rw [hsplit] at hnodup
    exact (List.nodup_append.mp hnodup).2.1
  have hchain := h.chain.chain fun hzero ↦ by
    have hchain := h.chain
    rw [hzero] at hchain
    rw [hchain.eq_nil] at hmem
    exact absurd hmem List.not_mem_nil
  have hchain := hchain.2
  rw [hsplit] at hchain
  have huse : s.entry c ≠ pcfsfree := h.ne_free hmem
  have heof : clustEofe ≠ pcfsfree := by decide
  obtain ⟨hentry, haccounts'⟩ := freeRest_spec (haccounts.set huse heof)
    (.inr (hchain.next_of_append.update (List.nodup_cons.mp hrest).1))
    (fun d hd ↦ h.has d (List.mem_of_mem_drop hd)) (List.nodup_cons.mp hrest).2
  have hdisj : ∀ d ∈ l.take (k + 1), d ∉ l.drop (k + 1) := fun d hd hd' ↦ by
    have hall := h.nodup
    rw [← List.take_append_drop (k + 1) l] at hall
    exact (List.nodup_append.mp hall).2.2 d hd d hd' rfl
  refine ⟨k + 1, ⟨haccounts', ?_, fun d hd _ ↦ ?_, fun d hd ↦ .inl (List.mem_of_mem_take hd),
    rfl, rfl⟩,
    fun d hd ↦ ?_⟩
  · refine (h.cut hk hbefore).congr fun d hd ↦ ?_
    rw [hentry, if_neg (hdisj d hd)]
  · rw [hentry, if_neg fun hin ↦ hd (List.mem_of_mem_drop hin)]
    exact update_of_ne (fun hdc : d = c ↦ hd (hdc ▸ hmem)) _ _
  · rw [mem_free, hentry, if_pos hd]
    exact ⟨h.has d (List.mem_of_mem_drop hd), rfl⟩

theorem Truncates.trans_sameFile {dep₁ : Denode} (hsame : SameFile dep dep₁)
    (h : Truncates V s s' dep₁ dep' l) : Truncates V s s' dep dep' l := by
  obtain ⟨k, hch, hrest⟩ := h
  exact ⟨k, ⟨hch.accounts, hch.holds, hch.frame, hch.mem, hch.directory.trans hsame.directory,
    hch.root.trans hsame.root⟩, hrest⟩

/-- What `detrunc` does: it leaves a beginning of the chain and frees the rest. -/
theorem detrunc_spec {length : ℕ} {b : Buffers} (haccounts : Accounts V s)
    (h : Holds V s.entry dep l)
    (hblocks : ∀ bn ∈ b.dirty, bn < l.length)
    (hlast : length ≠ 0 → length < dep.fileSize →
      ∀ bn ∈ b.dirty.getLast?, bn < (length - 1) / V.bpcluster + 1) :
    Truncates V s (detrunc V length b dep s).2.2 dep (detrunc V length b dep s).2.1 l := by
  rw [detrunc]
  by_cases hroot : dep.root = true
  · rw [if_pos hroot]
    exact .of_sameFile haccounts h (SameFile.refl dep)
  rw [if_neg hroot]
  by_cases hsize : dep.fileSize ≤ length
  · rw [if_pos hsize]
    exact .of_sameFile haccounts h (SameFile.refl dep)
  rw [if_neg hsize]
  by_cases hlength : length = 0
  · rw [if_pos hlength]
    exact h.truncate_all haccounts hroot
  rw [if_neg hlength]
  have hlast := hlast hlength (Nat.lt_of_not_le hsize)
  obtain ⟨hholds, hsame⟩ := h.pcbmap ((length - 1) / V.bpcluster)
  by_cases hstart : dep.startCluster = pcfsroot
  · -- A file without clusters, or a removed directory, which `pcbmap` takes for the root directory.
    rw [pcbmap, if_pos hstart]
    split_ifs
    · exact .of_sameFile haccounts h (SameFile.refl dep)
    · have hnot : ¬V.Has pcfsroot := fun hhas ↦ absurd hhas.1 (by decide)
      dsimp only
      rw [fatentry, if_neg hnot]
      obtain ⟨htrim, hsame'⟩ := h.trimmed length b
      exact .of_sameFile haccounts htrim hsame'
    · exact .of_sameFile haccounts h (SameFile.refl dep)
  rcases Nat.lt_or_ge ((length - 1) / V.bpcluster) l.length with hlt | hge
  · obtain ⟨c, hc⟩ : ∃ c, l[(length - 1) / V.bpcluster]? = some c :=
      ⟨_, List.getElem?_eq_getElem hlt⟩
    have hmapped := h.setLastmap hc
    have hhas : V.Has c := h.has c (List.mem_of_getElem? hc)
    have hshort : (length - 1) / V.bpcluster < 0x10000 :=
      Nat.lt_succ_of_lt (hlt.trans (length_lt_short h.has h.nodup))
    rw [h.pcbmap_mapped hc]
    dsimp only
    rw [fatentry, if_pos hhas]
    dsimp only
    rw [fcSetcache_eq hshort hhas.lt_short]
    obtain ⟨htrim, hsame'⟩ := hmapped.trimmed length b
    have hbefore := hmapped.trimmed_before hlength hlt hblocks hlast
    have hsame' : SameFile dep _ := ⟨hsame'.startCluster, hsame'.directory, hsame'.root⟩
    exact (htrim.truncate_behind haccounts hc hbefore).trans_sameFile hsame'
  · obtain ⟨c, hlast', hmap⟩ := h.pcbmap_beyond hstart hge
    rw [hmap]
    exact .of_sameFile haccounts (h.setLastfc hlast') ⟨rfl, rfl, rfl⟩

end Bsd386.Dosfs
