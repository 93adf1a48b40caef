import Mathlib.Data.Finset.Card
import Mathlib.Order.Interval.Finset.Nat
import Bsd386.Lib.Bitmap
import Bsd386.Lib.Chains

/-!
# The file allocation table

The table of clusters of a DOS volume with its bitmap, its count of free clusters and the hint where
to look for one, of `dosfs/dosfs_fat.c`. Entries are numbers of 16 bits, as `fatentry` gives them,
and `fatentry` changes the one entry it is given.
-/

namespace Bsd386.Dosfs

open Function

/-! ### Cluster numbers -/

/-- `PCFSROOT`. -/
def pcfsroot : ℕ := 0

/-- `PCFSFREE`. -/
def pcfsfree : ℕ := 0

/-- `CLUST_FIRST`. -/
def clustFirst : ℕ := 2

/-- `CLUST_RSRVS`, where the reserved numbers begin. -/
def clustRsrvs : ℕ := 0xfff0

/-- `CLUST_EOFE`. -/
def clustEofe : ℕ := 0xffff

/-- `PCFSEOF`. -/
def Pcfseof (cn : ℕ) : Prop := cn &&& 0xfff8 = 0xfff8

instance : DecidablePred Pcfseof := fun cn ↦ inferInstanceAs (Decidable (cn &&& 0xfff8 = 0xfff8))

/-- Error numbers. -/
inductive Errno
  | EINVAL
  | ENOSPC
  | E2BIG
  deriving DecidableEq

/-- What the mount structure says about a volume. The numbers of clusters end before the reserved
ones. -/
structure Volume where
  maxcluster : ℕ
  sectPerClust : ℕ
  bpcluster : ℕ
  rootdirblk : ℕ
  rootdirsize : ℕ
  firstcluster : ℕ
  maxcluster_lt : maxcluster < clustRsrvs
  sectPerClust_pos : 0 < sectPerClust
  bpcluster_pos : 0 < bpcluster

/-- `cntobn`. -/
def Volume.cntobn (V : Volume) (cn : ℕ) : ℕ := (cn - clustFirst) * V.sectPerClust + V.firstcluster

/-- A cluster of the volume. -/
def Volume.Has (V : Volume) (cn : ℕ) : Prop := clustFirst ≤ cn ∧ cn ≤ V.maxcluster

instance (V : Volume) : DecidablePred V.Has := fun cn ↦
  inferInstanceAs (Decidable (clustFirst ≤ cn ∧ cn ≤ V.maxcluster))

/-- The table, `pm_inusemap`, `pm_freeclustercount` and `pm_lookhere`. -/
structure Fat where
  entry : ℕ → ℕ
  inusemap : ℕ → BitVec 8
  freeclustercount : ℤ
  lookhere : ℕ

/-! ### Operations -/

/-- `usemap_alloc`. -/
def usemapAlloc (cn : ℕ) (s : Fat) : Fat :=
  { s with
    inusemap := Bitmap.set s.inusemap cn
    freeclustercount := s.freeclustercount - 1
    lookhere := cn + 1 }

/-- `usemap_free`. -/
def usemapFree (cn : ℕ) (s : Fat) : Fat :=
  { s with
    freeclustercount := s.freeclustercount + 1
    inusemap := Bitmap.clear s.inusemap cn
    lookhere := if cn < s.lookhere then cn else s.lookhere }

/-- `fatentry`, which sets an entry. What it was is returned for `FAT_GET_AND_SET`. -/
def fatentry (V : Volume) (cn newcontents : ℕ) (s : Fat) : Except Errno (ℕ × Fat) :=
  if V.Has cn then .ok (s.entry cn, { s with entry := update s.entry cn newcontents })
  else .error .EINVAL

/-- `clusterfree`. -/
def clusterfree (V : Volume) (cluster : ℕ) (s : Fat) : Except Errno (ℕ × Fat) := do
  let (oldcn, s) ← fatentry V cluster pcfsfree s
  return (oldcn, usemapFree cluster s)

/-- The search of `clusteralloc`. -/
def findCluster (V : Volume) (s : Fat) : Option ℕ :=
  Bitmap.findClear s.inusemap (s.lookhere / 8) (V.maxcluster / 8)

/-- `clusteralloc`. -/
def clusteralloc (V : Volume) (fillwith : ℕ) (s : Fat) : Except Errno (ℕ × Fat) :=
  match findCluster V s with
  | none => .error .ENOSPC
  | some cn => do
    let (_, s) ← fatentry V cn fillwith s
    return (cn, usemapAlloc cn s)

/-- `freeclusterchain`, with at most `fuel` turns. -/
def freeclusterchain (V : Volume) : ℕ → ℕ → Fat → Except Errno Unit × Fat
  | 0, _, s => (.ok (), s)
  | fuel + 1, startcluster, s =>
    if V.Has startcluster then
      match clusterfree V startcluster s with
      | .error e => (.error e, s)
      | .ok (nextcluster, s) => freeclusterchain V fuel nextcluster s
    else (.ok (), s)

/-- `fillinusemap`. -/
def fillinusemap (V : Volume) (s : Fat) : Fat :=
  (List.range' clustFirst (V.maxcluster + 1 - clustFirst)).foldl
    (fun s cn ↦ if s.entry cn = pcfsfree then usemapFree cn s else s)
    { s with
      inusemap := fun i ↦ if i < V.maxcluster / 8 + 1 then BitVec.allOnes 8 else s.inusemap i
      freeclustercount := 0
      lookhere := V.maxcluster + 1 }

/-! ### Accounts -/

/-- The free clusters by the table. -/
def free (V : Volume) (s : Fat) : Finset ℕ :=
  (Finset.Icc clustFirst V.maxcluster).filter fun cn ↦ s.entry cn = pcfsfree

/-- The bitmap, the count and the hint agree with the table. -/
structure Accounts (V : Volume) (s : Fat) : Prop where
  bit : ∀ cn, V.Has cn → (Bitmap.get s.inusemap cn = false ↔ s.entry cn = pcfsfree)
  outside : ∀ cn, ¬V.Has cn → cn / 8 ≤ V.maxcluster / 8 → Bitmap.get s.inusemap cn = true
  count : s.freeclustercount = (free V s).card
  hint : ∀ cn ∈ free V s, s.lookhere ≤ cn

variable {V : Volume} {s : Fat} {cn c : ℕ}

theorem mem_free : cn ∈ free V s ↔ V.Has cn ∧ s.entry cn = pcfsfree := by
  rw [free, Finset.mem_filter, Finset.mem_Icc]
  rfl

theorem Volume.Has.lt (h : V.Has cn) : cn < clustRsrvs := h.2.trans_lt V.maxcluster_lt

theorem le_of_pcfseof (h : Pcfseof c) : 0xfff8 ≤ c := h ▸ Nat.and_le_left

theorem Volume.Has.not_pcfseof (h : V.Has cn) : ¬Pcfseof cn := fun heof ↦
  absurd (h.lt.trans_le (Nat.le_trans (by decide) (le_of_pcfseof heof))) (Nat.lt_irrefl cn)

theorem not_has_of_pcfseof (h : Pcfseof c) : ¬V.Has c := fun hc ↦ hc.not_pcfseof h

theorem ne_free_of_pcfseof (h : Pcfseof c) : c ≠ pcfsfree := fun hc ↦ by
  have hle := le_of_pcfseof h
  rw [hc] at hle
  exact absurd hle (by decide)

theorem Volume.Has.ne_free (h : V.Has cn) : cn ≠ pcfsfree :=
  Nat.ne_of_gt (Nat.lt_of_lt_of_le (by decide : 0 < clustFirst) h.1)

theorem pcfseof_clustEofe : Pcfseof clustEofe := by decide

/-- An entry of a cluster in use is overwritten. -/
theorem Accounts.set {e : ℕ} (h : Accounts V s) (huse : s.entry cn ≠ pcfsfree) (he : e ≠ pcfsfree) :
    Accounts V { s with entry := update s.entry cn e } := by
  have hiff : ∀ d, update s.entry cn e d = pcfsfree ↔ s.entry d = pcfsfree := by
    intro d
    by_cases hd : d = cn
    · rw [hd, update_self]
      exact ⟨fun h ↦ absurd h he, fun h ↦ absurd h huse⟩
    · rw [update_of_ne hd]
  have hfree : free V { s with entry := update s.entry cn e } = free V s := by
    ext d
    rw [mem_free, mem_free]
    exact and_congr_right fun _ ↦ hiff d
  refine ⟨fun d hd ↦ (h.bit d hd).trans (hiff d).symm, h.outside, ?_, ?_⟩
  · rw [hfree]
    exact h.count
  · rw [hfree]
    exact h.hint

/-- A free cluster that lies below all others is put into use. -/
theorem Accounts.alloc {e : ℕ} (h : Accounts V s) (hcn : cn ∈ free V s)
    (hleast : ∀ d ∈ free V s, cn ≤ d)
    (he : e ≠ pcfsfree) : Accounts V (usemapAlloc cn { s with entry := update s.entry cn e }) := by
  have hfree : free V (usemapAlloc cn { s with entry := update s.entry cn e }) =
    (free V s).erase cn := by
    ext d
    rw [Finset.mem_erase, mem_free, mem_free]
    change V.Has d ∧ update s.entry cn e d = pcfsfree ↔ _
    by_cases hd : d = cn
    · rw [hd, update_self]
      exact ⟨fun h ↦ absurd h.2 he, fun h ↦ absurd rfl h.1⟩
    · rw [update_of_ne hd]
      exact ⟨fun h ↦ ⟨hd, h⟩, fun h ↦ h.2⟩
  refine ⟨fun d hd ↦ ?_, fun d hd hle ↦ ?_, ?_, fun d hd ↦ ?_⟩
  · change Bitmap.get (Bitmap.set s.inusemap cn) d = false ↔ update s.entry cn e d = pcfsfree
    rw [Bitmap.get_set (by decide), Bool.or_eq_false_iff, decide_eq_false_iff_not, h.bit d hd]
    by_cases hdc : d = cn
    · rw [hdc, update_self]
      exact ⟨fun h ↦ absurd rfl h.1, fun h ↦ absurd h he⟩
    · rw [update_of_ne hdc]
      exact ⟨fun h ↦ h.2, fun h ↦ ⟨hdc, h⟩⟩
  · change Bitmap.get (Bitmap.set s.inusemap cn) d = true
    rw [Bitmap.get_set (by decide), h.outside d hd hle, Bool.or_true]
  · have hcard := Finset.card_erase_add_one hcn
    rw [hfree]
    change s.freeclustercount - 1 = _
    rw [h.count]
    omega
  · rw [hfree, Finset.mem_erase] at hd
    exact Nat.lt_of_le_of_ne (hleast d hd.2) (Ne.symm hd.1)

/-- A cluster in use is freed. -/
theorem Accounts.release (h : Accounts V s) (hcn : V.Has cn) (huse : s.entry cn ≠ pcfsfree) :
    Accounts V (usemapFree cn { s with entry := update s.entry cn pcfsfree }) := by
  have hnot : cn ∉ free V s := fun hmem ↦ huse (mem_free.mp hmem).2
  have hfree : free V (usemapFree cn { s with entry := update s.entry cn pcfsfree }) =
      insert cn (free V s) := by
    ext d
    rw [Finset.mem_insert, mem_free, mem_free]
    change V.Has d ∧ update s.entry cn pcfsfree d = pcfsfree ↔ _
    by_cases hd : d = cn
    · rw [hd, update_self]
      exact ⟨fun _ ↦ .inl rfl, fun _ ↦ ⟨hcn, rfl⟩⟩
    · rw [update_of_ne hd]
      exact ⟨.inr, fun h ↦ h.resolve_left hd⟩
  refine ⟨fun d hd ↦ ?_, fun d hd hle ↦ ?_, ?_, fun d hd ↦ ?_⟩
  · change Bitmap.get (Bitmap.clear s.inusemap cn) d = false ↔
      update s.entry cn pcfsfree d = pcfsfree
    rw [Bitmap.get_clear (by decide), Bool.and_eq_false_iff, Bool.not_eq_false', decide_eq_true_iff,
      h.bit d hd]
    by_cases hdc : d = cn
    · rw [hdc, update_self]
      exact ⟨fun _ ↦ rfl, fun _ ↦ .inl rfl⟩
    · rw [update_of_ne hdc]
      exact ⟨fun h ↦ h.resolve_left hdc, .inr⟩
  · change Bitmap.get (Bitmap.clear s.inusemap cn) d = true
    have hdc : d ≠ cn := fun hdc ↦ hd (hdc ▸ hcn)
    rw [Bitmap.get_clear (by decide), h.outside d hd hle, decide_eq_false hdc]
    rfl
  · rw [hfree, Finset.card_insert_of_notMem hnot]
    change s.freeclustercount + 1 = _
    rw [h.count]
    omega
  · rw [hfree, Finset.mem_insert] at hd
    change (if cn < s.lookhere then cn else s.lookhere) ≤ d
    rcases hd with hd | hd
    · rw [hd]
      split_ifs with hlt
      · exact Nat.le_refl cn
      · exact Nat.le_of_not_lt hlt
    · have hle := h.hint d hd
      split_ifs with hlt
      · exact hlt.le.trans hle
      · exact hle

/-- The search finds the first free cluster. -/
theorem Accounts.findCluster_eq_some (h : Accounts V s) (hfind : findCluster V s = some cn) :
    cn ∈ free V s ∧ ∀ d ∈ free V s, cn ≤ d := by
  obtain ⟨hclear, hfirst, hlast, hbefore⟩ := Bitmap.findClear_eq_some (by decide) hfind
  have hcn : V.Has cn := by
    by_contra hnot
    rw [h.outside cn hnot hlast] at hclear
    cases hclear
  refine ⟨mem_free.mpr ⟨hcn, (h.bit cn hcn).mp hclear⟩, fun d hd ↦ ?_⟩
  by_contra hlt
  have hset := hbefore d (Nat.div_le_div_right (h.hint d hd)) (Nat.lt_of_not_le hlt)
  rw [(h.bit d (mem_free.mp hd).1).mpr (mem_free.mp hd).2] at hset
  cases hset

/-- The search fails where no cluster is free. -/
theorem Accounts.findCluster_eq_none (h : Accounts V s) (hfind : findCluster V s = none) :
    free V s = ∅ := by
  refine Finset.eq_empty_of_forall_notMem fun d hd ↦ ?_
  have hhas := (mem_free.mp hd).1
  have hset : Bitmap.get s.inusemap d = true := Bitmap.findClear_eq_none (by decide) hfind
    (Nat.div_le_div_right (h.hint d hd)) (Nat.div_le_div_right hhas.2)
  rw [(h.bit d hhas).mpr (mem_free.mp hd).2] at hset
  cases hset

/-- What `clusteralloc` does: it fails where no cluster is free, and else returns the first free
one. -/
theorem clusteralloc_spec (h : Accounts V s) {fillwith : ℕ} (hfill : fillwith ≠ pcfsfree) :
    clusteralloc V fillwith s = .error .ENOSPC ∧ free V s = ∅ ∨
      ∃ cn s', clusteralloc V fillwith s = .ok (cn, s') ∧ cn ∈ free V s ∧ (∀ d ∈ free V s, cn ≤ d) ∧
        s'.entry = update s.entry cn fillwith ∧ Accounts V s' := by
  rw [clusteralloc]
  cases hfind : findCluster V s with
  | none => exact .inl ⟨rfl, h.findCluster_eq_none hfind⟩
  | some cn =>
    obtain ⟨hfree, hleast⟩ := h.findCluster_eq_some hfind
    refine .inr ⟨cn, _, ?_, hfree, hleast, rfl, h.alloc hfree hleast hfill⟩
    dsimp only
    rw [fatentry, if_pos (mem_free.mp hfree).1]
    rfl

/-- What `clusterfree` does to a cluster in use. -/
theorem clusterfree_spec (h : Accounts V s) (hcn : V.Has cn) (huse : s.entry cn ≠ pcfsfree) :
    ∃ s', clusterfree V cn s = .ok (s.entry cn, s') ∧ s'.entry = update s.entry cn pcfsfree ∧
      Accounts V s' := by
  refine ⟨_, ?_, rfl, h.release hcn huse⟩
  rw [clusterfree, fatentry, if_pos hcn]
  rfl

/-- What `freeclusterchain` does to a chain. -/
theorem freeclusterchain_spec {l : List ℕ} {fuel : ℕ} (h : Accounts V s)
    (hchain : Chain s.entry Pcfseof cn l) (hhas : ∀ c ∈ l, V.Has c) (hnodup : l.Nodup)
    (hfuel : l.length < fuel) :
    ∃ s', freeclusterchain V fuel cn s = (.ok (), s') ∧
      (∀ c, s'.entry c = if c ∈ l then pcfsfree else s.entry c) ∧ Accounts V s' := by
  induction l generalizing fuel cn s with
  | nil =>
    obtain ⟨fuel, rfl⟩ := Nat.exists_eq_succ_of_ne_zero (Nat.ne_of_gt hfuel)
    refine ⟨s, ?_, fun _ ↦ (if_neg List.not_mem_nil).symm, h⟩
    rw [freeclusterchain, if_neg (not_has_of_pcfseof hchain)]
  | cons d l ih =>
    obtain ⟨fuel, rfl⟩ := Nat.exists_eq_succ_of_ne_zero (Nat.ne_of_gt (Nat.zero_lt_of_lt hfuel))
    rw [List.length_cons] at hfuel
    have hd : V.Has d := hhas d (List.mem_cons_self ..)
    have huse : s.entry d ≠ pcfsfree := by
      rcases hchain.next_mem_or_isEnd (List.mem_cons_self ..) with hmem | hend
      · exact (hhas _ hmem).ne_free
      · exact ne_free_of_pcfseof hend
    obtain ⟨s₁, hfree, hentry, haccounts⟩ := clusterfree_spec h hd huse
    have hnot := (List.nodup_cons.mp hnodup).1
    obtain ⟨s', hrun, hentry', haccounts'⟩ := @ih s₁ (s.entry d) fuel haccounts
      (by rw [hentry]; exact hchain.2.update hnot) (fun c hc ↦ hhas c (List.mem_cons_of_mem d hc))
      (List.nodup_cons.mp hnodup).2 (by omega)
    refine ⟨s', ?_, fun c ↦ ?_, haccounts'⟩
    · rw [freeclusterchain, hchain.1, if_pos hd, hfree]
      exact hrun
    · rw [hentry' c, hentry]
      by_cases hc : c = d
      · rw [hc, if_neg hnot, update_self, if_pos (List.mem_cons_self ..)]
      · rw [update_of_ne hc]
        simp only [List.mem_cons, hc, false_or]

/-! ### Mounting -/

/-- The table in which some clusters have not been looked at. -/
def masked (entry : ℕ → ℕ) (rest : List ℕ) (cn : ℕ) : ℕ := if cn ∈ rest then clustEofe else entry cn

/-- A turn of `fillinusemap`. -/
theorem Accounts.look {t : Fat} {entry : ℕ → ℕ} {rest : List ℕ} (hcn : V.Has cn) (hnot : cn ∉ rest)
    (hentry : t.entry = entry) (h : Accounts V { t with entry := masked entry (cn :: rest) }) :
    Accounts V { (if t.entry cn = pcfsfree then usemapFree cn t else t) with
      entry := masked entry rest } := by
  have huse : masked entry (cn :: rest) cn ≠ pcfsfree := by
    rw [masked, if_pos (List.mem_cons_self ..)]
    decide
  have hmasked : masked entry rest = update (masked entry (cn :: rest)) cn (entry cn) := by
    funext d
    by_cases hd : d = cn
    · rw [hd, update_self, masked, if_neg hnot]
    · rw [update_of_ne hd, masked, masked]
      simp only [List.mem_cons, hd, false_or]
  rw [hentry, hmasked]
  split_ifs with hfree
  · rw [hfree]
    exact h.release hcn huse
  · exact h.set huse hfree

/-- `fillinusemap` makes the accounts agree with the table. -/
theorem fillinusemap_spec (V : Volume) (s : Fat) :
    (fillinusemap V s).entry = s.entry ∧ Accounts V (fillinusemap V s) := by
  have hloop : ∀ (l : List ℕ) (t : Fat), (∀ c ∈ l, V.Has c) → l.Nodup → t.entry = s.entry →
      Accounts V { t with entry := masked s.entry l } →
      (l.foldl (fun t cn ↦ if t.entry cn = pcfsfree then usemapFree cn t else t) t).entry =
        s.entry ∧
        Accounts V (l.foldl (fun t cn ↦ if t.entry cn = pcfsfree then usemapFree cn t
          else t) t) := by
    intro l
    induction l with
    | nil =>
      intro t _ _ hentry haccounts
      have hmasked : masked s.entry [] = t.entry := by
        funext d
        rw [masked, if_neg List.not_mem_nil, hentry]
      rw [hmasked] at haccounts
      exact ⟨hentry, haccounts⟩
    | cons cn l ih =>
      intro t hhas hnodup hentry haccounts
      rw [List.foldl_cons]
      refine ih _ (fun c hc ↦ hhas c (List.mem_cons_of_mem cn hc))
        (List.nodup_cons.mp hnodup).2 ?_ ?_
      · split_ifs <;> exact hentry
      · exact haccounts.look (hhas cn (List.mem_cons_self ..)) (List.nodup_cons.mp hnodup).1 hentry
  have hrange : ∀ c, c ∈ List.range' clustFirst (V.maxcluster + 1 - clustFirst) ↔ V.Has c := by
    intro c
    rw [List.mem_range'_1, Volume.Has]
    omega
  refine hloop _ _ (fun c hc ↦ (hrange c).mp hc) List.nodup_range' rfl ?_
  have hones : ∀ c, c / 8 ≤ V.maxcluster / 8 → Bitmap.get (fun i ↦ if i < V.maxcluster / 8 + 1 then
      BitVec.allOnes 8 else s.inusemap i) c = true := fun c hc ↦
    Bitmap.get_of_allOnes (by decide) (if_pos (Nat.lt_succ_of_le hc))
  have huse : ∀ c, V.Has c →
      masked s.entry (List.range' clustFirst (V.maxcluster + 1 - clustFirst)) c ≠ pcfsfree := by
    intro c hc
    rw [masked, if_pos ((hrange c).mpr hc)]
    decide
  have hnone : ∀ t : Fat, t.entry = masked s.entry _ → free V t = ∅ := fun t ht ↦
    Finset.eq_empty_of_forall_notMem fun c hc ↦
      huse c (mem_free.mp hc).1 (ht ▸ (mem_free.mp hc).2)
  refine ⟨fun c hc ↦ ?_, fun c _ hle ↦ hones c hle, ?_, fun c hc ↦ ?_⟩
  · have hset := hones c (Nat.div_le_div_right hc.2)
    exact ⟨fun hclear ↦ absurd (hset.symm.trans hclear) (by decide), fun hfree ↦
      absurd hfree (huse c hc)⟩
  · rw [hnone _ rfl]
    rfl
  · rw [hnone _ rfl] at hc
    exact absurd hc (Finset.notMem_empty c)

end Bsd386.Dosfs
