import Bsd386.Kern.Sockbuf.Basic

/-!
# Adding mbufs to a record

What `sbcompress` does to the data, the counters and the clusters. Bytes are copied only behind the
data of an mbuf that keeps them inside of itself, so no cluster changes.
-/

namespace Bsd386.Kern.SocketBuffer

variable {B : Type}

/-- The data of an mbuf are inside of the memory that it uses. -/
structure Mbuf.Good (clusters : Clusters B) (m : Mbuf B) : Prop where
  inside : m.mData + m.mLen ≤ (m.storage clusters).length
  mlen_eq : m.mDat.length = mlen

/-- The memory that the mbufs of a chain count for. -/
def chainSpace (chain : Chain B) : ℤ := (chain.map Mbuf.space).sum

section Chains

variable {clusters : Clusters B} {m : Mbuf B} {chain chain' : Chain B}

@[simp]
theorem bytes_nil : bytes clusters ([] : Chain B) = [] := rfl

@[simp]
theorem bytes_cons : bytes clusters (m :: chain) = m.bytes clusters ++ bytes clusters chain :=
  List.flatMap_cons

@[simp]
theorem bytes_append :
    bytes clusters (chain ++ chain') = bytes clusters chain ++ bytes clusters chain' :=
  List.flatMap_append

@[simp]
theorem chainLen_nil : chainLen ([] : Chain B) = 0 := rfl

@[simp]
theorem chainLen_cons : chainLen (m :: chain) = m.mLen + chainLen chain := by
  rw [chainLen, List.map_cons, List.sum_cons, chainLen]

@[simp]
theorem chainLen_append : chainLen (chain ++ chain') = chainLen chain + chainLen chain' := by
  rw [chainLen, List.map_append, List.sum_append, chainLen, chainLen]

@[simp]
theorem chainSpace_nil : chainSpace ([] : Chain B) = 0 := rfl

@[simp]
theorem chainSpace_cons : chainSpace (m :: chain) = m.space + chainSpace chain := by
  rw [chainSpace, List.map_cons, List.sum_cons, chainSpace]

@[simp]
theorem chainSpace_append :
    chainSpace (chain ++ chain') = chainSpace chain + chainSpace chain' := by
  rw [chainSpace, List.map_append, List.sum_append, chainSpace, chainSpace]

theorem Mbuf.Good.length_bytes (hgood : m.Good clusters) : (m.bytes clusters).length = m.mLen := by
  have hinside := hgood.inside
  rw [Mbuf.bytes, List.length_take, List.length_drop]
  omega

theorem bytes_eq_nil_of_mLen (hlen : m.mLen = 0) : m.bytes clusters = [] := by
  rw [Mbuf.bytes, hlen, List.take_zero]

theorem length_bytes (hgood : ∀ m ∈ chain, m.Good clusters) :
    (bytes clusters chain).length = chainLen chain := by
  induction chain with
  | nil => rfl
  | cons m chain ih =>
    rw [bytes_cons, List.length_append, chainLen_cons,
      (hgood m List.mem_cons_self).length_bytes,
      ih fun m' hm' ↦ hgood m' (List.mem_cons_of_mem m hm')]

end Chains

/-! ### Copying into an mbuf -/

theorem length_overwrite {memory new : List B} {pos : ℕ}
    (hroom : pos + new.length ≤ memory.length) :
    (overwrite memory pos new).length = memory.length := by
  rw [overwrite, List.length_append, List.length_append, List.length_take, List.length_drop]
  omega

/-- The bytes that end where others were written. -/
theorem take_drop_overwrite {memory new : List B} {start len : ℕ}
    (hinside : start + len ≤ memory.length) :
    ((overwrite memory (start + len) new).drop start).take (len + new.length) =
      (memory.drop start).take len ++ new := by
  have hbefore : (memory.take (start + len)).length = start + len := by
    rw [List.length_take]
    omega
  have hold : (memory.take (start + len)).drop start = (memory.drop start).take len := by
    rw [List.drop_take, Nat.add_sub_cancel_left]
  have hlength : ((memory.drop start).take len ++ new).length = len + new.length := by
    rw [List.length_append, List.length_take, List.length_drop]
    omega
  rw [overwrite, List.append_assoc, List.drop_append_of_le_length (by omega), hold,
    ← List.append_assoc, List.take_append_of_le_length (by omega),
    List.take_of_length_le (by omega)]

variable {clusters : Clusters B} {p m : Mbuf B}

/-- The mbuf `p` with the data of `m` behind its own. -/
def Mbuf.merged (clusters : Clusters B) (p m : Mbuf B) : Mbuf B :=
  { p with
    mLen := p.mLen + m.mLen
    mDat := overwrite p.mDat (p.mData + p.mLen) (m.bytes clusters) }

theorem mergeable_iff :
    mergeable p m ↔
      p.ext = none ∧ p.eor = false ∧ p.mData + p.mLen + m.mLen < mlen ∧ p.mType = m.mType := by
  rw [mergeable, decide_eq_true_iff]

/-- An mbuf with internal data is copied into; the clusters stay. -/
theorem copyBehind_eq (hext : p.ext = none) (new : List B) :
    p.copyBehind clusters new =
      (clusters, { p with mDat := overwrite p.mDat (p.mData + p.mLen) new }) := by
  rw [Mbuf.copyBehind, hext]

theorem Mbuf.Good.merged (hp : p.Good clusters) (hm : m.Good clusters)
    (hmerge : mergeable p m) : (p.merged clusters m).Good clusters := by
  obtain ⟨hext, -, hroom, -⟩ := mergeable_iff.mp hmerge
  have hlen := hm.length_bytes
  have hmlen := hp.mlen_eq
  have hlength : (overwrite p.mDat (p.mData + p.mLen) (m.bytes clusters)).length = mlen := by
    rw [length_overwrite (by omega), hmlen]
  refine ⟨?_, hlength⟩
  have hstorage : (p.merged clusters m).storage clusters =
      overwrite p.mDat (p.mData + p.mLen) (m.bytes clusters) := by
    rw [Mbuf.storage, Mbuf.merged, hext]
  rw [hstorage, hlength]
  change p.mData + (p.mLen + m.mLen) ≤ mlen
  omega

theorem bytes_merged (hp : p.Good clusters) (hm : m.Good clusters) (hmerge : mergeable p m) :
    (p.merged clusters m).bytes clusters = p.bytes clusters ++ m.bytes clusters := by
  obtain ⟨hext, -, -, -⟩ := mergeable_iff.mp hmerge
  have hlen := hm.length_bytes
  have hinside := hp.inside
  have hold : p.storage clusters = p.mDat := by rw [Mbuf.storage, hext]
  have hnew : (p.merged clusters m).storage clusters =
      overwrite p.mDat (p.mData + p.mLen) (m.bytes clusters) := by
    rw [Mbuf.storage, Mbuf.merged, hext]
  have hbytes : p.bytes clusters = (p.mDat.drop p.mData).take p.mLen := by
    rw [Mbuf.bytes, hold]
  rw [hold] at hinside
  rw [hbytes, ← take_drop_overwrite hinside, hlen]
  change (((p.merged clusters m).storage clusters).drop p.mData).take (p.mLen + m.mLen) = _
  rw [hnew]

/-! ### The loop -/

/-- What `sbcompress` leaves of a record that was `record` when it adds `added` to it, having met
the end of a record before if `eor` is set. -/
structure Compressed (clusters : Clusters B) (sb : Sockbuf B) (eor : Bool)
    (record added : Chain B) (sb' : Sockbuf B) (record' : Chain B) : Prop where
  bytes_eq : bytes clusters record' = bytes clusters record ++ bytes clusters added
  len_eq : chainLen record' = chainLen record + chainLen added
  good : ∀ m ∈ record', m.Good clusters
  ended : record'.any Mbuf.eor = (record.any Mbuf.eor || eor || added.any Mbuf.eor)
  nonempty : record ≠ [] → record' ≠ []
  counted : sb' = { sb with
    sbCc := sb.sbCc + chainLen added
    sbMbcnt := sb.sbMbcnt + (chainSpace record' - chainSpace record) }

theorem space_merged : (p.merged clusters m).space = p.space := rfl

theorem droppable_iff {rest : Chain B} {p : Option (Mbuf B)} {eor : Bool} :
    droppable m rest p eor ↔
      m.mLen = 0 ∧ (eor = false ∨ (rest.head?.or p).any fun o ↦ o.mType = m.mType) := by
  rw [droppable, decide_eq_true_iff]

/-- The first mbuf of the chain is freed. -/
theorem Compressed.drop {eor : Bool} {record chain : Chain B} {sb sb' : Sockbuf B}
    {record' : Chain B}
    (hlen : m.mLen = 0) (hrest : Compressed clusters sb (eor || m.eor) record chain sb' record') :
    Compressed clusters sb eor record (m :: chain) sb' record' where
  bytes_eq := by rw [hrest.bytes_eq, bytes_cons, bytes_eq_nil_of_mLen hlen, List.nil_append]
  len_eq := by rw [hrest.len_eq, chainLen_cons, hlen, Nat.zero_add]
  good := hrest.good
  ended := by
    rw [hrest.ended, List.any_cons]
    simp only [Bool.or_assoc]
  nonempty := hrest.nonempty
  counted := by rw [hrest.counted, chainLen_cons, hlen, Nat.zero_add]

/-- The data of the first mbuf of the chain are now in the record. -/
theorem Compressed.add {eor : Bool} {record record₁ chain : Chain B} {sb sb' : Sockbuf B}
    {record' : Chain B}
    (hrest : Compressed clusters { sb with
      sbCc := sb.sbCc + m.mLen
      sbMbcnt := sb.sbMbcnt + (chainSpace record₁ - chainSpace record) }
        (eor || m.eor) record₁ chain sb' record')
    (hbytes : bytes clusters record₁ = bytes clusters record ++ m.bytes clusters)
    (hlen : chainLen record₁ = chainLen record + m.mLen)
    (heor : record₁.any Mbuf.eor = record.any Mbuf.eor) (hne : record₁ ≠ []) :
    Compressed clusters sb eor record (m :: chain) sb' record' where
  bytes_eq := by rw [hrest.bytes_eq, hbytes, bytes_cons, List.append_assoc]
  len_eq := by rw [hrest.len_eq, hlen, chainLen_cons, Nat.add_assoc]
  good := hrest.good
  ended := by
    rw [hrest.ended, heor, List.any_cons]
    simp only [Bool.or_assoc]
  nonempty _ := hrest.nonempty hne
  counted := by
    rw [hrest.counted, chainLen_cons]
    simp only [Sockbuf.mk.injEq, true_and, and_true]
    omega

/-- The first mbuf of the chain is linked to the record. -/
theorem Compressed.link {eor : Bool} {record chain : Chain B} {sb sb' : Sockbuf B}
    {record' : Chain B}
    (hrest : Compressed clusters (sb.sballoc m) (eor || m.eor)
      (record ++ [{ m with eor := false }]) chain sb' record') :
    Compressed clusters sb eor record (m :: chain) sb' record' := by
  have hspace : chainSpace (record ++ [{ m with eor := false }]) - chainSpace record = m.space := by
    rw [chainSpace_append, chainSpace_cons, chainSpace_nil]
    change chainSpace record + (m.space + 0) - chainSpace record = m.space
    omega
  apply Compressed.add (m := m) ?_ ?_ ?_ ?_ ?_
  · exact record ++ [{ m with eor := false }]
  · rw [hspace]
    exact hrest
  · simp [Mbuf.bytes, Mbuf.storage]
  · simp
  · simp
  · simp

/-- The loop of `sbcompress`. There is an mbuf to put a mark on that it carries. -/
theorem sbcompressLoop_spec {chain : Chain B} (eor : Bool) (front : Chain B)
    (p : Option (Mbuf B)) (sb : Sockbuf B) (hchain : ∀ m ∈ chain, m.Good clusters)
    (hfront : ∀ m ∈ front ++ p.toList, m.Good clusters)
    (heor : eor = true → p = none → chain ≠ []) :
    ∃ sb' record, sbcompressLoop chain eor front p (sb, clusters) = .ok ((sb', clusters), record) ∧
      Compressed clusters sb eor (front ++ p.toList) chain sb' record := by
  induction chain generalizing eor front p sb with
  | nil =>
    cases p with
    | none =>
      have hmark : eor = false := by
        by_contra hne
        exact heor (Bool.not_eq_false _ ▸ hne) rfl rfl
      subst hmark
      refine ⟨sb, front, rfl, ?_, ?_, ?_, ?_, ?_, ?_⟩
      · simp
      · simp
      · simpa using hfront
      · simp
      · simp
      · simp
    | some q =>
      have hq := hfront q (by simp)
      refine ⟨sb, front ++ [{ q with eor := q.eor || eor }], rfl, ?_, ?_, ?_, ?_, ?_, ?_⟩
      · simp [Mbuf.bytes, Mbuf.storage]
      · simp
      · intro m hm
        rcases List.mem_append.mp hm with hold | hlast
        · exact hfront m (List.mem_append_left _ hold)
        · rw [List.mem_singleton.mp hlast]
          exact ⟨hq.inside, hq.mlen_eq⟩
      · simp [Bool.or_assoc]
      · simp
      · simp [Mbuf.space]
  | cons m chain ih =>
    have hm := hchain m List.mem_cons_self
    have hrest : ∀ m ∈ chain, m.Good clusters := fun m' hm' ↦
      hchain m' (List.mem_cons_of_mem m hm')
    have hunmarked : ({ m with eor := false } : Mbuf B).Good clusters := ⟨hm.inside, hm.mlen_eq⟩
    have hlinked : ∀ m' ∈ (front ++ p.toList) ++ [{ m with eor := false }], m'.Good clusters := by
      intro m' hm'
      rcases List.mem_append.mp hm' with hold | hlast
      · exact hfront m' hold
      · rw [List.mem_singleton.mp hlast]
        exact hunmarked
    rw [sbcompressLoop.eq_def]
    dsimp only
    by_cases hdrop : droppable m chain p (eor || m.eor)
    · obtain ⟨hlen, hnext⟩ := droppable_iff.mp hdrop
      rw [if_pos hdrop]
      obtain ⟨sb', record, hrun, hspec⟩ := ih (eor || m.eor) front p sb hrest hfront (by
        rintro hmark rfl rfl
        rw [hmark] at hnext
        simp at hnext)
      exact ⟨sb', record, hrun, hspec.drop hlen⟩
    · rw [if_neg hdrop]
      cases p with
      | none =>
        rw [Option.toList_none, List.append_nil] at hlinked ⊢
        obtain ⟨sb', record, hrun, hspec⟩ := ih (eor || m.eor) front
          (some { m with eor := false }) (sb.sballoc m) hrest hlinked (fun _ h ↦ (nomatch h))
        exact ⟨sb', record, hrun, hspec.link⟩
      | some q =>
        dsimp only
        by_cases hmerge : mergeable q m
        · have hq := hfront q (by simp)
          obtain ⟨hext, -, -, -⟩ := mergeable_iff.mp hmerge
          have hmerged : ∀ m' ∈ front ++ (some (q.merged clusters m)).toList, m'.Good clusters := by
            intro m' hm'
            rcases List.mem_append.mp hm' with hold | hlast
            · exact hfront m' (List.mem_append_left _ hold)
            · rw [List.mem_singleton.mp hlast]
              exact hq.merged hm hmerge
          obtain ⟨sb', record, hrun, hspec⟩ := ih (eor || m.eor) front (some (q.merged clusters m))
            { sb with sbCc := sb.sbCc + m.mLen } hrest hmerged (fun _ h ↦ (nomatch h))
          refine ⟨sb', record, ?_, ?_⟩
          · rw [if_pos hmerge, copyBehind_eq hext]
            exact hrun
          · have hspace : chainSpace (front ++ (some (q.merged clusters m)).toList) =
                chainSpace (front ++ (some q).toList) := by
              simp [space_merged]
            apply Compressed.add (m := m) ?_ ?_ ?_ ?_ ?_
            · exact front ++ (some (q.merged clusters m)).toList
            · rw [hspace, Int.sub_self, Int.add_zero]
              exact hspec
            · simp [bytes_merged hq hm hmerge]
            · simp [Mbuf.merged, Nat.add_assoc]
            · simp [Mbuf.merged]
            · simp
        · obtain ⟨sb', record, hrun, hspec⟩ := ih (eor || m.eor) (front ++ [q])
            (some { m with eor := false }) (sb.sballoc m) hrest hlinked (fun _ h ↦ (nomatch h))
          refine ⟨sb', record, ?_, Compressed.link hspec⟩
          rw [if_neg hmerge]
          exact hrun

end Bsd386.Kern.SocketBuffer
