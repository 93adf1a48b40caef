import Bsd386.Kern.Sockbuf.Compress

/-!
# Appending to a socket buffer

A socket buffer whose counters are right denotes the list of the data of its records. The appending
routines add to its last record, or put one more record behind the others or behind the records of
urgent data.
-/

namespace Bsd386.Kern.SocketBuffer

variable {B : Type} {s : State B} {sb sb' : Sockbuf B} {clusters : Clusters B}

/-- The counters of a socket buffer are right, and its mbufs are. -/
structure Sound (s : State B) : Prop where
  cc : s.1.sbCc = chainLen s.1.sbMb.flatten
  mbcnt : s.1.sbMbcnt = chainSpace s.1.sbMb.flatten
  nonempty : ∀ r ∈ s.1.sbMb, r ≠ []
  good : ∀ m ∈ s.1.sbMb.flatten, m.Good s.2

/-- The data of the records. -/
def denote (s : State B) : List (List B) := s.1.sbMb.map (bytes s.2)

/-- The last record has an end mark. -/
def lastEnded (s : State B) : Bool := s.1.sbMb.getLast?.any fun last ↦ last.any Mbuf.eor

/-! ### One record -/

theorem sbcompress_spec (sb : Sockbuf B) {record m : Chain B}
    (hrecord : ∀ m ∈ record, m.Good clusters) (hm : ∀ m' ∈ m, m'.Good clusters) :
    ∃ sb' record', sbcompress m record (sb, clusters) = .ok ((sb', clusters), record') ∧
      Compressed clusters sb false record m sb' record' := by
  have hsplit : record.dropLast ++ record.getLast?.toList = record := by
    cases hlast : record.getLast? with
    | none =>
      rw [List.getLast?_eq_none_iff.mp hlast]
      rfl
    | some last => exact List.dropLast_append_getLast? last hlast
  obtain ⟨sb', record', hrun, hspec⟩ := sbcompressLoop_spec false record.dropLast record.getLast? sb
    hm (hsplit.symm ▸ hrecord) nofun
  rw [hsplit] at hspec
  exact ⟨sb', record', hrun, hspec⟩

/-- A new record, and the counters with it. -/
structure Started (clusters : Clusters B) (sb : Sockbuf B) (chain : Chain B) (sb' : Sockbuf B)
    (record : Chain B) : Prop where
  bytes_eq : bytes clusters record = bytes clusters chain
  len_eq : chainLen record = chainLen chain
  good : ∀ m ∈ record, m.Good clusters
  ended : record.any Mbuf.eor = chain.any Mbuf.eor
  nonempty : record ≠ []
  counted : sb' = { sb with
    sbCc := sb.sbCc + chainLen record
    sbMbcnt := sb.sbMbcnt + chainSpace record }

/-- The record that `sbcompress` makes of the first mbuf and the others. -/
theorem Compressed.started {m0 m0' : Mbuf B} {m m' record : Chain B}
    (hspec : Compressed clusters (sb.sballoc m0) false [m0'] m' sb' record)
    (hm0 : m0'.bytes clusters = m0.bytes clusters ∧ m0'.mLen = m0.mLen ∧ m0'.space = m0.space)
    (hm : bytes clusters m' = bytes clusters m ∧ chainLen m' = chainLen m)
    (heor : (m0'.eor || m'.any Mbuf.eor) = (m0.eor || m.any Mbuf.eor)) :
    Started clusters sb (m0 :: m) sb' record where
  bytes_eq := by rw [hspec.bytes_eq, bytes_cons, bytes_nil, List.append_nil, hm0.1, hm.1,
    bytes_cons]
  len_eq := by rw [hspec.len_eq, chainLen_cons, chainLen_nil, hm0.2.1, hm.2, chainLen_cons,
    Nat.add_zero]
  good := hspec.good
  ended := by
    rw [hspec.ended, List.any_cons, List.any_nil, Bool.or_false, Bool.or_false, heor, List.any_cons]
  nonempty := hspec.nonempty (List.cons_ne_nil _ _)
  counted := by
    have hlen := hspec.len_eq
    rw [chainLen_cons, chainLen_nil, hm0.2.1] at hlen
    rw [hspec.counted, chainSpace_cons, chainSpace_nil, hm0.2.2, hlen, Sockbuf.sballoc]
    simp only [Sockbuf.mk.injEq, true_and, and_true]
    omega

theorem startRecord_spec (sb : Sockbuf B) {m0 : Mbuf B} {m : Chain B}
    (hm : ∀ m' ∈ m0 :: m, m'.Good clusters) :
    ∃ sb' record, startRecord m0 m (sb, clusters) = .ok ((sb', clusters), record) ∧
      Started clusters sb (m0 :: m) sb' record := by
  have hm0 := hm m0 List.mem_cons_self
  cases m with
  | nil =>
    obtain ⟨sb', record, hrun, hspec⟩ := sbcompress_spec (sb.sballoc m0)
      (List.forall_mem_singleton.mpr hm0) (List.forall_mem_nil _)
    exact ⟨sb', record, hrun, hspec.started ⟨rfl, rfl, rfl⟩ ⟨rfl, rfl⟩ rfl⟩
  | cons m1 rest =>
    have hm1 := hm m1 (by simp)
    have hrest : ∀ m' ∈ rest, m'.Good clusters := fun m' hm' ↦ hm m' (by simp [hm'])
    rw [startRecord]
    by_cases heor : m0.eor
    · rw [if_pos heor]
      have hm0' : ({ m0 with eor := false } : Mbuf B).Good clusters := ⟨hm0.inside, hm0.mlen_eq⟩
      have hm1' : ({ m1 with eor := true } : Mbuf B).Good clusters := ⟨hm1.inside, hm1.mlen_eq⟩
      obtain ⟨sb', record, hrun, hspec⟩ := sbcompress_spec (sb.sballoc m0)
        (List.forall_mem_singleton.mpr hm0') (List.forall_mem_cons.mpr ⟨hm1', hrest⟩)
      refine ⟨sb', record, hrun, hspec.started ⟨rfl, rfl, rfl⟩ ⟨?_, ?_⟩ ?_⟩
      · rw [bytes_cons, bytes_cons]
        rfl
      · rw [chainLen_cons, chainLen_cons]
      · simp [heor]
    · rw [if_neg heor]
      obtain ⟨sb', record, hrun, hspec⟩ := sbcompress_spec (sb.sballoc m0)
        (List.forall_mem_singleton.mpr hm0) (List.forall_mem_cons.mpr ⟨hm1, hrest⟩)
      exact ⟨sb', record, hrun, hspec.started ⟨rfl, rfl, rfl⟩ ⟨rfl, rfl⟩ rfl⟩

/-! ### The queue -/

/-- A record is put between the others. -/
theorem Sound.insert {front rear : List (Chain B)} {record : Chain B} (hsound : Sound s)
    (hqueue : s.1.sbMb = front ++ rear) (hgood : ∀ m ∈ record, m.Good s.2) (hne : record ≠ []) :
    Sound ({ s.1 with
      sbCc := s.1.sbCc + chainLen record
      sbMbcnt := s.1.sbMbcnt + chainSpace record
      sbMb := front ++ record :: rear }, s.2) := by
  obtain ⟨hcc, hmbcnt, hnonempty, hold⟩ := hsound
  rw [hqueue, List.flatten_append] at hcc hmbcnt hold
  rw [hqueue] at hnonempty
  refine ⟨?_, ?_, ?_, ?_⟩
  · change s.1.sbCc + chainLen record = _
    rw [hcc, List.flatten_append, List.flatten_cons]
    simp only [chainLen_append]
    omega
  · change s.1.sbMbcnt + chainSpace record = _
    rw [hmbcnt, List.flatten_append, List.flatten_cons]
    simp only [chainSpace_append]
    omega
  · intro r hr
    rcases List.mem_append.mp hr with hfront | hrest
    · exact hnonempty r (List.mem_append_left _ hfront)
    · rcases List.mem_cons.mp hrest with rfl | hrear
      · exact hne
      · exact hnonempty r (List.mem_append_right _ hrear)
  · intro m hm
    rw [List.flatten_append, List.flatten_cons, List.mem_append, List.mem_append] at hm
    rcases hm with hfront | hnew | hrear
    · exact hold m (List.mem_append_left _ hfront)
    · exact hgood m hnew
    · exact hold m (List.mem_append_right _ hrear)

theorem denote_insert {front rear : List (Chain B)} {record : Chain B} {sb : Sockbuf B}
    (hqueue : sb.sbMb = front ++ record :: rear) :
    denote (sb, clusters) =
      front.map (bytes clusters) ++ bytes clusters record :: rear.map (bytes clusters) := by
  rw [denote, hqueue, List.map_append, List.map_cons]

theorem sbappendrecord_spec {m : Chain B} (hsound : Sound s) (hm : ∀ m' ∈ m, m'.Good s.2)
    (hne : m ≠ []) :
    ∃ s', sbappendrecord m s = .ok s' ∧ Sound s' ∧ s'.2 = s.2 ∧
      denote s' = denote s ++ [bytes s.2 m] ∧ lastEnded s' = m.any Mbuf.eor := by
  obtain ⟨sb, clusters⟩ := s
  obtain ⟨m0, m, rfl⟩ := List.exists_cons_of_ne_nil hne
  obtain ⟨sb', record, hrun, hspec⟩ := startRecord_spec sb hm
  have hqueue : sb.sbMb = sb.sbMb ++ [] := (List.append_nil _).symm
  refine ⟨({ sb' with sbMb := sb'.sbMb ++ [record] }, clusters), ?_, ?_, rfl, ?_, ?_⟩
  · rw [sbappendrecord, hrun]
    rfl
  · rw [hspec.counted]
    exact hsound.insert hqueue hspec.good hspec.nonempty
  · rw [hspec.counted, denote_insert rfl, hspec.bytes_eq]
    rfl
  · rw [← hspec.ended, lastEnded]
    simp

theorem sbinsertoob_spec {m : Chain B} (hsound : Sound s) (hm : ∀ m' ∈ m, m'.Good s.2)
    (hne : m ≠ []) :
    ∃ s', sbinsertoob m s = .ok s' ∧ Sound s' ∧ s'.2 = s.2 ∧
      denote s' = (s.1.sbMb.takeWhile ledByOob).map (bytes s.2) ++
        bytes s.2 m :: (s.1.sbMb.dropWhile ledByOob).map (bytes s.2) := by
  obtain ⟨sb, clusters⟩ := s
  obtain ⟨m0, m, rfl⟩ := List.exists_cons_of_ne_nil hne
  obtain ⟨sb', record, hrun, hspec⟩ := startRecord_spec sb hm
  have hqueue : sb.sbMb = sb.sbMb.takeWhile ledByOob ++ sb.sbMb.dropWhile ledByOob :=
    List.takeWhile_append_dropWhile.symm
  refine ⟨({ sb' with
    sbMb := sb'.sbMb.takeWhile ledByOob ++ record :: sb'.sbMb.dropWhile ledByOob }, clusters),
      ?_, ?_, rfl, ?_⟩
  · rw [sbinsertoob, hrun]
    rfl
  · rw [hspec.counted]
    exact hsound.insert hqueue hspec.good hspec.nonempty
  · rw [hspec.counted, denote_insert rfl, hspec.bytes_eq]

/-- The data go behind those of the last record, or make the first one. -/
theorem sbappend_last {m : Chain B} (hsound : Sound s) (hm : ∀ m' ∈ m, m'.Good s.2)
    {front : List (Chain B)} {last : Chain B} (hqueue : s.1.sbMb = front ++ [last])
    (hended : last.any Mbuf.eor = false) (hne : m ≠ []) :
    ∃ s', sbappend m s = .ok s' ∧ Sound s' ∧ s'.2 = s.2 ∧
      denote s' = front.map (bytes s.2) ++ [bytes s.2 last ++ bytes s.2 m] ∧
      lastEnded s' = m.any Mbuf.eor := by
  obtain ⟨sb, clusters⟩ := s
  obtain ⟨hcc, hmbcnt, hnonempty, hgood⟩ := hsound
  dsimp only at hqueue hcc hmbcnt hnonempty hgood hm
  rw [hqueue, List.flatten_append, List.flatten_singleton] at hcc hmbcnt hgood
  rw [hqueue] at hnonempty
  obtain ⟨sb', record, hrun, hspec⟩ := sbcompress_spec sb
    (fun m hm ↦ hgood m (List.mem_append_right _ hm)) hm
  have hlast : record ≠ [] := hspec.nonempty (hnonempty last (by simp))
  refine ⟨({ sb' with sbMb := front ++ [record] }, clusters), ?_, ⟨?_, ?_, ?_, ?_⟩, rfl, ?_, ?_⟩
  · rw [sbappend, if_neg hne]
    simp only [hqueue, List.getLast?_concat, hended, Bool.false_eq_true, if_false, hrun]
    rw [hspec.counted]
    change Except.ok _ = _
    simp only [hqueue, List.dropLast_concat]
  · change sb'.sbCc = _
    rw [List.flatten_append, List.flatten_singleton, chainLen_append, hspec.len_eq, hspec.counted]
    simp only [hcc, chainLen_append]
    omega
  · change sb'.sbMbcnt = _
    rw [List.flatten_append, List.flatten_singleton, chainSpace_append, hspec.counted]
    simp only [hmbcnt, chainSpace_append]
    omega
  · intro r hr
    rcases List.mem_append.mp hr with hfront | hnew
    · exact hnonempty r (List.mem_append_left _ hfront)
    · exact List.mem_singleton.mp hnew ▸ hlast
  · intro m' hm'
    rw [List.flatten_append, List.flatten_singleton, List.mem_append] at hm'
    rcases hm' with hfront | hnew
    · exact hgood m' (List.mem_append_left _ hfront)
    · exact hspec.good m' hnew
  · rw [denote, List.map_append, List.map_singleton, hspec.bytes_eq]
  · rw [lastEnded]
    simp only [List.getLast?_concat, Option.any_some, hspec.ended, hended, Bool.false_or]

theorem sbappend_empty {m : Chain B} (hsound : Sound s) (hm : ∀ m' ∈ m, m'.Good s.2)
    (hqueue : s.1.sbMb = []) (hne : m ≠ []) :
    ∃ s', sbappend m s = .ok s' ∧ Sound s' ∧ s'.2 = s.2 ∧
      (denote s' = [bytes s.2 m] ∨ denote s' = [] ∧ bytes s.2 m = []) ∧
      lastEnded s' = m.any Mbuf.eor := by
  obtain ⟨sb, clusters⟩ := s
  have hnil : ∀ m' ∈ ([] : Chain B), m'.Good clusters := List.forall_mem_nil _
  obtain ⟨sb', record, hrun, hspec⟩ := sbcompress_spec sb hnil hm
  have hstart : sbappend m (sb, clusters) =
      .ok ({ sb' with sbMb := if record = [] then [] else [record] }, clusters) := by
    rw [sbappend, if_neg hne]
    simp only [show sb.sbMb = [] from hqueue, List.getLast?_nil, hrun]
    rfl
  have hcounted : sb'.sbCc = chainLen record ∧ sb'.sbMbcnt = chainSpace record := by
    have hcc : sb.sbCc = 0 := by
      rw [hsound.cc, hqueue]
      rfl
    have hmbcnt : sb.sbMbcnt = 0 := by
      rw [hsound.mbcnt, hqueue]
      rfl
    rw [hspec.counted, hspec.len_eq]
    simp [hcc, hmbcnt]
  have hbytes := hspec.bytes_eq
  have hended := hspec.ended
  rw [bytes_nil, List.nil_append] at hbytes
  rw [List.any_nil, Bool.false_or, Bool.false_or] at hended
  rw [hstart]
  by_cases hrecord : record = []
  · subst hrecord
    exact ⟨_, rfl, ⟨hcounted.1, hcounted.2, List.forall_mem_nil _, List.forall_mem_nil _⟩, rfl,
      .inr ⟨rfl, hbytes.symm⟩, hended⟩
  · rw [if_neg hrecord]
    refine ⟨_, rfl, ⟨?_, ?_, List.forall_mem_singleton.mpr hrecord, ?_⟩, rfl, .inl ?_, hended⟩
    · simpa using hcounted.1
    · simpa using hcounted.2
    · simpa using hspec.good
    · rw [denote, List.map_singleton, hbytes]

theorem sballocChain_eq (chain : Chain B) (sb : Sockbuf B) :
    sb.sballocChain chain = { sb with
      sbCc := sb.sbCc + chainLen chain
      sbMbcnt := sb.sbMbcnt + chainSpace chain } := by
  induction chain generalizing sb with
  | nil => simp [Sockbuf.sballocChain]
  | cons m chain ih =>
    rw [Sockbuf.sballocChain, List.foldl_cons]
    have hrest := ih (sb.sballoc m)
    rw [Sockbuf.sballocChain] at hrest
    rw [hrest, Sockbuf.sballoc]
    simp [Int.add_assoc]

/-- A record is put behind the others as it is. -/
theorem Sound.appendChain {record : Chain B} (hsound : Sound s) (hgood : ∀ m ∈ record, m.Good s.2)
    (hne : record ≠ []) :
    Sound ({ s.1.sballocChain record with
      sbMb := (s.1.sballocChain record).sbMb ++ [record] }, s.2) ∧
      denote ({ s.1.sballocChain record with
        sbMb := (s.1.sballocChain record).sbMb ++ [record] }, s.2) =
          denote s ++ [bytes s.2 record] := by
  rw [sballocChain_eq]
  constructor
  · exact hsound.insert (List.append_nil _).symm hgood hne
  · rw [denote, List.map_append, List.map_singleton]
    rfl

/-- The mbuf with the address. -/
theorem soname_spec {asa fresh : List B} (clusters : Clusters B) (hasa : asa.length ≤ mlen)
    (hfresh : fresh.length = mlen) :
    (⟨asa.length, 0, mtSoname, false, 0, none, overwrite fresh 0 asa⟩ : Mbuf B).Good clusters ∧
      (⟨asa.length, 0, mtSoname, false, 0, none, overwrite fresh 0 asa⟩ : Mbuf B).bytes clusters =
        asa := by
  have hlength : (overwrite fresh 0 asa).length = mlen := by
    rw [length_overwrite (by omega), hfresh]
  refine ⟨⟨?_, hlength⟩, ?_⟩
  · change 0 + asa.length ≤ (overwrite fresh 0 asa).length
    omega
  · change ((overwrite fresh 0 asa).drop 0).take asa.length = asa
    rw [List.drop_zero, overwrite, List.take_zero, List.nil_append, List.take_left]

end Bsd386.Kern.SocketBuffer
