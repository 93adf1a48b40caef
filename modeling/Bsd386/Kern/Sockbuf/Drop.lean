import Bsd386.Kern.Sockbuf.Append

/-!
# Dropping from a socket buffer

`sbdrop` removes bytes from the front of the list of records, with the records that it empties.
-/

namespace Bsd386.Kern.SocketBuffer

variable {B : Type} {s : State B} {sb sb' : Sockbuf B} {clusters : Clusters B}

/-- Drop bytes from a list of records, with those records that this empties. -/
def dropBytes : ℕ → List (List B) → List (List B)
  | _, [] => []
  | len, record :: records =>
    if len < record.length then record.drop len :: records
    else if len = record.length then records
    else dropBytes (len - record.length) records

theorem dropBytes_cons {len : ℕ} {record : List B} {records : List (List B)} :
    dropBytes len (record :: records) =
      if len < record.length then record.drop len :: records
      else if len = record.length then records
      else dropBytes (len - record.length) records :=
  rfl

theorem flatten_dropBytes (len : ℕ) (records : List (List B)) :
    (dropBytes len records).flatten = records.flatten.drop len := by
  induction records generalizing len with
  | nil => exact (List.drop_nil).symm
  | cons record records ih =>
    rw [dropBytes_cons, List.flatten_cons, List.drop_append]
    split_ifs with hlt heq
    · rw [List.flatten_cons, Nat.sub_eq_zero_of_le (Nat.le_of_lt hlt), List.drop_zero]
    · rw [heq, List.drop_length, Nat.sub_self, List.drop_zero, List.nil_append]
    · rw [ih, List.drop_eq_nil_of_le (Nat.le_of_not_lt hlt), List.nil_append]

/-- A record goes when no more than its bytes are left. -/
theorem length_dropBytes_lt {len : ℕ} {record : List B} (records : List (List B))
    (hle : record.length ≤ len) :
    (dropBytes len (record :: records)).length < (record :: records).length := by
  have hmono : ∀ (records : List (List B)) (len : ℕ),
      (dropBytes len records).length ≤ records.length := by
    intro records
    induction records with
    | nil => exact fun _ ↦ Nat.le_refl 0
    | cons record records ih =>
      intro len
      rw [dropBytes_cons]
      split_ifs
      · exact Nat.le_refl _
      · exact Nat.le_succ _
      · exact Nat.le_succ_of_le (ih _)
  rw [dropBytes_cons, if_neg (Nat.not_lt.mpr hle)]
  split_ifs
  · exact Nat.lt_succ_self _
  · exact Nat.lt_succ_of_le (hmono _ _)

/-! ### The loops -/

/-- A part of a queue is left, and the counters with it. -/
structure Left (clusters : Clusters B) (sb : Sockbuf B) (chain : Chain B) (sb' : Sockbuf B)
    (chain' : Chain B) : Prop where
  good : ∀ m ∈ chain', m.Good clusters
  counted : sb' = { sb with
    sbCc := sb.sbCc - chainLen chain + chainLen chain'
    sbMbcnt := sb.sbMbcnt - chainSpace chain + chainSpace chain' }

theorem Left.refl {chain : Chain B} (hgood : ∀ m ∈ chain, m.Good clusters) :
    Left clusters sb chain sb chain := by
  refine ⟨hgood, ?_⟩
  rw [Int.sub_add_cancel, Int.sub_add_cancel]

theorem Left.trans {chain₁ chain₂ chain₃ : Chain B} {sb₁ sb₂ sb₃ : Sockbuf B}
    (h₁ : Left clusters sb₁ chain₁ sb₂ chain₂) (h₂ : Left clusters sb₂ chain₂ sb₃ chain₃) :
    Left clusters sb₁ chain₁ sb₃ chain₃ := by
  refine ⟨h₂.good, ?_⟩
  rw [h₂.counted, h₁.counted]
  simp only [Sockbuf.mk.injEq, true_and, and_true]
  omega

/-- More mbufs behind. -/
theorem Left.append {chain₁ chain₂ rest : Chain B} (h : Left clusters sb chain₁ sb' chain₂)
    (hrest : ∀ m ∈ rest, m.Good clusters) :
    Left clusters sb (chain₁ ++ rest) sb' (chain₂ ++ rest) := by
  refine ⟨fun m hm ↦ (List.mem_append.mp hm).elim (h.good m) (hrest m), ?_⟩
  rw [h.counted]
  simp only [Sockbuf.mk.injEq, true_and, and_true, chainLen_append, chainSpace_append]
  omega

/-- The first mbuf is freed. -/
theorem Left.free {m : Mbuf B} {chain : Chain B} (hgood : ∀ m ∈ chain, m.Good clusters) :
    Left clusters sb (m :: chain) (sb.sbfree m) chain := by
  refine ⟨hgood, ?_⟩
  rw [Sockbuf.sbfree, chainLen_cons, chainSpace_cons]
  simp only [Sockbuf.mk.injEq, true_and, and_true]
  omega

/-- Bytes are taken from the front of an mbuf. -/
theorem trimmed_spec {m : Mbuf B} {len : ℕ} (hgood : m.Good clusters) (hle : len ≤ m.mLen) :
    ({ m with mLen := m.mLen - len, mData := m.mData + len } : Mbuf B).Good clusters ∧
      ({ m with mLen := m.mLen - len, mData := m.mData + len } : Mbuf B).bytes clusters =
        (m.bytes clusters).drop len := by
  have hinside := hgood.inside
  constructor
  · refine ⟨?_, hgood.mlen_eq⟩
    change m.mData + len + (m.mLen - len) ≤ (m.storage clusters).length
    omega
  · change ((m.storage clusters).drop (m.mData + len)).take (m.mLen - len) = _
    rw [Mbuf.bytes, List.drop_take, List.drop_drop]

/-- The loop of `sbdrop` in one chain. -/
theorem consume_spec {chain : Chain B} (len : ℕ) (sb : Sockbuf B)
    (hgood : ∀ m ∈ chain, m.Good clusters) :
    ∃ chain' len' sb', consume chain len sb = (chain', len', sb') ∧
      Left clusters sb chain sb' chain' ∧ bytes clusters chain' = (bytes clusters chain).drop len ∧
      len' = len - chainLen chain ∧ (len' ≠ 0 → chain' = []) := by
  induction chain generalizing len sb with
  | nil => exact ⟨[], len, sb, rfl, Left.refl hgood, by simp, by simp, fun _ ↦ rfl⟩
  | cons m chain ih =>
    have hm := hgood m List.mem_cons_self
    have hchain : ∀ m' ∈ chain, m'.Good clusters := fun m' hm' ↦
      hgood m' (List.mem_cons_of_mem m hm')
    have hlength := hm.length_bytes
    rw [consume]
    by_cases hzero : len = 0
    · rw [if_pos hzero, hzero]
      exact ⟨_, 0, sb, rfl, Left.refl hgood, rfl, (Nat.zero_sub _).symm, fun h ↦ absurd rfl h⟩
    rw [if_neg hzero]
    by_cases hpart : len < m.mLen
    · rw [if_pos hpart]
      obtain ⟨hgood', hbytes⟩ := trimmed_spec hm (Nat.le_of_lt hpart)
      refine ⟨_, 0, _, rfl, ⟨List.forall_mem_cons.mpr ⟨hgood', hchain⟩, ?_⟩, ?_, ?_,
        fun h ↦ absurd rfl h⟩
      · rw [chainLen_cons, chainLen_cons, chainSpace_cons, chainSpace_cons]
        simp only [Sockbuf.mk.injEq, true_and, and_true]
        constructor
        · omega
        · change sb.sbMbcnt = sb.sbMbcnt - (m.space + chainSpace chain) +
            (m.space + chainSpace chain)
          omega
      · rw [bytes_cons, hbytes, bytes_cons, List.drop_append_of_le_length (by omega)]
      · rw [chainLen_cons]
        omega
    · rw [if_neg hpart]
      obtain ⟨chain', len', sb', hrun, hleft, hbytes, hlen', hnil⟩ :=
        ih (len - m.mLen) (sb.sbfree m) hchain
      refine ⟨chain', len', sb', hrun, (Left.free hchain).trans hleft, ?_, ?_, hnil⟩
      · have hgone : (m.bytes clusters).drop len = [] := List.drop_eq_nil_of_le (by omega)
        rw [hbytes, bytes_cons, List.drop_append, hgone, List.nil_append, hlength]
      · rw [hlen', chainLen_cons, Nat.sub_sub]

theorem dropEmpty_spec {chain : Chain B} (sb : Sockbuf B) (hgood : ∀ m ∈ chain, m.Good clusters) :
    ∃ chain' sb', dropEmpty chain sb = (chain', sb') ∧ Left clusters sb chain sb' chain' ∧
      bytes clusters chain' = bytes clusters chain ∧ (bytes clusters chain = [] ↔ chain' = []) := by
  induction chain generalizing sb with
  | nil => exact ⟨[], sb, rfl, Left.refl hgood, rfl, iff_of_true rfl rfl⟩
  | cons m chain ih =>
    have hm := hgood m List.mem_cons_self
    have hchain : ∀ m' ∈ chain, m'.Good clusters := fun m' hm' ↦
      hgood m' (List.mem_cons_of_mem m hm')
    rw [dropEmpty]
    by_cases hzero : m.mLen = 0
    · rw [if_pos hzero, bytes_cons, bytes_eq_nil_of_mLen hzero, List.nil_append]
      obtain ⟨chain', sb', hrun, hleft, hrest⟩ := ih (sb.sbfree m) hchain
      exact ⟨chain', sb', hrun, (Left.free hchain).trans hleft, hrest⟩
    · rw [if_neg hzero]
      refine ⟨_, sb, rfl, Left.refl hgood, rfl, iff_of_false ?_ (List.cons_ne_nil _ _)⟩
      intro hnil
      have hlength := congrArg List.length hnil
      rw [bytes_cons, List.length_append, hm.length_bytes, List.length_nil] at hlength
      omega

/-- The first record has all the bytes to drop. -/
theorem sbdropLoop_here (next : List (Chain B)) (sb : Sockbuf B) {m : Chain B} {len : ℕ}
    (hm : ∀ m' ∈ m, m'.Good clusters) (hlen : len ≤ chainLen m) :
    ∃ m' sb', sbdropLoop m next len sb = .ok (m', next, sb') ∧ Left clusters sb m sb' m' ∧
      dropBytes len (bytes clusters m :: next.map (bytes clusters)) =
        if bytes clusters m' = [] then next.map (bytes clusters)
        else bytes clusters m' :: next.map (bytes clusters) := by
  have hlength := length_bytes hm
  obtain ⟨m', len', sb', hrun, hleft, hbytes, hlen', -⟩ := consume_spec len sb hm
  have hzero : len' = 0 := by omega
  subst hzero
  refine ⟨m', sb', ?_, hleft, ?_⟩
  · cases next with
    | nil => rw [sbdropLoop, hrun]
    | cons record next => rw [sbdropLoop, hrun]
  · rw [dropBytes_cons, hbytes, hlength]
    by_cases hlt : len < chainLen m
    · have hne : (bytes clusters m).drop len ≠ [] := fun h ↦ by
        have hdrop := congrArg List.length h
        rw [List.length_drop, hlength, List.length_nil] at hdrop
        omega
      rw [if_pos hlt, if_neg hne]
    · have heq : len = chainLen m := by omega
      rw [if_neg hlt, if_pos heq, if_pos (List.drop_eq_nil_of_le (by omega))]

/-- The loop of `sbdrop`. -/
theorem sbdropLoop_spec {next : List (Chain B)} {m : Chain B} (len : ℕ) (sb : Sockbuf B)
    (hm : ∀ m' ∈ m, m'.Good clusters) (hnext : ∀ m' ∈ next.flatten, m'.Good clusters)
    (hlen : len ≤ chainLen m + chainLen next.flatten) :
    ∃ m' next' sb', sbdropLoop m next len sb = .ok (m', next', sb') ∧ next' <:+ next ∧
      Left clusters sb (m ++ next.flatten) sb' (m' ++ next'.flatten) ∧
      dropBytes len (bytes clusters m :: next.map (bytes clusters)) =
        if bytes clusters m' = [] then next'.map (bytes clusters)
        else bytes clusters m' :: next'.map (bytes clusters) := by
  induction next generalizing m len sb with
  | nil =>
    obtain ⟨m', sb', hrun, hleft, hdrop⟩ := sbdropLoop_here [] sb hm (by simpa using hlen)
    exact ⟨m', [], sb', hrun, List.suffix_refl _, hleft.append hnext, hdrop⟩
  | cons record next ih =>
    by_cases hhere : len ≤ chainLen m
    · obtain ⟨m', sb', hrun, hleft, hdrop⟩ := sbdropLoop_here (record :: next) sb hm hhere
      exact ⟨m', record :: next, sb', hrun, List.suffix_refl _, hleft.append hnext, hdrop⟩
    · have hlength := length_bytes hm
      obtain ⟨m', len', sb₁, hrun, hleft, -, hlen', hnil⟩ := consume_spec len sb hm
      have hpos : len' ≠ 0 := by omega
      have hempty := hnil hpos
      subst hempty
      obtain ⟨k, rfl⟩ := Nat.exists_eq_succ_of_ne_zero hpos
      rw [List.flatten_cons] at hnext hlen
      rw [chainLen_append] at hlen
      obtain ⟨m', next', sb', hloop, hsuffix, hrest, hdrop⟩ :=
        ih (k + 1) sb₁ (fun m' hm' ↦ hnext m' (List.mem_append_left _ hm'))
          (fun m' hm' ↦ hnext m' (List.mem_append_right _ hm')) (by omega)
      refine ⟨m', next', sb', ?_, hsuffix.trans (List.suffix_cons _ _), ?_, ?_⟩
      · rw [sbdropLoop, hrun]
        exact hloop
      · rw [List.flatten_cons]
        exact (hleft.append hnext).trans hrest
      · rw [← hdrop, dropBytes_cons, if_neg (by omega), if_neg (by omega), hlength, ← hlen',
          List.map_cons]

/-- The loop of `sbdrop` runs out of records. -/
theorem sbdropLoop_over {next : List (Chain B)} {m : Chain B} (len : ℕ) (sb : Sockbuf B)
    (hm : ∀ m' ∈ m, m'.Good clusters) (hnext : ∀ m' ∈ next.flatten, m'.Good clusters)
    (hlen : chainLen m + chainLen next.flatten < len) :
    sbdropLoop m next len sb = .error (.panic "sbdrop") := by
  induction next generalizing m len sb with
  | nil =>
    obtain ⟨m', len', sb', hrun, -, -, hlen', -⟩ := consume_spec len sb hm
    rw [List.flatten_nil, chainLen_nil] at hlen
    obtain ⟨k, rfl⟩ := Nat.exists_eq_succ_of_ne_zero (show len' ≠ 0 by omega)
    rw [sbdropLoop, hrun]
  | cons record next ih =>
    obtain ⟨m', len', sb', hrun, -, -, hlen', -⟩ := consume_spec len sb hm
    rw [List.flatten_cons] at hnext hlen
    rw [chainLen_append] at hlen
    obtain ⟨k, rfl⟩ := Nat.exists_eq_succ_of_ne_zero (show len' ≠ 0 by omega)
    rw [sbdropLoop, hrun]
    exact ih (k + 1) sb' (fun m' hm' ↦ hnext m' (List.mem_append_left _ hm'))
      (fun m' hm' ↦ hnext m' (List.mem_append_right _ hm')) (by omega)

theorem headD_append_tail (records : List (Chain B)) :
    records.headD [] ++ records.tail.flatten = records.flatten := by
  cases records <;> rfl

theorem sbdrop_over {len : ℕ} (hsound : Sound s) (hlen : chainLen s.1.sbMb.flatten < len) :
    sbdrop len s.1 = .error (.panic "sbdrop") := by
  have hgood := hsound.good
  rw [← headD_append_tail] at hgood hlen
  rw [chainLen_append] at hlen
  rw [sbdrop, sbdropLoop_over len s.1 (fun m hm ↦ hgood m (List.mem_append_left _ hm))
    (fun m hm ↦ hgood m (List.mem_append_right _ hm)) hlen]
  rfl

/-- `sbdrop` of no more bytes than there are. -/
theorem sbdrop_spec {len : ℕ} (hsound : Sound s) (hlen : len ≤ chainLen s.1.sbMb.flatten) :
    ∃ sb', sbdrop len s.1 = .ok sb' ∧ Sound (sb', s.2) ∧
      denote (sb', s.2) = dropBytes len (denote s) ∧ sb'.locked = s.1.locked := by
  obtain ⟨sb, clusters⟩ := s
  obtain ⟨hcc, hmbcnt, hnonempty, hgood⟩ := hsound
  dsimp only at hcc hmbcnt hnonempty hgood hlen ⊢
  rw [← headD_append_tail] at hcc hmbcnt hgood hlen
  rw [chainLen_append] at hlen
  obtain ⟨m, next, sb₁, hloop, hsuffix, hleft, hdrop⟩ := sbdropLoop_spec len sb
    (fun m' hm' ↦ hgood m' (List.mem_append_left _ hm'))
    (fun m' hm' ↦ hgood m' (List.mem_append_right _ hm')) hlen
  obtain ⟨m', sb₂, hempty, hleft', hbytes, hnil⟩ := dropEmpty_spec sb₁
    fun m' hm' ↦ hleft.good m' (List.mem_append_left _ hm')
  have hall := hleft.trans (hleft'.append fun m' hm' ↦ hleft.good m' (List.mem_append_right _ hm'))
  have hflatten : (if m' = [] then next else m' :: next).flatten = m' ++ next.flatten := by
    split_ifs with hm'
    · rw [hm', List.nil_append]
    · exact List.flatten_cons
  refine ⟨{ sb₂ with sbMb := if m' = [] then next else m' :: next }, ?_, ⟨?_, ?_, ?_, ?_⟩, ?_, ?_⟩
  · rw [sbdrop, hloop]
    change Except.ok _ = _
    rw [hempty]
  · dsimp only
    rw [hflatten, hall.counted, hcc]
    dsimp only
    omega
  · dsimp only
    rw [hflatten, hall.counted, hmbcnt]
    dsimp only
    omega
  · have htail : ∀ r ∈ next, r ≠ [] := fun r hr ↦
      hnonempty r (List.mem_of_mem_tail (hsuffix.subset hr))
    dsimp only
    split_ifs with hm'
    · exact htail
    · exact List.forall_mem_cons.mpr ⟨hm', htail⟩
  · dsimp only
    rw [hflatten]
    exact hall.good
  · have hqueue : dropBytes len (denote (sb, clusters)) =
        dropBytes len (bytes clusters (sb.sbMb.headD []) :: sb.sbMb.tail.map (bytes clusters)) := by
      rw [denote]
      dsimp only
      cases hmb : sb.sbMb with
      | nil =>
        rw [hmb] at hlen
        have hzero : len = 0 := Nat.le_zero.mp hlen
        rw [hzero]
        rfl
      | cons record next => rfl
    rw [hqueue, hdrop, denote]
    dsimp only
    by_cases hm' : m' = []
    · rw [if_pos hm', if_pos (hnil.mpr hm')]
    · rw [if_neg hm', if_neg (hnil.not.mpr hm'), List.map_cons, hbytes]
  · dsimp only
    rw [hall.counted]

/-! ### Dropping records -/

theorem foldl_sbfree (chain : Chain B) (sb : Sockbuf B) :
    chain.foldl Sockbuf.sbfree sb = { sb with
      sbCc := sb.sbCc - chainLen chain
      sbMbcnt := sb.sbMbcnt - chainSpace chain } := by
  induction chain generalizing sb with
  | nil => simp
  | cons m chain ih =>
    rw [List.foldl_cons, ih, Sockbuf.sbfree, chainLen_cons, chainSpace_cons]
    simp only [Sockbuf.mk.injEq, true_and, and_true]
    omega

theorem sbdroprecord_spec (hsound : Sound s) :
    Sound (sbdroprecord s.1, s.2) ∧ denote (sbdroprecord s.1, s.2) = (denote s).tail := by
  obtain ⟨sb, clusters⟩ := s
  dsimp only
  cases hmb : sb.sbMb with
  | nil =>
    have hsame : sbdroprecord sb = sb := by rw [sbdroprecord, hmb]
    rw [hsame]
    refine ⟨hsound, ?_⟩
    rw [denote]
    dsimp only
    rw [hmb]
    rfl
  | cons record next =>
    obtain ⟨hcc, hmbcnt, hnonempty, hgood⟩ := hsound
    dsimp only at hcc hmbcnt hnonempty hgood
    rw [hmb, List.flatten_cons] at hcc hmbcnt hgood
    rw [hmb] at hnonempty
    have hrun : sbdroprecord sb = { sb with
        sbCc := sb.sbCc - chainLen record
        sbMbcnt := sb.sbMbcnt - chainSpace record
        sbMb := next } := by
      rw [sbdroprecord, hmb]
      dsimp only
      rw [foldl_sbfree]
    rw [hrun]
    refine ⟨⟨?_, ?_, fun r hr ↦ hnonempty r (List.mem_cons_of_mem _ hr),
      fun m hm ↦ hgood m (List.mem_append_right _ hm)⟩, ?_⟩
    · dsimp only
      rw [hcc, chainLen_append]
      omega
    · dsimp only
      rw [hmbcnt, chainSpace_append]
      omega
    · rw [denote, denote]
      dsimp only
      rw [hmb]
      rfl

theorem chainSpace_nonneg (chain : Chain B) : 0 ≤ chainSpace chain := by
  induction chain with
  | nil => exact Int.le_refl 0
  | cons m chain ih =>
    have hpos : 0 < m.space := by
      rw [Mbuf.space, msize]
      cases m.ext <;> dsimp only <;> omega
    rw [chainSpace_cons]
    omega

/-- A socket buffer that counts no mbufs has none. -/
theorem Sound.eq_nil (hsound : Sound s) (hzero : s.1.sbMbcnt = 0) :
    s.1.sbMb = [] ∧ s.1.sbCc = 0 := by
  have hnil : s.1.sbMb = [] := by
    cases hmb : s.1.sbMb with
    | nil => rfl
    | cons record next =>
      have hmbcnt := hsound.mbcnt
      have hne := hsound.nonempty record (hmb ▸ List.mem_cons_self)
      obtain ⟨m, chain, rfl⟩ := List.exists_cons_of_ne_nil hne
      have hpos : 0 < m.space := by
        rw [Mbuf.space, msize]
        cases m.ext <;> dsimp only <;> omega
      have hchain := chainSpace_nonneg (chain ++ next.flatten)
      rw [hzero, hmb, List.flatten_cons, List.cons_append, chainSpace_cons] at hmbcnt
      omega
  have hcc := hsound.cc
  rw [hnil] at hcc
  exact ⟨hnil, hcc⟩

/-- The loop of `sbflush` ends. -/
theorem sbflushLoop_spec {fuel : ℕ} (hsound : Sound s) (hfuel : s.1.sbMb.length ≤ fuel) :
    ∃ sb', sbflushLoop fuel s.1 = .ok sb' ∧ Sound (sb', s.2) ∧ sb'.sbMbcnt = 0 := by
  induction fuel generalizing s with
  | zero =>
    have hnil : s.1.sbMb = [] := List.length_eq_zero_iff.mp (Nat.le_zero.mp hfuel)
    have hmbcnt := hsound.mbcnt
    rw [hnil] at hmbcnt
    have hzero : s.1.sbMbcnt = 0 := hmbcnt
    refine ⟨s.1, ?_, hsound, hzero⟩
    rw [sbflushLoop, if_pos hzero]
  | succ fuel ih =>
    rw [sbflushLoop]
    by_cases hzero : s.1.sbMbcnt = 0
    · rw [if_pos hzero]
      exact ⟨s.1, rfl, hsound, hzero⟩
    rw [if_neg hzero]
    have hcc : s.1.sbCc.toNat = chainLen s.1.sbMb.flatten := by
      rw [hsound.cc, Int.toNat_natCast]
    obtain ⟨sb', hrun, hsound', hdenote, -⟩ := sbdrop_spec hsound (Nat.le_refl _)
    have hshorter : sb'.sbMb.length < s.1.sbMb.length := by
      cases hmb : s.1.sbMb with
      | nil =>
        have hmbcnt := hsound.mbcnt
        rw [hmb] at hmbcnt
        exact absurd hmbcnt hzero
      | cons record next =>
        have hgood := hsound.good
        rw [hmb, List.flatten_cons] at hgood
        have hrecord := length_bytes fun m hm ↦ hgood m (List.mem_append_left _ hm)
        have hlength := congrArg List.length hdenote
        rw [denote, denote, hmb, List.map_cons, List.length_map] at hlength
        have hle : (bytes s.2 record).length ≤ chainLen (record :: next).flatten := by
          rw [hrecord, List.flatten_cons, chainLen_append]
          exact Nat.le_add_right _ _
        have hlt := length_dropBytes_lt (next.map (bytes s.2)) hle
        rw [← hlength, List.length_cons, List.length_map] at hlt
        exact hlt
    rw [hcc, hrun]
    exact ih hsound' (by dsimp only; omega)

theorem sbflush_spec (hsound : Sound s) (hlocked : s.1.locked = false) :
    ∃ sb', sbflush s.1 = .ok sb' ∧ Sound (sb', s.2) ∧ denote (sb', s.2) = [] := by
  obtain ⟨sb', hrun, hsound', hzero⟩ := sbflushLoop_spec hsound (Nat.le_refl _)
  obtain ⟨hnil, hcc⟩ := hsound'.eq_nil hzero
  refine ⟨sb', ?_, hsound', ?_⟩
  · rw [sbflush, hlocked, if_neg Bool.false_ne_true, hrun]
    change (if sb'.sbCc ≠ 0 ∨ sb'.sbMb ≠ [] then _ else _) = _
    have hempty : ¬(sb'.sbCc ≠ 0 ∨ sb'.sbMb ≠ []) :=
      not_or.mpr ⟨not_not.mpr hcc, not_not.mpr hnil⟩
    rw [if_neg hempty]
    rfl
  · rw [denote, hnil]
    rfl

end Bsd386.Kern.SocketBuffer
