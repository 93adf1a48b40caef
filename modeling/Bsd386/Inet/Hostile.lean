import Bsd386.Inet.Delivery

/-!
# Fragments of any origin

The fragments of a datagram need not be pieces of one payload: they may disagree, and one may end
behind the greatest length of a datagram. `ip_len` and `ip_off` are of type `short`, and such a
fragment leaves a trace in its queue, so that no datagram with a right length comes of it. Where all
fragments end in time, each byte of what is returned is one that arrived at its place.
-/

namespace Bsd386.Inet

open Kern.Socket

variable {H B : Type} {frags before after : List (Ipasfrag H B)} {f ip ip' : Ipasfrag H B}
  {p q : Packet H B} {log : List (Packet H B)}

/-- What `ipintr` has checked of a packet: the 13 bits of its offset, its lengths, and that its data
are as long as they say. -/
structure Accepted (p : Packet H B) : Prop where
  ipOff : p.ipOff < 8192
  hlen : 0 ≤ p.hlen
  hlen_le : p.hlen ≤ p.ipLen
  ipLen : p.ipLen ≤ 32767
  bytes_mbuf : ((Mbuf.bytes p.mbuf).length : ℤ) = p.ipLen - p.hlen

/-- Where a fragment ends in its datagram. -/
def Packet.ipEnd (p : Packet H B) : ℤ := p.ipOff * 8 + (p.ipLen - p.hlen)

/-- The fragment carries a byte at an offset of its datagram. -/
def Packet.Carries (p : Packet H B) (k : ℤ) (b : B) : Prop :=
  ∃ j : ℕ, (Mbuf.bytes p.mbuf)[j]? = some b ∧ p.ipOff * 8 + (j : ℤ) = k

/-! ## Lengths -/

/-- The length of a fragment is that of its data. -/
structure Sized (f : Ipasfrag H B) : Prop where
  ipLen_le : f.ipLen ≤ 32767
  bytes_mbuf : ((Mbuf.bytes f.mbuf).length : ℤ) = f.ipLen

theorem Sized.ipLen_nonneg (h : Sized f) : 0 ≤ f.ipLen := h.bytes_mbuf ▸ Int.natCast_nonneg _

theorem Sized.ipLen_trim (h : Sized f) {i : ℤ} (hpos : 0 < i) (hlt : i < f.ipLen) :
    (f.trim i).ipLen = f.ipLen - i := by
  have hle := h.ipLen_le
  exact toShort_of_mem (by omega) (by omega)

theorem Sized.trim (h : Sized f) {i : ℤ} (hpos : 0 < i) (hlt : i < f.ipLen) : Sized (f.trim i) := by
  have hle := h.ipLen_le
  have hbytes := h.bytes_mbuf
  refine ⟨?_, ?_⟩
  · rw [h.ipLen_trim hpos hlt]
    omega
  · rw [h.ipLen_trim hpos hlt]
    change ((Mbuf.bytes (Mbuf.mAdj f.mbuf i.toNat)).length : ℤ) = f.ipLen - i
    rw [Mbuf.bytes_mAdj, List.length_drop]
    omega

theorem Accepted.ipLen_asfrag (h : Accepted p) : p.asfrag.ipLen = p.ipLen - p.hlen := by
  have hhlen := h.hlen
  have hle := h.hlen_le
  have hlen := h.ipLen
  exact toShort_of_mem (by omega) (by omega)

theorem Accepted.sized (h : Accepted p) : Sized p.asfrag := by
  have hhlen := h.hlen
  have hlen := h.ipLen
  refine ⟨?_, ?_⟩
  · rw [h.ipLen_asfrag]
    omega
  · rw [h.ipLen_asfrag]
    exact h.bytes_mbuf

/-- A preceding segment leaves the fragment alone or trims a part of it. -/
theorem trimByPrev_cases {prev : Option (Ipasfrag H B)} (h : trimByPrev ip prev = some ip') :
    ip' = ip ∨ ∃ q, prev = some q ∧ 0 < q.ipEnd - ip.ipOff ∧ q.ipEnd - ip.ipOff < ip.ipLen ∧
      ip' = ip.trim (q.ipEnd - ip.ipOff) := by
  cases prev with
  | none => exact .inl (Option.some.inj h).symm
  | some q =>
    unfold trimByPrev at h
    simp only at h
    split_ifs at h with hpos hcover
    · exact .inr ⟨q, rfl, hpos, not_le.mp hcover, (Option.some.inj h).symm⟩
    · exact .inl (Option.some.inj h).symm

theorem Sized.trimByPrev {prev : Option (Ipasfrag H B)} (hip : Sized ip)
    (h : trimByPrev ip prev = some ip') : Sized ip' := by
  rcases trimByPrev_cases h with rfl | ⟨q, -, hpos, hlt, rfl⟩
  · exact hip
  · exact hip.trim hpos hlt

theorem trimNext_cons {e : ℤ} :
    trimNext e (f :: frags) =
      if f.ipOff < e then
        if e - f.ipOff < f.ipLen then f.trim (e - f.ipOff) :: frags else trimNext e frags
      else f :: frags :=
  rfl

/-- What is left of a succeeding segment is one of them, or the rest of one. -/
theorem mem_trimNext {e : ℤ} (hf : f ∈ trimNext e frags) :
    f ∈ frags ∨ ∃ q ∈ frags, 0 < e - q.ipOff ∧ e - q.ipOff < q.ipLen ∧
    f = q.trim (e - q.ipOff) := by
  induction frags with
  | nil => exact .inl hf
  | cons q rest ih =>
    rw [trimNext_cons] at hf
    split_ifs at hf with hover hpart
    · rcases List.mem_cons.mp hf with rfl | hf
      · exact .inr ⟨q, List.mem_cons_self, by omega, hpart, rfl⟩
      · exact .inl (List.mem_cons_of_mem q hf)
    · rcases ih hf with hmem | ⟨r, hr, hrest⟩
      · exact .inl (List.mem_cons_of_mem q hmem)
      · exact .inr ⟨r, List.mem_cons_of_mem q hr, hrest⟩
    · exact .inl hf

theorem sized_trimNext {e : ℤ} (h : ∀ f ∈ frags, Sized f) : ∀ f ∈ trimNext e frags, Sized f := by
  intro f hf
  rcases mem_trimNext hf with hmem | ⟨q, hq, hpos, hlt, rfl⟩
  · exact h f hmem
  · exact (h q hq).trim hpos hlt

/-! ## Fragments that end too late -/

/-- The fragment ends behind the last place of a `short`. -/
def Late (f : Ipasfrag H B) : Prop := 0 ≤ f.ipOff ∧ 32767 < f.ipEnd

/-- The queue has a trace of a fragment that ended too late: the first one begins before 0, or some
fragment still ends too late. -/
def Spoilt (frags : List (Ipasfrag H B)) : Prop :=
  (∃ first rest, frags = first :: rest ∧ first.ipOff < 0) ∨ ∃ f ∈ frags, Late f

theorem Late.of_ipEnd (h : Sized f) (hend : 32767 < f.ipEnd) : Late f := by
  have hle := h.ipLen_le
  unfold Ipasfrag.ipEnd at hend
  exact ⟨by omega, hend⟩

/-- A late fragment stays late, or what it makes room for is late. -/
theorem late_trimNext {e : ℤ} (hsized : ∀ f ∈ frags, Sized f) (h : ∃ f ∈ frags, Late f) :
    (∃ f ∈ trimNext e frags, Late f) ∨ 32767 < e := by
  induction frags with
  | nil => exact .inl h
  | cons q rest ih =>
    obtain ⟨hq, hrest⟩ := List.forall_mem_cons.mp hsized
    obtain ⟨f, hf, hoff, hend⟩ := h
    rw [trimNext_cons]
    split_ifs with hover hpart
    · rcases List.mem_cons.mp hf with rfl | hf
      · by_cases hlate : 32767 < e
        · exact .inr hlate
        · refine .inl ⟨_, List.mem_cons_self, ?_⟩
          have hoff' : (f.trim (e - f.ipOff)).ipOff = e :=
            (toShort_of_mem (by omega) (by omega)).trans (by omega)
          have hlen' := hq.ipLen_trim (show 0 < e - f.ipOff by omega) hpart
          unfold Ipasfrag.ipEnd at hend
          unfold Late Ipasfrag.ipEnd
          omega
      · exact .inl ⟨f, List.mem_cons_of_mem _ hf, hoff, hend⟩
    · rcases List.mem_cons.mp hf with rfl | hf
      · unfold Ipasfrag.ipEnd at hend
        exact .inr (by omega)
      · exact ih hrest ⟨f, hf, hoff, hend⟩
    · exact .inl ⟨f, hf, hoff, hend⟩

/-- A late fragment in front of which another is put stays, or the other one is late. -/
theorem late_insert (hafter : ∀ f ∈ after, Sized f)
    (hip : Sized ip) (h : ∃ f ∈ before ++ after, Late f) :
    ∃ f ∈ before ++ ip :: trimNext ip.ipEnd after, Late f := by
  obtain ⟨f, hf, hlate⟩ := h
  rcases List.mem_append.mp hf with hf | hf
  · exact ⟨f, List.mem_append_left _ hf, hlate⟩
  · rcases late_trimNext hafter ⟨f, hf, hlate⟩ with ⟨g, hg, hlate'⟩ | hend
    · exact ⟨g, List.mem_append_right _ (List.mem_cons_of_mem ip hg), hlate'⟩
    · exact ⟨ip, List.mem_append_right _ List.mem_cons_self, .of_ipEnd hip hend⟩

/-- The fragments of a queue that begin no later than another, and the others. -/
theorem exists_split (frags : List (Ipasfrag H B)) (off : ℤ) :
    ∃ before after, frags = before ++ after ∧
      (frags.takeWhile fun q ↦ q.ipOff ≤ off) = before ∧
      (frags.dropWhile fun q ↦ q.ipOff ≤ off) = after ∧ (∀ q ∈ before, q.ipOff ≤ off) ∧
      (before = [] → ∀ q rest, frags = q :: rest → off < q.ipOff) := by
  refine ⟨_, _, List.takeWhile_append_dropWhile.symm, rfl, rfl, fun q hq ↦ ?_, ?_⟩
  · have hle := List.mem_takeWhile_imp hq
    exact of_decide_eq_true hle
  · rintro hnil q rest rfl
    rw [List.takeWhile_cons] at hnil
    split_ifs at hnil with hle
    exact not_le.mp fun h ↦ hle (decide_eq_true h)

/-- What a fragment makes of a queue. -/
inductive Arrives (ip : Ipasfrag H B) : List (Ipasfrag H B) → Outcome H B → Prop
  | dropped {before after : List (Ipasfrag H B)} {prev : Ipasfrag H B} :
    (∀ q ∈ before, q.ipOff ≤ ip.ipOff) → prev ∈ before → ip.ipEnd ≤ prev.ipEnd →
      Arrives ip (before ++ after) .dropped
  | inserted {before after : List (Ipasfrag H B)} {ip' : Ipasfrag H B} :
    (∀ q ∈ before, q.ipOff ≤ ip.ipOff) →
      (before = [] → ∀ q rest, after = q :: rest → ip.ipOff < q.ipOff) →
      trimByPrev ip before.getLast? = some ip' →
      Arrives ip (before ++ after) (check (before ++ ip' :: trimNext ip'.ipEnd after))

theorem arrives (mget : Bool) (ip : Ipasfrag H B) (frags : List (Ipasfrag H B)) :
    Arrives ip frags (ipReass mget ip (some frags)) := by
  obtain ⟨before, after, hsplit, htake, hdrop, hbefore, hfirst⟩ := exists_split frags ip.ipOff
  rw [ipReass, htake, hdrop, hsplit]
  rcases htrim : trimByPrev ip before.getLast? with _ | ip'
  · cases hlast : before.getLast? with
    | none =>
      rw [hlast] at htrim
      cases htrim
    | some prev =>
      rw [hlast] at htrim
      have hmem := List.mem_of_getLast? hlast
      refine .dropped hbefore hmem ?_
      unfold trimByPrev at htrim
      simp only at htrim
      split_ifs at htrim with hpos hcover
      unfold Ipasfrag.ipEnd
      omega
  · refine .inserted hbefore (fun hnil q rest hafter ↦ ?_) htrim
    exact hfirst hnil q rest (by rw [hsplit, hnil, hafter, List.nil_append])

theorem spoilt_of_early {rest : List (Ipasfrag H B)} (hfirst : before = [] → f.ipOff < 0)
    (hbefore : ∀ q ∈ before, q.ipOff < 0) : Spoilt (before ++ f :: rest) := by
  cases before with
  | nil => exact .inl ⟨f, rest, rfl, hfirst rfl⟩
  | cons first before =>
    exact .inl ⟨first, before ++ f :: rest, rfl, hbefore first List.mem_cons_self⟩

/-- A spoilt queue stays spoilt. -/
theorem Spoilt.insert (h : Spoilt (before ++ after)) (hsized : ∀ f ∈ before ++ after, Sized f)
    (hip : Sized ip) (hfirst : before = [] → ∀ q rest, after = q :: rest → ip.ipOff < q.ipOff)
    (htrim : trimByPrev ip before.getLast? = some ip') :
    Spoilt (before ++ ip' :: trimNext ip'.ipEnd after) := by
  have hafter : ∀ f ∈ after, Sized f := fun f hf ↦ hsized f (List.mem_append_right _ hf)
  rcases h with ⟨first, rest, hsplit, hneg⟩ | hlate
  · cases before with
    | nil =>
      have hip' : ip = ip' := Option.some.inj htrim
      have hlt := hfirst rfl first rest hsplit
      exact .inl ⟨ip', _, rfl, hip' ▸ hlt.trans hneg⟩
    | cons b before =>
      obtain ⟨rfl, -⟩ := List.cons.inj hsplit
      exact .inl ⟨b, _, rfl, hneg⟩
  · exact .inr (late_insert hafter (hip.trimByPrev htrim) hlate)

/-- A fragment that ends too late spoils the queue. -/
theorem spoilt_of_late (hsized : ∀ f ∈ before, Sized f) (hip : Sized ip)
    (hlate : ip.ipOff < 0 ∨ Late ip) (hbefore : ∀ q ∈ before, q.ipOff ≤ ip.ipOff)
    (htrim : trimByPrev ip before.getLast? = some ip') {rest : List (Ipasfrag H B)} :
    Spoilt (before ++ ip' :: rest) := by
  rcases hlate with hneg | ⟨hoff, hend⟩
  · refine spoilt_of_early (fun hnil ↦ ?_) fun q hq ↦ (hbefore q hq).trans_lt hneg
    rw [hnil] at htrim
    have hip' : ip = ip' := Option.some.inj htrim
    exact hip' ▸ hneg
  · rcases trimByPrev_cases htrim with rfl | ⟨q, hlast, hpos, hlt, rfl⟩
    · exact .inr ⟨ip', List.mem_append_right _ List.mem_cons_self, hoff, hend⟩
    · have hq := List.mem_of_getLast? hlast
      by_cases hqend : q.ipEnd ≤ 32767
      · refine .inr ⟨_, List.mem_append_right _ List.mem_cons_self, ?_⟩
        have hoff' : (ip.trim (q.ipEnd - ip.ipOff)).ipOff = q.ipEnd :=
          (toShort_of_mem (by omega) (by omega)).trans (by omega)
        have hlen' := hip.ipLen_trim hpos hlt
        unfold Ipasfrag.ipEnd at hend
        refine ⟨by omega, ?_⟩
        rw [Ipasfrag.ipEnd, hoff', hlen']
        omega
      · exact .inr ⟨q, List.mem_append_left _ hq, .of_ipEnd (hsized q hq) (not_le.mp hqend)⟩

theorem spoilt_of_dropped (hsized : ∀ f ∈ before, Sized f) (hlate : ip.ipOff < 0 ∨ Late ip)
    (hbefore : ∀ q ∈ before, q.ipOff ≤ ip.ipOff) (hf : f ∈ before) (hend : ip.ipEnd ≤ f.ipEnd) :
    Spoilt (before ++ after) := by
  rcases hlate with hneg | ⟨-, hend'⟩
  · cases before with
    | nil => exact absurd hf List.not_mem_nil
    | cons first before =>
      exact .inl ⟨first, _, rfl, (hbefore first List.mem_cons_self).trans_lt hneg⟩
  · exact .inr ⟨f, List.mem_append_left _ hf, .of_ipEnd (hsized f hf) (hend'.trans_le hend)⟩

theorem Accepted.late_asfrag (h : Accepted p) (hend : 32767 < p.ipEnd) :
    p.asfrag.ipOff < 0 ∨ Late p.asfrag := by
  have hoff := h.ipOff
  have hlen := h.ipLen_asfrag
  by_cases hneg : p.asfrag.ipOff < 0
  · exact .inl hneg
  · have hoff' : p.asfrag.ipOff = p.ipOff * 8 := by
      change toShort (p.ipOff * 8) = p.ipOff * 8
      change ¬toShort (p.ipOff * 8) < 0 at hneg
      unfold toShort at hneg ⊢
      omega
    refine .inr ⟨not_lt.mp hneg, ?_⟩
    unfold Packet.ipEnd at hend
    rw [Ipasfrag.ipEnd, hoff', hlen]
    exact hend

/-! ## Fragments that end in time -/

/-- The fragment holds what has been carried to its place. -/
structure Exact (log : List (Packet H B)) (f : Ipasfrag H B) : Prop where
  ipOff_nonneg : 0 ≤ f.ipOff
  ipEnd_le : f.ipEnd ≤ 32767
  carried : ∀ (j : ℕ) (b : B), (Mbuf.bytes f.mbuf)[j]? = some b → ∃ q ∈ log,
    q.Carries (f.ipOff + j) b

theorem Exact.cons (h : Exact log f) (p : Packet H B) : Exact (p :: log) f where
  ipOff_nonneg := h.ipOff_nonneg
  ipEnd_le := h.ipEnd_le
  carried j b hb := by
    obtain ⟨q, hq, hcarries⟩ := h.carried j b hb
    exact ⟨q, List.mem_cons_of_mem p hq, hcarries⟩

theorem Exact.ipOff_trim (h : Exact log f) {i : ℤ} (hpos : 0 < i) (hlt : i < f.ipLen) :
    (f.trim i).ipOff = f.ipOff + i := by
  have hoff := h.ipOff_nonneg
  have hend := h.ipEnd_le
  unfold Ipasfrag.ipEnd at hend
  exact toShort_of_mem (by omega) (by omega)

theorem Exact.trim (h : Exact log f) (hf : Sized f) {i : ℤ} (hpos : 0 < i) (hlt : i < f.ipLen) :
    Exact log (f.trim i) := by
  have hoff := h.ipOff_trim hpos hlt
  have hlen := hf.ipLen_trim hpos hlt
  have hnonneg := h.ipOff_nonneg
  have hend := h.ipEnd_le
  refine ⟨by omega, ?_, fun j b hb ↦ ?_⟩
  · unfold Ipasfrag.ipEnd at hend ⊢
    omega
  · change (Mbuf.bytes (Mbuf.mAdj f.mbuf i.toNat))[j]? = some b at hb
    rw [Mbuf.bytes_mAdj, List.getElem?_drop] at hb
    obtain ⟨q, hq, hcarries⟩ := h.carried _ b hb
    refine ⟨q, hq, ?_⟩
    have hplace : (f.trim i).ipOff + j = f.ipOff + ((i.toNat + j : ℕ) : ℤ) := by omega
    rw [hplace]
    exact hcarries

theorem Accepted.exact (h : Accepted p) (hend : p.ipEnd ≤ 32767) : Exact (p :: log) p.asfrag := by
  have hoff := h.ipOff
  have hle := h.hlen_le
  unfold Packet.ipEnd at hend
  have hoff' : p.asfrag.ipOff = p.ipOff * 8 := toShort_of_mem (by omega) (by omega)
  refine ⟨by omega, ?_, fun j b hb ↦ ⟨p, List.mem_cons_self, j, hb, ?_⟩⟩
  · rw [Ipasfrag.ipEnd, hoff', h.ipLen_asfrag]
    exact hend
  · rw [hoff']

theorem Exact.trimByPrev {prev : Option (Ipasfrag H B)} (h : Exact log ip) (hip : Sized ip)
    (htrim : trimByPrev ip prev = some ip') : Exact log ip' := by
  rcases trimByPrev_cases htrim with rfl | ⟨q, -, hpos, hlt, rfl⟩
  · exact h
  · exact h.trim hip hpos hlt

theorem exact_trimNext {e : ℤ} (hsized : ∀ f ∈ frags, Sized f) (h : ∀ f ∈ frags, Exact log f) :
    ∀ f ∈ trimNext e frags, Exact log f := by
  intro f hf
  rcases mem_trimNext hf with hmem | ⟨q, hq, hpos, hlt, rfl⟩
  · exact h f hmem
  · exact (h q hq).trim (hsized q hq) hpos hlt

/-! ## One queue -/

/-- The fragments of a queue, and those that have been given to it. -/
structure Lives (log : List (Packet H B)) (frags : List (Ipasfrag H B)) : Prop where
  sized : ∀ f ∈ frags, Sized f
  spoilt : (∃ q ∈ log, 32767 < q.ipEnd) → Spoilt frags
  exact : (∀ q ∈ log, q.ipEnd ≤ 32767) → ∀ f ∈ frags, Exact log f

theorem Lives.singleton (hp : Accepted p) : Lives [p] [p.asfrag] where
  sized := List.forall_mem_singleton.mpr hp.sized
  spoilt := by
    rintro ⟨q, hq, hend⟩
    rw [List.mem_singleton.mp hq] at hend
    rcases hp.late_asfrag hend with hneg | hlate
    · exact .inl ⟨p.asfrag, [], rfl, hneg⟩
    · exact .inr ⟨p.asfrag, List.mem_cons_self, hlate⟩
  exact hends := List.forall_mem_singleton.mpr (hp.exact (hends p List.mem_cons_self))

variable {o : Outcome H B}

/-- A fragment that arrives is dropped or put into the queue. -/
theorem Lives.arrives (h : Lives log frags) (hp : Accepted p) (ho : Arrives p.asfrag frags o) :
    (o = .dropped ∧ Lives (p :: log) frags) ∨
      ∃ frags', o = check frags' ∧ Lives (p :: log) frags' := by
  have hip := hp.sized
  have hends : (∃ q ∈ p :: log, 32767 < q.ipEnd) →
      (p.asfrag.ipOff < 0 ∨ Late p.asfrag) ∨ Spoilt frags := by
    rintro ⟨q, hq, hend⟩
    rcases List.mem_cons.mp hq with rfl | hq
    · exact .inl (hp.late_asfrag hend)
    · exact .inr (h.spoilt ⟨q, hq, hend⟩)
  have hexact : (∀ q ∈ p :: log, q.ipEnd ≤ 32767) → ∀ f ∈ frags, Exact (p :: log) f := by
    intro hall f hf
    obtain ⟨-, hlog⟩ := List.forall_mem_cons.mp hall
    exact (h.exact hlog f hf).cons p
  cases ho with
  | @dropped before after prev hbefore hprev hend =>
    have hsized : ∀ f ∈ before, Sized f := fun f hf ↦ h.sized f (List.mem_append_left _ hf)
    refine .inl ⟨rfl, h.sized, fun hlate ↦ ?_, hexact⟩
    rcases hends hlate with hlate | hspoilt
    · exact spoilt_of_dropped hsized hlate hbefore hprev hend
    · exact hspoilt
  | @inserted before after ip' hbefore hfirst htrim =>
    obtain ⟨hleft, hright⟩ := List.forall_mem_append.mp h.sized
    refine .inr ⟨_, rfl, ?_, fun hlate ↦ ?_, fun hall ↦ ?_⟩
    · exact List.forall_mem_append.mpr ⟨hleft,
        List.forall_mem_cons.mpr ⟨hip.trimByPrev htrim, sized_trimNext hright⟩⟩
    · rcases hends hlate with hlate | hspoilt
      · exact spoilt_of_late hleft hip hlate hbefore htrim
      · exact hspoilt.insert h.sized hip hfirst htrim
    · obtain ⟨hleft', hright'⟩ := List.forall_mem_append.mp (hexact hall)
      have hip' : Exact (p :: log) ip' :=
        (hp.exact (hall p List.mem_cons_self)).trimByPrev hip htrim
      exact List.forall_mem_append.mpr ⟨hleft',
        List.forall_mem_cons.mpr ⟨hip', exact_trimNext hright hright'⟩⟩

/-! ## What is returned -/

variable {a e next : ℤ}

/-- The length is right, and each byte has been carried to its place. -/
structure Faithful (log : List (Packet H B)) (ipLen : ℤ) (mbuf : List (Mbuf B)) : Prop where
  ipLen_nonneg : 0 ≤ ipLen
  length : ipLen = (Mbuf.bytes mbuf).length
  carried : ∀ (k : ℕ) (b : B), (Mbuf.bytes mbuf)[k]? = some b → ∃ q ∈ log, q.Carries k b

theorem length_of_tiles (hsized : ∀ f ∈ frags, Sized f)
    (h : Ranges.Tiles Ipasfrag.ipOff Ipasfrag.ipEnd a frags e) :
    ((frags.flatMap fun q ↦ Mbuf.bytes q.mbuf).length : ℤ) = e - a := by
  induction frags generalizing a with
  | nil =>
    obtain rfl : a = e := h
    exact (sub_self a).symm
  | cons q rest ih =>
    obtain ⟨rfl, hrest⟩ := h
    obtain ⟨hq, hsized⟩ := List.forall_mem_cons.mp hsized
    have hbytes := hq.bytes_mbuf
    have htail := ih hsized hrest
    rw [List.flatMap_cons, List.length_append]
    unfold Ipasfrag.ipEnd at htail
    omega

theorem byte_of_tiles {k : ℕ} {b : B} (hsized : ∀ f ∈ frags, Sized f)
    (h : Ranges.Tiles Ipasfrag.ipOff Ipasfrag.ipEnd a frags e)
    (hb : (frags.flatMap fun q ↦ Mbuf.bytes q.mbuf)[k]? = some b) :
    ∃ f ∈ frags, ∃ j : ℕ, (Mbuf.bytes f.mbuf)[j]? = some b ∧ f.ipOff + j = a + k := by
  induction frags generalizing a k with
  | nil => cases hb
  | cons q rest ih =>
    obtain ⟨rfl, hrest⟩ := h
    obtain ⟨hq, hsized⟩ := List.forall_mem_cons.mp hsized
    have hbytes := hq.bytes_mbuf
    rw [List.flatMap_cons, List.getElem?_append] at hb
    split_ifs at hb with hlt
    · exact ⟨q, List.mem_cons_self, k, hb, rfl⟩
    · obtain ⟨f, hf, j, hj, hplace⟩ := ih hsized hrest hb
      refine ⟨f, List.mem_cons_of_mem q hf, j, hj, ?_⟩
      unfold Ipasfrag.ipEnd at hplace
      omega

theorem ipEnd_le_of_tiles (hsized : ∀ f ∈ frags, Sized f)
    (h : Ranges.Tiles Ipasfrag.ipOff Ipasfrag.ipEnd a frags e) (hf : f ∈ frags) : f.ipEnd ≤ e := by
  induction frags generalizing a with
  | nil => exact absurd hf List.not_mem_nil
  | cons q rest ih =>
    obtain ⟨-, hrest⟩ := h
    obtain ⟨-, hsized'⟩ := List.forall_mem_cons.mp hsized
    rcases List.mem_cons.mp hf with rfl | hf
    · refine hrest.le fun r hr ↦ ?_
      have hlen := (hsized' r hr).ipLen_nonneg
      unfold Ipasfrag.ipEnd
      omega
    · exact ih hsized' hrest hf

theorem le_of_tiles {bound : ℤ} (h : Ranges.Tiles Ipasfrag.ipOff Ipasfrag.ipEnd a frags e)
    (ha : a ≤ bound) (hends : ∀ f ∈ frags, f.ipEnd ≤ bound) : e ≤ bound := by
  induction frags generalizing a with
  | nil =>
    obtain rfl : a = e := h
    exact ha
  | cons q rest ih =>
    obtain ⟨hq, hrest⟩ := List.forall_mem_cons.mp hends
    exact ih h.2 hq hrest

/-- A spoilt queue has more bytes than a `short` can say. -/
theorem Spoilt.lt_of_tiles (h : Spoilt frags) (hsized : ∀ f ∈ frags, Sized f)
    (htiles : Ranges.Tiles Ipasfrag.ipOff Ipasfrag.ipEnd 0 frags e) : 32767 < e := by
  rcases h with ⟨first, rest, rfl, hneg⟩ | ⟨f, hf, -, hend⟩
  · exact absurd htiles.1 hneg.ne
  · exact hend.trans_le (ipEnd_le_of_tiles hsized htiles hf)

/-- What is put together is right just if all fragments have ended in time. -/
theorem Lives.faithful_iff (h : Lives log frags) (hnext : checkFrom 0 frags = some next) :
    Faithful log (toShort next) (concatenate frags) ↔ ∀ q ∈ log, q.ipEnd ≤ 32767 := by
  have htiles := checkFrom_eq_some.mp hnext
  have hlength := length_of_tiles h.sized htiles
  constructor
  · intro hfaithful q hq
    by_contra hlate
    have hlt := (h.spoilt ⟨q, hq, not_le.mp hlate⟩).lt_of_tiles h.sized htiles
    have hlen := hfaithful.length
    rw [bytes_concatenate, hlength] at hlen
    unfold toShort at hlen
    omega
  · intro hends
    have hexact := h.exact hends
    have hle : next ≤ 32767 :=
      le_of_tiles htiles (by decide) fun f hf ↦ (hexact f hf).ipEnd_le
    have hshort : toShort next = next := toShort_of_mem (by omega) hle
    refine ⟨by omega, ?_, fun k b hb ↦ ?_⟩
    · rw [bytes_concatenate, hlength, hshort]
      exact (sub_zero next).symm
    · rw [bytes_concatenate] at hb
      obtain ⟨f, hf, j, hj, hplace⟩ := byte_of_tiles h.sized htiles hb
      rw [zero_add] at hplace
      exact hplace ▸ (hexact f hf).carried j b hj

theorem check_cases (frags : List (Ipasfrag H B)) :
    check frags = .queued frags ∨ ∃ next hdr, checkFrom 0 frags = some next ∧
      check frags = .complete hdr (toShort next) (concatenate frags) := by
  unfold check
  rcases checkFrom 0 frags with _ | next
  · exact .inl rfl
  rcases frags.head? with _ | first
  · exact .inl rfl
  rcases frags.getLast? with _ | last
  · exact .inl rfl
  by_cases hmff : last.ipfMff = true
  · exact .inl (if_pos hmff)
  · exact .inr ⟨next, first.hdr, rfl, if_neg hmff⟩

/-! ## All queues -/

/-- `ipintr` gives the packet to `ip_reass`. -/
def Packet.Fragment (p : Packet H B) : Prop := p.ipMf = true ∨ p.ipOff ≠ 0

instance (p : Packet H B) : Decidable p.Fragment := inferInstanceAs (Decidable (_ ∨ _))

variable {queues : List (Ipq H B)} {key : Datagram} {logs : Datagram → List (Packet H B)}

theorem Accepted.ipintr_fragment (hp : Accepted p) (hfrag : p.Fragment) (queues : List (Ipq H B))
    (mget : Bool) : ipintr queues mget p =
      (ipReass mget p.asfrag (fragsOf queues p.datagram)).settle queues p.datagram := by
  have hlt := hp.ipOff
  have hreass : p.asfrag.ipfMff = true ∨ p.asfrag.ipOff ≠ 0 := by
    refine hfrag.imp_right fun hne ↦ ?_
    change toShort (p.ipOff * 8) ≠ 0
    unfold toShort
    omega
  rw [Inet.ipintr, if_pos (.inr hfrag)]
  exact if_pos hreass

theorem ipintr_of_not_fragment (hfrag : ¬p.Fragment) (queues : List (Ipq H B)) (mget : Bool) :
    ipintr queues mget p = (none, queues) ∨
      ipintr queues mget p = (none, remque queues p.datagram) := by
  obtain ⟨hmf, hoff⟩ := not_or.mp hfrag
  have hreass : ¬(p.asfrag.ipfMff = true ∨ p.asfrag.ipOff ≠ 0) := by
    refine not_or.mpr ⟨hmf, not_not.mpr ?_⟩
    change toShort (p.ipOff * 8) = 0
    rw [not_not.mp hoff]
    rfl
  rw [Inet.ipintr]
  by_cases hany : p.reserved = true ∨ p.ipMf = true ∨ p.ipOff ≠ 0
  · rw [if_pos hany]
    exact .inr (if_neg hreass)
  · exact .inl (if_neg hany)

/-- The fragments that have been given to the queue of each datagram, after a packet. -/
def logsAfter (queues : List (Ipq H B)) (p : Packet H B) (logs : Datagram → List (Packet H B)) :
    Datagram → List (Packet H B) := fun key ↦
  if (fragsOf queues key).isNone then []
  else if p.datagram = key ∧ p.Fragment then p :: logs key else logs key

/-- Packets that `ipintr` accepts have arrived, of any origin, when there was a buffer for a queue
and when there was none. For each datagram the fragments are recorded that have been given to the
queue it has now. -/
inductive Arrivals : List (Ipq H B) → (Datagram → List (Packet H B)) → Prop
  | init : Arrivals [] fun _ ↦ []
  | packet {queues : List (Ipq H B)} {logs : Datagram → List (Packet H B)} (mget : Bool)
    (p : Packet H B) : Arrivals queues logs → Accepted p →
      Arrivals (ipintr queues mget p).2 (logsAfter (ipintr queues mget p).2 p logs)

/-- What the queue of a datagram holds, if there is one. -/
def Alive (log : List (Packet H B)) : Option (List (Ipasfrag H B)) → Prop
  | none => log = []
  | some frags => Lives log frags

theorem alive_nil {frags : Option (List (Ipasfrag H B))} (h : frags = none) : Alive [] frags := by
  rw [h]
  rfl

/-- What a fragment makes of the queue of its datagram, and what is returned. -/
theorem Accepted.step (hp : Accepted p) (hfrag : p.Fragment) (hkeyed : Keyed queues)
    (h : Alive log (fragsOf queues p.datagram)) (mget : Bool) :
    (∀ frags, fragsOf (ipintr queues mget p).2 p.datagram = some frags → Lives (p :: log) frags) ∧
      ∀ r, (ipintr queues mget p).1 = some r →
        (Faithful (p :: log) r.ipLen r.mbuf ↔ ∀ q ∈ p :: log, q.ipEnd ≤ 32767) := by
  rw [hp.ipintr_fragment hfrag]
  have hchecked : ∀ frags, Lives (p :: log) frags →
      (∀ frags', fragsOf ((check frags).settle queues p.datagram).2 p.datagram = some frags' →
        Lives (p :: log) frags') ∧
      ∀ r, ((check frags).settle queues p.datagram).1 = some r →
        (Faithful (p :: log) r.ipLen r.mbuf ↔ ∀ q ∈ p :: log, q.ipEnd ≤ 32767) := by
    intro frags hlives
    rcases check_cases frags with hqueued | ⟨next, hdr, hnext, hcomplete⟩
    · rw [hqueued]
      refine ⟨fun frags' heq ↦ ?_, fun r hr ↦ (by cases hr)⟩
      rw [Outcome.settle, fragsOf_setFrags] at heq
      exact Option.some.inj heq ▸ hlives
    · rw [hcomplete]
      refine ⟨fun frags' heq ↦ ?_, fun r hr ↦ ?_⟩
      · rw [Outcome.settle, hkeyed.fragsOf_remque] at heq
        cases heq
      · cases hr
        exact hlives.faithful_iff hnext
  rcases hfrags : fragsOf queues p.datagram with _ | frags
  · rw [hfrags] at h
    obtain rfl : log = [] := h
    cases mget with
    | false =>
      refine ⟨fun frags heq ↦ ?_, fun r hr ↦ (by cases hr)⟩
      have hnone : fragsOf queues p.datagram = some frags := heq
      rw [hfrags] at hnone
      cases hnone
    | true =>
      have hnew : ipReass true p.asfrag none = check [p.asfrag] := by rw [ipReass, if_pos rfl]
      rw [hnew]
      exact hchecked [p.asfrag] (.singleton hp)
  · rw [hfrags] at h
    have hlives : Lives log frags := h
    rcases hlives.arrives hp (arrives mget p.asfrag frags) with
      ⟨hdropped, hlives'⟩ | ⟨frags', heq, hlives'⟩
    · rw [hdropped]
      refine ⟨fun frags' heq ↦ ?_, fun r hr ↦ (by cases hr)⟩
      have hsame : fragsOf queues p.datagram = some frags' := heq
      rw [hfrags] at hsame
      exact Option.some.inj hsame ▸ hlives'
    · rw [heq]
      exact hchecked frags' hlives'

/-- In every run each queue holds what its fragments have left. -/
theorem Arrivals.alive (h : Arrivals queues logs) :
    Keyed queues ∧ ∀ key, Alive (logs key) (fragsOf queues key) := by
  induction h with
  | init => exact ⟨List.nodup_nil, fun _ ↦ rfl⟩
  | @packet queues logs mget p _ hp ih =>
    obtain ⟨hkeyed, halive⟩ := ih
    refine ⟨hkeyed.ipintr mget p, fun key ↦ ?_⟩
    rw [logsAfter]
    rcases hfrags : fragsOf (Inet.ipintr queues mget p).2 key with _ | frags
    · exact if_pos rfl
    rw [if_neg (show ¬(some frags).isNone = true from Bool.false_ne_true)]
    by_cases hkey : p.datagram = key
    · subst hkey
      by_cases hfrag : p.Fragment
      · rw [if_pos ⟨rfl, hfrag⟩]
        exact (hp.step hfrag hkeyed (halive p.datagram) mget).1 frags hfrags
      · rw [if_neg fun h ↦ hfrag h.2]
        rcases ipintr_of_not_fragment hfrag queues mget with heq | heq
        · rw [heq] at hfrags
          exact hfrags ▸ halive p.datagram
        · rw [heq, hkeyed.fragsOf_remque] at hfrags
          cases hfrags
    · rw [if_neg fun h ↦ hkey h.1]
      rw [fragsOf_ipintr_of_ne queues mget (Ne.symm hkey)] at hfrags
      exact hfrags ▸ halive key

/-- A fragment of zeros. -/
def zeros (ipMf : Bool) (ipOff len : ℕ) : Packet Unit ℕ where
  datagram := ⟨1, 2, 3, 17⟩
  hdr := ()
  ipLen := len + 20
  hlen := 20
  reserved := false
  ipMf
  ipOff
  mbuf := [⟨List.replicate len 0, 0, false⟩]

theorem accepted_zeros {ipMf : Bool} {ipOff len : ℕ} (hoff : ipOff < 8192) (hlen : len ≤ 32747) :
    Accepted (zeros ipMf ipOff len) where
  ipOff := hoff
  hlen := show (0 : ℤ) ≤ 20 by decide
  hlen_le := by
    change (20 : ℤ) ≤ len + 20
    omega
  ipLen := by
    change (len : ℤ) + 20 ≤ 32767
    omega
  bytes_mbuf := by
    change ((Mbuf.bytes [⟨List.replicate len 0, 0, false⟩]).length : ℤ) = len + 20 - 20
    rw [Mbuf.bytes_cons, Mbuf.bytes_nil, List.append_nil, List.length_replicate]
    omega

end Bsd386.Inet
