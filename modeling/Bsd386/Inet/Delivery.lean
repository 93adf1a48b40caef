import Mathlib.Data.List.Nodup
import Bsd386.Inet.IpInput

/-!
# Delivery of datagrams

Fragments of one datagram arrive in any order, some of them twice or overlapping others, among
packets that do not belong to it. A datagram is returned when the fragments that have arrived since
it was last returned hold every byte of its payload, and what is returned is the payload.
-/

namespace Bsd386.Inet

open Kern.Socket

variable {H B : Type} {queues : List (Ipq H B)} {key other : Datagram} {p : Packet H B}
  {mget : Bool}

/-! ## The queues -/

/-- The fragments kept for a datagram. -/
def fragsOf (queues : List (Ipq H B)) (key : Datagram) : Option (List (Ipasfrag H B)) :=
  (queues.find? fun fp ↦ fp.datagram = key).map Ipq.frags

/-- No datagram has two queues. -/
def Keyed (queues : List (Ipq H B)) : Prop := (queues.map Ipq.datagram).Nodup

@[simp]
theorem fragsOf_nil : fragsOf ([] : List (Ipq H B)) key = none := rfl

theorem fragsOf_cons (fp : Ipq H B) :
    fragsOf (fp :: queues) key =
      if fp.datagram = key then some fp.frags else fragsOf queues key := by
  rw [fragsOf, List.find?_cons]
  by_cases h : fp.datagram = key
  · rw [if_pos h, decide_eq_true h]
    rfl
  · rw [if_neg h, decide_eq_false h]
    rfl

theorem fragsOf_eq_none : fragsOf queues key = none ↔ key ∉ queues.map Ipq.datagram := by
  induction queues with
  | nil => exact ⟨fun _ ↦ List.not_mem_nil, fun _ ↦ rfl⟩
  | cons fp queues ih =>
    rw [fragsOf_cons, List.map_cons, List.mem_cons, not_or]
    by_cases h : fp.datagram = key
    · rw [if_pos h]
      exact ⟨fun heq ↦ absurd heq (Option.some_ne_none _), fun hne ↦ absurd h.symm hne.1⟩
    · rw [if_neg h, ih]
      exact ⟨fun hmem ↦ ⟨Ne.symm h, hmem⟩, And.right⟩

theorem Keyed.remque (h : Keyed queues) (key : Datagram) : Keyed (remque queues key) :=
  h.sublist (List.eraseP_sublist.map _)

theorem fragsOf_remque_of_ne (hne : other ≠ key) :
    fragsOf (remque queues key) other = fragsOf queues other := by
  induction queues with
  | nil => rfl
  | cons fp queues ih =>
    rw [remque, List.eraseP_cons, fragsOf_cons]
    by_cases h : fp.datagram = key
    · rw [decide_eq_true h, cond_true, if_neg (h ▸ hne.symm)]
    · rw [decide_eq_false h, cond_false, fragsOf_cons]
      exact congrArg _ ih

theorem Keyed.fragsOf_remque (h : Keyed queues) : fragsOf (Inet.remque queues key) key = none := by
  induction queues with
  | nil => rfl
  | cons fp queues ih =>
    obtain ⟨hnot, hrest⟩ := List.nodup_cons.1 h
    rw [Inet.remque, List.eraseP_cons]
    by_cases heq : fp.datagram = key
    · rw [decide_eq_true heq, cond_true]
      exact fragsOf_eq_none.2 (heq ▸ hnot)
    · rw [decide_eq_false heq, cond_false, fragsOf_cons, if_neg heq]
      exact ih hrest

theorem setFrags_of_none (frags : List (Ipasfrag H B)) (h : fragsOf queues key = none) :
    setFrags queues key frags = { datagram := key, frags } :: queues := by
  rw [fragsOf, Option.map_eq_none_iff] at h
  rw [setFrags, findIpq, h]

theorem setFrags_of_some {frags' : List (Ipasfrag H B)} (frags : List (Ipasfrag H B))
    (h : fragsOf queues key = some frags') :
    setFrags queues key frags =
      queues.map fun fp ↦ if fp.datagram = key then { fp with frags } else fp := by
  obtain ⟨fp, hfind, -⟩ := Option.map_eq_some_iff.1 h
  rw [setFrags, findIpq, hfind]

theorem fragsOf_map_of_ne (frags : List (Ipasfrag H B)) (hne : other ≠ key) :
    fragsOf (queues.map fun fp ↦ if fp.datagram = key then { fp with frags } else fp) other =
      fragsOf queues other := by
  induction queues with
  | nil => rfl
  | cons fp queues ih =>
    rw [List.map_cons, fragsOf_cons, fragsOf_cons, ih]
    by_cases h : fp.datagram = key
    · have hfp : fp.datagram ≠ other := h ▸ hne.symm
      rw [if_pos h, if_neg hfp, if_neg hfp]
    · rw [if_neg h]

theorem fragsOf_map {frags' : List (Ipasfrag H B)} (frags : List (Ipasfrag H B))
    (h : fragsOf queues key = some frags') :
    fragsOf (queues.map fun fp ↦ if fp.datagram = key then { fp with frags } else fp) key =
      some frags := by
  induction queues with
  | nil => exact absurd h (Option.some_ne_none _).symm
  | cons fp queues ih =>
    rw [List.map_cons, fragsOf_cons]
    rw [fragsOf_cons] at h
    by_cases heq : fp.datagram = key
    · rw [if_pos heq]
      exact if_pos heq
    · rw [if_neg heq] at h
      rw [if_neg heq, if_neg heq]
      exact ih h

theorem fragsOf_setFrags (queues : List (Ipq H B)) (key : Datagram)
    (frags : List (Ipasfrag H B)) : fragsOf (setFrags queues key frags) key = some frags := by
  rcases h : fragsOf queues key with _ | frags'
  · rw [setFrags_of_none frags h, fragsOf_cons, if_pos rfl]
  · rw [setFrags_of_some frags h]
    exact fragsOf_map frags h

theorem fragsOf_setFrags_of_ne (frags : List (Ipasfrag H B)) (hne : other ≠ key) :
    fragsOf (setFrags queues key frags) other = fragsOf queues other := by
  rcases h : fragsOf queues key with _ | frags'
  · rw [setFrags_of_none frags h, fragsOf_cons, if_neg hne.symm]
  · rw [setFrags_of_some frags h]
    exact fragsOf_map_of_ne frags hne

theorem Keyed.setFrags (h : Keyed queues) (key : Datagram) (frags : List (Ipasfrag H B)) :
    Keyed (setFrags queues key frags) := by
  rcases heq : fragsOf queues key with _ | frags'
  · rw [setFrags_of_none frags heq]
    exact List.nodup_cons.2 ⟨fragsOf_eq_none.1 heq, h⟩
  · have hmap : (queues.map fun fp ↦ if fp.datagram = key then { fp with frags } else fp).map
        Ipq.datagram = queues.map Ipq.datagram := by
      rw [List.map_map]
      refine List.map_congr_left fun fp _ ↦ ?_
      by_cases hfp : fp.datagram = key
      · rw [Function.comp_apply, if_pos hfp]
      · rw [Function.comp_apply, if_neg hfp]
    rw [setFrags_of_some frags heq, Keyed, hmap]
    exact h

/-! ## What a packet does to the queues -/

theorem Outcome.settle_fst (o : Outcome H B) (queues : List (Ipq H B)) (key : Datagram) :
    ∀ d ∈ (o.settle queues key).1, d.datagram = key := by
  cases o with
  | dropped => exact fun d hd ↦ absurd hd (Option.not_mem_none d)
  | queued frags => exact fun d hd ↦ absurd hd (Option.not_mem_none d)
  | complete hdr ipLen mbuf =>
    intro d hd
    rw [← Option.mem_some.1 hd]

theorem Keyed.settle (h : Keyed queues) (o : Outcome H B) (key : Datagram) :
    Keyed (o.settle queues key).2 := by
  cases o with
  | dropped => exact h
  | queued frags => exact h.setFrags key frags
  | complete hdr ipLen mbuf => exact h.remque key

theorem fragsOf_settle_of_ne (o : Outcome H B) (hne : other ≠ key) :
    fragsOf (o.settle queues key).2 other = fragsOf queues other := by
  cases o with
  | dropped => rfl
  | queued frags => exact fragsOf_setFrags_of_ne frags hne
  | complete hdr ipLen mbuf => exact fragsOf_remque_of_ne hne

/-- A packet is left alone, frees the fragments of its datagram or is reassembled with them. -/
theorem ipintr_cases (queues : List (Ipq H B)) (mget : Bool) (p : Packet H B) :
    ipintr queues mget p = (none, queues) ∨
      ipintr queues mget p = (none, remque queues p.datagram) ∨
      ∃ o : Outcome H B, ipintr queues mget p = o.settle queues p.datagram := by
  rw [ipintr]
  by_cases hoff : p.reserved ∨ p.ipMf ∨ p.ipOff ≠ 0
  · rw [if_pos hoff]
    by_cases hfrag : p.asfrag.ipfMff ∨ p.asfrag.ipOff ≠ 0
    · exact Or.inr (Or.inr ⟨_, if_pos hfrag⟩)
    · exact Or.inr (Or.inl (if_neg hfrag))
  · exact Or.inl (if_neg hoff)

theorem Keyed.ipintr (h : Keyed queues) (mget : Bool) (p : Packet H B) :
    Keyed (ipintr queues mget p).2 := by
  rcases ipintr_cases queues mget p with heq | heq | ⟨o, heq⟩
  · rw [heq]
    exact h
  · rw [heq]
    exact h.remque p.datagram
  · rw [heq]
    exact h.settle o p.datagram

theorem fragsOf_ipintr_of_ne (queues : List (Ipq H B)) (mget : Bool)
    (hne : key ≠ p.datagram) : fragsOf (ipintr queues mget p).2 key = fragsOf queues key := by
  rcases ipintr_cases queues mget p with heq | heq | ⟨o, heq⟩
  · rw [heq]
  · rw [heq]
    exact fragsOf_remque_of_ne hne
  · rw [heq]
    exact fragsOf_settle_of_ne o hne

theorem ipintr_datagram (queues : List (Ipq H B)) (mget : Bool) (p : Packet H B) :
    ∀ d ∈ (ipintr queues mget p).1, d.datagram = p.datagram := by
  rcases ipintr_cases queues mget p with heq | heq | ⟨o, heq⟩
  · rw [heq]
    exact fun d hd ↦ absurd hd (Option.not_mem_none d)
  · rw [heq]
    exact fun d hd ↦ absurd hd (Option.not_mem_none d)
  · rw [heq]
    exact o.settle_fst queues p.datagram

/-! ## Runs -/

/-- The packet is a fragment that holds `len` bytes of the payload of a datagram from `off` on.
All but the last hold a multiple of 8 bytes. -/
structure IsFragment (key : Datagram) (payload : List B) (off len : ℕ) (p : Packet H B) :
    Prop where
  datagram : p.datagram = key
  nonempty : 0 < len
  within : off + len ≤ payload.length
  ipOff : p.ipOff * 8 = off
  ipMf : p.ipMf = true ↔ off + len < payload.length
  whole : p.ipMf = true → 8 ∣ len
  fragmented : p.ipMf = true ∨ p.ipOff ≠ 0
  ipLen : p.ipLen = p.hlen + len
  bytes_mbuf : Mbuf.bytes p.mbuf = (payload.drop off).take len

/-- Packets have arrived, fragments of one datagram and packets of others. The set holds the bytes
of the datagram that have arrived since it was last returned, except those of fragments that were
dropped when there was no buffer for a queue. -/
inductive Run (key : Datagram) (payload : List B) : List (Ipq H B) → Set ℤ → Prop
  | init : Run key payload [] ∅
  | other {queues : List (Ipq H B)} {received : Set ℤ} (mget : Bool) (p : Packet H B) :
    Run key payload queues received → p.datagram ≠ key →
      Run key payload (ipintr queues mget p).2 received
  | noBuffer {queues : List (Ipq H B)} {off len : ℕ} (p : Packet H B) :
    Run key payload queues ∅ → IsFragment key payload off len p →
      Run key payload (ipintr queues false p).2 ∅
  | arrived {queues : List (Ipq H B)} {received : Set ℤ} {off len : ℕ} (mget : Bool)
    (p : Packet H B) :
    Run key payload queues received → IsFragment key payload off len p →
      received ≠ ∅ ∨ mget = true → (ipintr queues mget p).1 = none →
      Run key payload (ipintr queues mget p).2 (received ∪ Set.Ico (off : ℤ) (off + len))
  | returned {queues : List (Ipq H B)} {received : Set ℤ} {off len : ℕ} (mget : Bool)
    (p : Packet H B) (d : Reassembled H B) :
    Run key payload queues received → IsFragment key payload off len p →
      (ipintr queues mget p).1 = some d → Run key payload (ipintr queues mget p).2 ∅

variable {payload : List B} {off len : ℕ} {received old new : Set ℤ} {o : Outcome H B}

theorem IsFragment.length_pos (h : IsFragment key payload off len p) : 0 < payload.length := by
  have hpos := h.nonempty
  have hwithin := h.within
  omega

theorem IsFragment.ipOff_asfrag (h : IsFragment key payload off len p)
    (hsize : payload.length ≤ 32767) : p.asfrag.ipOff = off := by
  have hwithin := h.within
  have hoff : (p.ipOff : ℤ) * 8 = off := by exact_mod_cast h.ipOff
  refine Eq.trans (congrArg toShort hoff) (toShort_of_mem ?_ ?_)
  · omega
  · omega

theorem IsFragment.ipLen_asfrag (h : IsFragment key payload off len p)
    (hsize : payload.length ≤ 32767) : p.asfrag.ipLen = len := by
  have hwithin := h.within
  have hlen : p.ipLen - p.hlen = len := by
    rw [h.ipLen]
    omega
  refine Eq.trans (congrArg toShort hlen) (toShort_of_mem ?_ ?_)
  · omega
  · omega

theorem IsFragment.piece (h : IsFragment key payload off len p)
    (hsize : payload.length ≤ 32767) : Piece payload p.asfrag where
  ipOff_nonneg := by
    rw [h.ipOff_asfrag hsize]
    exact Int.natCast_nonneg off
  ipLen_pos := by
    rw [h.ipLen_asfrag hsize]
    exact Int.natCast_pos.2 h.nonempty
  within := by
    have hwithin := h.within
    rw [Ipasfrag.ipEnd, h.ipOff_asfrag hsize, h.ipLen_asfrag hsize]
    omega
  ipfMff := by
    rw [Ipasfrag.ipEnd, h.ipOff_asfrag hsize, h.ipLen_asfrag hsize]
    refine h.ipMf.trans ?_
    omega
  bytes_mbuf := by
    rw [h.ipOff_asfrag hsize, h.ipLen_asfrag hsize]
    exact h.bytes_mbuf

theorem IsFragment.ipintr (h : IsFragment key payload off len p)
    (hsize : payload.length ≤ 32767) (queues : List (Ipq H B)) (mget : Bool) :
    Inet.ipintr queues mget p = (ipReass mget p.asfrag (fragsOf queues key)).settle queues key := by
  have hfrag : p.asfrag.ipfMff ∨ p.asfrag.ipOff ≠ 0 := by
    refine h.fragmented.imp_right fun hne ↦ ?_
    have hoff := h.ipOff
    rw [h.ipOff_asfrag hsize]
    omega
  rw [Inet.ipintr, if_pos (Or.inr h.fragmented), ← h.datagram]
  exact if_pos hfrag

/-- What the queue of a datagram holds when the bytes of a set have arrived. -/
def Holds (payload : List B) (received : Set ℤ) : Option (List (Ipasfrag H B)) → Prop
  | none => received = ∅
  | some frags => Kept payload frags ∧ frags ≠ [] ∧ covered frags = received ∧
      received ≠ Set.Ico 0 (payload.length : ℤ)

/-- What comes of a fragment: nothing is returned while bytes are missing, and otherwise the
payload is. -/
inductive Returns (payload : List B) (key : Datagram) (new : Set ℤ) (queues : List (Ipq H B)) :
    Option (Reassembled H B) → Prop
  | nothing : new ≠ Set.Ico 0 (payload.length : ℤ) → Holds payload new (fragsOf queues key) →
    Returns payload key new queues none
  | datagram {d : Reassembled H B} :
    new = Set.Ico 0 (payload.length : ℤ) → d.ipLen = payload.length →
      Mbuf.bytes d.mbuf = payload → Holds payload ∅ (fragsOf queues key) →
      Returns payload key new queues (some d)

theorem Outcome.Meets.settle (h : o.Meets payload old new)
    (hold : Holds payload old (fragsOf queues key)) (hkeyed : Keyed queues) :
    Returns payload key new (o.settle queues key).2 (o.settle queues key).1 := by
  cases h with
  | dropped hsame hnot => exact .nothing hnot (hsame ▸ hold)
  | @queued frags hkept hne hcover hnot =>
    refine .nothing hnot ?_
    rw [Outcome.settle, fragsOf_setFrags]
    exact ⟨hkept, hne, hcover, hnot⟩
  | complete hall hbytes =>
    refine .datagram hall rfl hbytes ?_
    rw [Outcome.settle, hkeyed.fragsOf_remque]
    rfl

/-- A fragment of the datagram arrives, and there is a queue or a buffer for one. -/
theorem IsFragment.returns (h : IsFragment key payload off len p)
    (hsize : payload.length ≤ 32767) (hkeyed : Keyed queues)
    (hold : Holds payload received (fragsOf queues key)) (hroom : received ≠ ∅ ∨ mget = true) :
    Returns payload key (received ∪ Set.Ico (off : ℤ) (off + len))
      (Inet.ipintr queues mget p).2 (Inet.ipintr queues mget p).1 := by
  have hpiece := h.piece hsize
  have hrange : Set.Ico (off : ℤ) (off + len) = Set.Ico p.asfrag.ipOff p.asfrag.ipEnd := by
    rw [Ipasfrag.ipEnd, h.ipOff_asfrag hsize, h.ipLen_asfrag hsize]
  rw [h.ipintr hsize queues mget, hrange]
  have hmeets : (ipReass mget p.asfrag (fragsOf queues key)).Meets payload received
      (received ∪ Set.Ico p.asfrag.ipOff p.asfrag.ipEnd) := by
    rcases heq : fragsOf queues key with _ | frags
    · rw [heq] at hold
      have hempty : received = ∅ := hold
      have hmget := hroom.resolve_left (not_not.2 hempty)
      rw [hmget, hempty, Set.empty_union]
      exact ipReass_none hsize hpiece ∅
    · rw [heq] at hold
      obtain ⟨hkept, -, rfl, hnot⟩ := hold
      exact ipReass_some hsize hkept hnot hpiece mget
  exact hmeets.settle hold hkeyed

/-- A fragment of the datagram arrives, and there is neither. -/
theorem IsFragment.ipintr_noBuffer (h : IsFragment key payload off len p)
    (hsize : payload.length ≤ 32767) (hold : Holds payload ∅ (fragsOf queues key)) :
    Inet.ipintr queues false p = (none, queues) := by
  have hnone : fragsOf queues key = none := by
    rcases heq : fragsOf queues key with _ | frags
    · rfl
    · rw [heq] at hold
      obtain ⟨hkept, hne, hcover, -⟩ := hold
      obtain ⟨q, hq⟩ := List.exists_mem_of_ne_nil frags hne
      have hmem : q.ipOff ∈ covered frags := ⟨q, hq, le_rfl, (hkept.pieces q hq).ipOff_lt_ipEnd⟩
      rw [hcover] at hmem
      exact absurd hmem (Set.notMem_empty _)
  rw [h.ipintr hsize queues false, hnone]
  rfl

/-- In every run the queue of the datagram holds the bytes that have arrived. -/
theorem Run.holds (hsize : payload.length ≤ 32767) (hrun : Run key payload queues received) :
    Keyed queues ∧ Holds payload received (fragsOf queues key) := by
  induction hrun with
  | init => exact ⟨List.nodup_nil, rfl⟩
  | @other queues received mget p _ hne ih =>
    refine ⟨ih.1.ipintr mget p, ?_⟩
    rw [fragsOf_ipintr_of_ne queues mget hne.symm]
    exact ih.2
  | noBuffer p _ hfrag ih =>
    rw [hfrag.ipintr_noBuffer hsize ih.2]
    exact ih
  | arrived mget p _ hfrag hroom hnone ih =>
    have hreturns := hfrag.returns hsize ih.1 ih.2 hroom
    rw [hnone] at hreturns
    cases hreturns with
    | nothing _ hnew => exact ⟨ih.1.ipintr mget p, hnew⟩
  | @returned queues received off len mget p d _ hfrag hsome ih =>
    refine ⟨ih.1.ipintr mget p, ?_⟩
    have hroom : received ≠ ∅ ∨ mget = true := by
      by_contra hnot
      obtain ⟨rfl, hmget⟩ := not_or.1 hnot |>.imp_left not_not.1
      obtain rfl := Bool.eq_false_iff.2 hmget
      rw [hfrag.ipintr_noBuffer hsize ih.2] at hsome
      exact absurd hsome.symm (Option.some_ne_none d)
    have hreturns := hfrag.returns hsize ih.1 ih.2 hroom
    rw [hsome] at hreturns
    cases hreturns with
    | datagram _ _ _ hnew => exact hnew

/-- What is returned for packets that arrive one after another when there are buffers. -/
def arrivals (queues : List (Ipq H B)) : List (Packet H B) → List (Option (Reassembled H B))
  | [] => []
  | p :: ps => (ipintr queues true p).1 :: arrivals (ipintr queues true p).2 ps

section Example

/-- Half of a datagram of 16 bytes. -/
def half (ipMf : Bool) (ipOff : ℕ) : Packet Unit ℕ where
  datagram := { ipId := 1, ipSrc := 1, ipDst := 2, ipP := 17 }
  hdr := ()
  ipLen := 28
  hlen := 20
  reserved := false
  ipMf
  ipOff
  mbuf := [{ mData := (List.range 16).drop (ipOff * 8) |>.take 8, room := 100, ext := false }]

theorem isFragment_first : IsFragment (half true 0).datagram (List.range 16) 0 8 (half true 0) where
  datagram := rfl
  nonempty := by decide
  within := by decide
  ipOff := rfl
  ipMf := by decide
  whole := fun _ ↦ Nat.dvd_refl 8
  fragmented := Or.inl rfl
  ipLen := rfl
  bytes_mbuf := by decide

theorem isFragment_last : IsFragment (half true 0).datagram (List.range 16) 8 8 (half false 1) where
  datagram := rfl
  nonempty := by decide
  within := by decide
  ipOff := rfl
  ipMf := by decide
  whole := fun _ ↦ Nat.dvd_refl 8
  fragmented := Or.inr (by decide)
  ipLen := rfl
  bytes_mbuf := by decide

end Example

end Bsd386.Inet
