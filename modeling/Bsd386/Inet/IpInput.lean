import Bsd386.Kern.Socket.Mbuf
import Bsd386.Lib.Ranges
import Mathlib
import Mathlib.Algebra.GroupWithZero.Nat
import Mathlib.Algebra.Ring.Int.Defs

/-!
# Reassembly of datagrams

`inet/ip_input.c` keeps the fragments of every datagram that has not arrived in full in a queue,
ordered by their offsets. A fragment that arrives is trimmed to what its predecessor does not
provide, and its successors are trimmed to what it does not provide; when the fragments follow each
other without a gap from the start to one that is the last, their bytes are the datagram.

The lengths and offsets are those of a `short`. A queue is the list of its fragments, whose data
have their headers stripped, and the queues are a list with the latest first. They are not timed
out. A queue is made with a buffer of its own, and there may be none.
-/

namespace Bsd386.Inet

open Kern.Socket

/-- What a `short` holds after a value has been assigned to it. -/
def toShort (x : ℤ) : ℤ := (x + 2 ^ 15) % 2 ^ 16 - 2 ^ 15

/-- What the fragments of a datagram have in common. -/
structure Datagram where
  ipId : ℕ
  ipSrc : ℕ
  ipDst : ℕ
  ipP : ℕ
  deriving DecidableEq

variable {H B : Type}

/-- `struct ipasfrag`, with the rest of its header and its data. -/
structure Ipasfrag (H B : Type) where
  hdr : H
  ipOff : ℤ
  ipLen : ℤ
  ipfMff : Bool
  mbuf : List (Mbuf B)

/-- `struct ipq` with its queue. -/
structure Ipq (H B : Type) where
  datagram : Datagram
  frags : List (Ipasfrag H B)

/-- A packet from the network as `ipintr` finds it: the rest of the header, the length with the
header, the length of the header, the fields of `ip_off`, and the data. -/
structure Packet (H B : Type) where
  datagram : Datagram
  hdr : H
  ipLen : ℤ
  hlen : ℤ
  reserved : Bool
  ipMf : Bool
  ipOff : ℕ
  mbuf : List (Mbuf B)

/-- A datagram that `ip_reass` has put together. -/
structure Reassembled (H B : Type) where
  datagram : Datagram
  hdr : H
  ipLen : ℤ
  mbuf : List (Mbuf B)

namespace Ipasfrag

/-- Trim bytes from the front. -/
def trim (f : Ipasfrag H B) (i : ℤ) : Ipasfrag H B :=
  { f with
    ipOff := toShort (f.ipOff + i)
    ipLen := toShort (f.ipLen - i)
    mbuf := Mbuf.mAdj f.mbuf i.toNat }

end Ipasfrag

/-- What a preceding segment leaves of the fragment. -/
def trimByPrev (ip : Ipasfrag H B) : Option (Ipasfrag H B) → Option (Ipasfrag H B)
  | none => some ip
  | some prev =>
    let i := prev.ipOff + prev.ipLen - ip.ipOff
    if 0 < i then if ip.ipLen ≤ i then none else some (ip.trim i) else some ip

/-- What a fragment that ends at a place leaves of its succeeding segments. -/
def trimNext (ipEnd : ℤ) : List (Ipasfrag H B) → List (Ipasfrag H B)
  | [] => []
  | q :: rest =>
    if q.ipOff < ipEnd then
      let i := ipEnd - q.ipOff
      if i < q.ipLen then q.trim i :: rest else trimNext ipEnd rest
    else q :: rest

/-- The loop that checks for complete reassembly, and its result. -/
def checkFrom (next : ℤ) : List (Ipasfrag H B) → Option ℤ
  | [] => some next
  | q :: rest => if q.ipOff ≠ next then none else checkFrom (next + q.ipLen) rest

/-- Concatenate fragments. -/
def concatenate : List (Ipasfrag H B) → List (Mbuf B)
  | [] => []
  | q :: rest =>
    let m := match q.mbuf with
      | [] => []
      | m :: t => Mbuf.mCat [m] t
    rest.foldl (fun m q ↦ Mbuf.mCat m q.mbuf) m

/-- What becomes of the queue of a datagram. -/
inductive Outcome (H B : Type)
  | dropped
  | queued (frags : List (Ipasfrag H B))
  | complete (hdr : H) (ipLen : ℤ) (mbuf : List (Mbuf B))

/-- The check for complete reassembly. -/
def check (frags : List (Ipasfrag H B)) : Outcome H B :=
  match checkFrom 0 frags, frags.head?, frags.getLast? with
  | some next, some first, some last =>
    if last.ipfMff then .queued frags
    else .complete first.hdr (toShort next) (concatenate frags)
  | _, _, _ => .queued frags

/-- `ip_reass` with the queue of the datagram, if there is one. `mget` says whether a buffer for
a new queue can be had. -/
def ipReass (mget : Bool) (ip : Ipasfrag H B) : Option (List (Ipasfrag H B)) → Outcome H B
  | none => if mget then check [ip] else .dropped
  | some frags =>
    let before := frags.takeWhile fun q ↦ q.ipOff ≤ ip.ipOff
    let after := frags.dropWhile fun q ↦ q.ipOff ≤ ip.ipOff
    match trimByPrev ip before.getLast? with
    | none => .dropped
    | some ip => check (before ++ ip :: trimNext (ip.ipOff + ip.ipLen) after)

/-- The queue of a datagram. -/
def findIpq (queues : List (Ipq H B)) (key : Datagram) : Option (Ipq H B) :=
  queues.find? fun fp ↦ fp.datagram = key

/-- The queues without that of a datagram: `remque` of its header. -/
def remque (queues : List (Ipq H B)) (key : Datagram) : List (Ipq H B) :=
  queues.eraseP fun fp ↦ fp.datagram = key

/-- The queues when that of a datagram has changed. A new one is the first. -/
def setFrags (queues : List (Ipq H B)) (key : Datagram) (frags : List (Ipasfrag H B)) :
    List (Ipq H B) :=
  match findIpq queues key with
  | none => { datagram := key, frags } :: queues
  | some _ => queues.map fun fp ↦ if fp.datagram = key then { fp with frags } else fp

/-- The result of `ip_reass`, and the queues after it. -/
def Outcome.settle (queues : List (Ipq H B)) (key : Datagram) :
    Outcome H B → Option (Reassembled H B) × List (Ipq H B)
  | .dropped => (none, queues)
  | .queued frags => (none, setFrags queues key frags)
  | .complete hdr ipLen mbuf => (some { datagram := key, hdr, ipLen, mbuf }, remque queues key)

/-- The packet as a fragment: `ip_len` adjusted to not reflect the header, `ipf_mff` set if more
fragments are expected, and the offset converted to bytes. -/
def Packet.asfrag (p : Packet H B) : Ipasfrag H B where
  hdr := p.hdr
  ipOff := toShort (p.ipOff * 8)
  ipLen := toShort (p.ipLen - p.hlen)
  ipfMff := p.ipMf
  mbuf := p.mbuf

/-- The part of `ipintr` that looks for the queue of a fragment and puts the fragment into it. The
result is what `ip_reass` returns. -/
def ipintr (queues : List (Ipq H B)) (mget : Bool) (p : Packet H B) :
    Option (Reassembled H B) × List (Ipq H B) :=
  if p.reserved ∨ p.ipMf ∨ p.ipOff ≠ 0 then
    let fp := findIpq queues p.datagram
    let ip := p.asfrag
    if ip.ipfMff ∨ ip.ipOff ≠ 0 then
      (ipReass mget ip (fp.map Ipq.frags)).settle queues p.datagram
    else (none, remque queues p.datagram)
  else (none, queues)

end Bsd386.Inet

/-!
# The fragments of one datagram

Whatever the order in which the fragments of a datagram arrive, its queue holds pieces of the
payload that do not overlap, in the order of their offsets, and together they hold the bytes that
have arrived. So the check for complete reassembly succeeds when every byte has arrived, and the
concatenated fragments are the payload.
-/

namespace Bsd386.Inet

open Kern.Socket

variable {H B : Type} {payload : List B} {f ip : Ipasfrag H B} {frags : List (Ipasfrag H B)}

/-- A value that fits into a `short` is kept by it. -/
theorem toShort_of_mem {x : ℤ} (hlo : 0 ≤ x) (hhi : x ≤ 32767) : toShort x = x := by
  unfold toShort
  omega

/-- The end of a fragment. -/
def Ipasfrag.ipEnd (f : Ipasfrag H B) : ℤ := f.ipOff + f.ipLen

/-! ## Pieces of the payload -/

/-- The fragment holds the bytes of the payload that its offset and its length name. -/
structure Piece (payload : List B) (f : Ipasfrag H B) : Prop where
  ipOff_nonneg : 0 ≤ f.ipOff
  ipLen_pos : 0 < f.ipLen
  within : f.ipEnd ≤ payload.length
  ipfMff : f.ipfMff = true ↔ f.ipEnd < payload.length
  bytes_mbuf : Mbuf.bytes f.mbuf = (payload.drop f.ipOff.toNat).take f.ipLen.toNat

theorem Piece.ipOff_lt_ipEnd (h : Piece payload f) : f.ipOff < f.ipEnd := by
  have hlen := h.ipLen_pos
  unfold Ipasfrag.ipEnd
  omega

section Trim

variable {i : ℤ} (h : Piece payload f) (hsize : payload.length ≤ 32767) (hpos : 0 < i)
  (hlt : i < f.ipLen)

include h hsize hpos hlt

theorem Piece.ipOff_trim : (f.trim i).ipOff = f.ipOff + i := by
  have hoff := h.ipOff_nonneg
  have hwithin := h.within
  unfold Ipasfrag.ipEnd at hwithin
  exact toShort_of_mem (by omega) (by omega)

theorem Piece.ipLen_trim : (f.trim i).ipLen = f.ipLen - i := by
  have hoff := h.ipOff_nonneg
  have hwithin := h.within
  unfold Ipasfrag.ipEnd at hwithin
  exact toShort_of_mem (by omega) (by omega)

theorem Piece.ipEnd_trim : (f.trim i).ipEnd = f.ipEnd := by
  have hoff := h.ipOff_trim hsize hpos hlt
  have hlen := h.ipLen_trim hsize hpos hlt
  unfold Ipasfrag.ipEnd
  omega

theorem Piece.trim : Piece payload (f.trim i) where
  ipOff_nonneg := by
    have hoff := h.ipOff_nonneg
    rw [h.ipOff_trim hsize hpos hlt]
    omega
  ipLen_pos := by
    rw [h.ipLen_trim hsize hpos hlt]
    omega
  within := by
    rw [h.ipEnd_trim hsize hpos hlt]
    exact h.within
  ipfMff := by
    rw [h.ipEnd_trim hsize hpos hlt]
    exact h.ipfMff
  bytes_mbuf := by
    have hoff := h.ipOff_nonneg
    have hbytes : Mbuf.bytes (f.trim i).mbuf = (Mbuf.bytes f.mbuf).drop i.toNat :=
      Mbuf.bytes_mAdj f.mbuf i.toNat
    have hstart : (f.ipOff + i).toNat = f.ipOff.toNat + i.toNat := by omega
    have hrest : (f.ipLen - i).toNat = f.ipLen.toNat - i.toNat := by omega
    rw [h.ipOff_trim hsize hpos hlt, h.ipLen_trim hsize hpos hlt, hbytes, h.bytes_mbuf,
      List.drop_take, List.drop_drop, hstart, hrest]

end Trim

/-! ## The queue of a datagram -/

/-- Pieces of the payload in order, none overlapping another. -/
structure Kept (payload : List B) (frags : List (Ipasfrag H B)) : Prop where
  pieces : ∀ f ∈ frags, Piece payload f
  ordered : Ranges.Ordered Ipasfrag.ipOff Ipasfrag.ipEnd frags

/-- The bytes that fragments hold. -/
def covered (frags : List (Ipasfrag H B)) : Set ℤ :=
  Ranges.cover Ipasfrag.ipOff Ipasfrag.ipEnd frags

theorem Kept.singleton (h : Piece payload f) : Kept payload [f] where
  pieces := List.forall_mem_singleton.2 h
  ordered := Ranges.ordered_cons.2
    ⟨h.ipOff_lt_ipEnd, fun _ hmem ↦ absurd hmem List.not_mem_nil, Ranges.Ordered.nil⟩

theorem covered_singleton (f : Ipasfrag H B) : covered [f] = Set.Ico f.ipOff f.ipEnd := by
  rw [covered, Ranges.cover_cons, Ranges.cover_nil, Set.union_empty]

theorem kept_cons :
    Kept payload (f :: frags) ↔
      Piece payload f ∧ (∀ q ∈ frags, f.ipEnd ≤ q.ipOff) ∧ Kept payload frags := by
  constructor
  · rintro ⟨hpieces, hordered⟩
    obtain ⟨hf, hfrags⟩ := List.forall_mem_cons.1 hpieces
    obtain ⟨-, hbefore, hrest⟩ := Ranges.ordered_cons.1 hordered
    exact ⟨hf, hbefore, hfrags, hrest⟩
  · rintro ⟨hf, hbefore, hfrags⟩
    exact ⟨List.forall_mem_cons.2 ⟨hf, hfrags.pieces⟩,
      Ranges.ordered_cons.2 ⟨hf.ipOff_lt_ipEnd, hbefore, hfrags.ordered⟩⟩

theorem kept_append {before after : List (Ipasfrag H B)} :
    Kept payload (before ++ after) ↔ Kept payload before ∧ Kept payload after ∧
      ∀ p ∈ before, ∀ q ∈ after, p.ipEnd ≤ q.ipOff := by
  constructor
  · rintro ⟨hpieces, hordered⟩
    obtain ⟨hbefore, hafter⟩ := List.forall_mem_append.1 hpieces
    obtain ⟨hb, ha, hbetween⟩ := Ranges.ordered_append.1 hordered
    exact ⟨⟨hbefore, hb⟩, ⟨hafter, ha⟩, hbetween⟩
  · rintro ⟨hb, ha, hbetween⟩
    exact ⟨List.forall_mem_append.2 ⟨hb.pieces, ha.pieces⟩,
      Ranges.ordered_append.2 ⟨hb.ordered, ha.ordered, hbetween⟩⟩

/-! ### Succeeding segments -/

/-- The segments that succeed a fragment lose the bytes that the fragment provides. -/
theorem trimNext_spec (hsize : payload.length ≤ 32767) (e : ℤ) (h : Kept payload frags) :
    Kept payload (trimNext e frags) ∧ (∀ q ∈ trimNext e frags, e ≤ q.ipOff) ∧
      covered (trimNext e frags) = covered frags \ Set.Iio e := by
  induction frags with
  | nil =>
    refine ⟨h, fun q hq ↦ absurd hq List.not_mem_nil, ?_⟩
    simp [trimNext, covered]
  | cons q rest ih =>
    obtain ⟨hq, hbefore, hrest⟩ := kept_cons.1 h
    have hend : q.ipEnd = q.ipOff + q.ipLen := rfl
    have hqlen := hq.ipLen_pos
    have hcover : covered (q :: rest) = Set.Ico q.ipOff q.ipEnd ∪ covered rest :=
      Ranges.cover_cons q rest
    have habove : ∀ a : ℤ, a ≤ q.ipEnd → covered rest \ Set.Iio a = covered rest := by
      intro a ha
      refine sdiff_eq_left.2 (Set.disjoint_left.2 fun x ⟨r, hr, hlo, _⟩ hx ↦ ?_)
      exact absurd (((ha.trans (hbefore r hr)).trans hlo).trans_lt hx) (lt_irrefl a)
    rcases le_or_gt e q.ipOff with hclear | hoverlap
    · rw [trimNext, if_neg (not_lt.2 hclear)]
      refine ⟨h, List.forall_mem_cons.2 ⟨hclear, fun r hr ↦ ?_⟩, ?_⟩
      · have hr := hbefore r hr
        omega
      · rw [hcover, Set.union_sdiff_distrib, habove e (by omega)]
        congr 1
        refine (sdiff_eq_left.2 (Set.disjoint_left.2 fun x hx hlt ↦ ?_)).symm
        exact absurd ((hclear.trans hx.1).trans_lt hlt) (lt_irrefl e)
    rw [trimNext, if_pos hoverlap]
    by_cases hpart : e - q.ipOff < q.ipLen
    · -- The segment is trimmed, and those behind it do not overlap
      rw [if_pos hpart]
      have hpos : 0 < e - q.ipOff := by omega
      have hoff := hq.ipOff_trim hsize hpos hpart
      have htrim := hq.ipEnd_trim hsize hpos hpart
      have hstart : q.ipOff + (e - q.ipOff) = e := by omega
      refine ⟨kept_cons.2 ⟨hq.trim hsize hpos hpart, fun r hr ↦ ?_, hrest⟩, ?_, ?_⟩
      · rw [htrim]
        exact hbefore r hr
      · refine List.forall_mem_cons.2 ⟨by omega, fun r hr ↦ ?_⟩
        have hr := hbefore r hr
        omega
      · rw [hcover, Set.union_sdiff_distrib, habove e (by omega)]
        change Ranges.cover _ _ (_ :: _) = _
        rw [Ranges.cover_cons, hoff, htrim, hstart]
        congr 1
        ext x
        simp only [Set.mem_Ico, Set.mem_sdiff, Set.mem_Iio]
        omega
    · rw [if_neg hpart]
      obtain ⟨hkept, hafter, hcov⟩ := ih hrest
      refine ⟨hkept, hafter, ?_⟩
      have hgone : Set.Ico q.ipOff q.ipEnd \ Set.Iio e = ∅ := by
        refine Set.sdiff_eq_empty.2 fun x hx ↦ ?_
        have hlt := hx.2
        rw [Set.mem_Iio]
        omega
      rw [hcov, hcover, Set.union_sdiff_distrib, hgone, Set.empty_union]

/-! ### The check for complete reassembly -/

theorem checkFrom_eq_some {a e : ℤ} :
    checkFrom a frags = some e ↔ Ranges.Tiles Ipasfrag.ipOff Ipasfrag.ipEnd a frags e := by
  induction frags generalizing a with
  | nil => exact Option.some_inj
  | cons q rest ih =>
    rw [checkFrom]
    by_cases hoff : q.ipOff = a
    · have hend : a + q.ipLen = q.ipEnd := by rw [← hoff, Ipasfrag.ipEnd]
      rw [if_neg (not_not.2 hoff), ih, hend]
      exact ⟨fun h ↦ ⟨hoff, h⟩, fun h ↦ h.2⟩
    · rw [if_pos hoff]
      exact ⟨fun h ↦ absurd h (Option.some_ne_none e).symm, fun h ↦ absurd h.1 hoff⟩

theorem bytes_concatenate (frags : List (Ipasfrag H B)) :
    Mbuf.bytes (concatenate frags) = frags.flatMap fun q ↦ Mbuf.bytes q.mbuf := by
  have hfold : ∀ (rest : List (Ipasfrag H B)) (m : List (Mbuf B)),
      Mbuf.bytes (rest.foldl (fun m q ↦ Mbuf.mCat m q.mbuf) m) =
        Mbuf.bytes m ++ rest.flatMap fun q ↦ Mbuf.bytes q.mbuf := by
    intro rest
    induction rest with
    | nil => exact fun m ↦ (List.append_nil _).symm
    | cons q rest ih =>
      intro m
      rw [List.foldl_cons, ih, Mbuf.bytes_mCat, List.flatMap_cons, List.append_assoc]
  cases frags with
  | nil => rfl
  | cons q rest =>
    rw [concatenate, hfold, List.flatMap_cons]
    cases q.mbuf with
    | nil => rfl
    | cons m t => rw [Mbuf.bytes_mCat, Mbuf.bytes_cons m t, Mbuf.bytes_cons, Mbuf.bytes_nil,
        List.append_nil]

/-- Pieces without a gap are the bytes of the payload from the first to the last. -/
theorem Kept.flatMap_bytes {a e : ℤ} (h : Kept payload frags) (ha : 0 ≤ a)
    (htiles : Ranges.Tiles Ipasfrag.ipOff Ipasfrag.ipEnd a frags e) :
    (frags.flatMap fun q ↦ Mbuf.bytes q.mbuf) =
      (payload.drop a.toNat).take (e - a).toNat := by
  induction frags generalizing a with
  | nil =>
    obtain rfl : a = e := htiles
    rw [sub_self]
    rfl
  | cons q rest ih =>
    obtain ⟨rfl, hrest⟩ := htiles
    obtain ⟨hq, -, hkept⟩ := kept_cons.1 h
    have hlen := hq.ipLen_pos
    have hle : q.ipEnd ≤ e :=
      hrest.le fun r hr ↦ (hkept.pieces r hr).ipOff_lt_ipEnd.le
    have hnext : q.ipEnd.toNat = q.ipOff.toNat + q.ipLen.toNat := by
      unfold Ipasfrag.ipEnd
      omega
    have htotal : (e - q.ipOff).toNat = q.ipLen.toNat + (e - q.ipEnd).toNat := by
      unfold Ipasfrag.ipEnd at hle ⊢
      omega
    rw [List.flatMap_cons, ih hkept (ha.trans hq.ipOff_lt_ipEnd.le) hrest, hq.bytes_mbuf, htotal,
      List.take_add, List.drop_drop, hnext]

theorem getLast_ipEnd {a e : ℤ} (hne : frags ≠ [])
    (h : Ranges.Tiles Ipasfrag.ipOff Ipasfrag.ipEnd a frags e) :
    (frags.getLast hne).ipEnd = e := by
  induction frags generalizing a with
  | nil => exact absurd rfl hne
  | cons q rest ih =>
    cases rest with
    | nil => exact h.2
    | cons r rest => exact ih (List.cons_ne_nil r rest) h.2

theorem Kept.check_of_covered (hsize : payload.length ≤ 32767) (h : Kept payload frags)
    (hne : frags ≠ []) (hcover : covered frags = Set.Ico 0 (payload.length : ℤ)) :
    ∃ hdr m, check frags = .complete hdr payload.length m ∧ Mbuf.bytes m = payload := by
  have htiles := h.ordered.tiles (Int.natCast_nonneg payload.length) hcover
  have hlast : (frags.getLast hne).ipfMff = false := by
    have hmff := (h.pieces _ (List.getLast_mem hne)).ipfMff
    rw [getLast_ipEnd hne htiles] at hmff
    exact Bool.eq_false_iff.2 fun hmore ↦ lt_irrefl _ (hmff.1 hmore)
  refine ⟨(frags.head hne).hdr, concatenate frags, ?_, ?_⟩
  · simp only [check, checkFrom_eq_some.2 htiles, List.head?_eq_some_head hne,
      List.getLast?_eq_some_getLast hne, hlast, Bool.false_eq_true, if_false,
      toShort_of_mem (Int.natCast_nonneg payload.length) (by omega)]
  · rw [bytes_concatenate, h.flatMap_bytes le_rfl htiles]
    simp

theorem Kept.check_of_not_covered (h : Kept payload frags)
    (hcover : covered frags ≠ Set.Ico 0 (payload.length : ℤ)) : check frags = .queued frags := by
  rcases heq : checkFrom 0 frags with _ | e
  · simp only [check, heq]
  · have htiles := checkFrom_eq_some.1 heq
    have hcov : covered frags = Set.Ico 0 e :=
      htiles.cover_eq fun f hf ↦ (h.pieces f hf).ipOff_lt_ipEnd.le
    rcases eq_or_ne frags [] with rfl | hne
    · simp [check]
    · have hpiece := h.pieces _ (List.getLast_mem hne)
      have hend := getLast_ipEnd hne htiles
      -- The last of them is not the last of the payload
      have hmore : (frags.getLast hne).ipfMff = true := by
        refine hpiece.ipfMff.2 (lt_of_le_of_ne hpiece.within fun heq ↦ hcover ?_)
        rw [hcov, ← hend, heq]
      simp only [check, heq, List.head?_eq_some_head hne, List.getLast?_eq_some_getLast hne,
        hmore, if_true]

/-! ### A fragment that arrives -/

theorem Kept.ipEnd_le_getLast {prev : Ipasfrag H B} (h : Kept payload frags)
    (hlast : frags.getLast? = some prev) : ∀ q ∈ frags, q.ipEnd ≤ prev.ipEnd := by
  obtain ⟨rest, rfl⟩ := List.getLast?_eq_some_iff.1 hlast
  obtain ⟨-, hprev, hbetween⟩ := kept_append.1 h
  intro q hq
  rcases List.mem_append.1 hq with hq | hq
  · have hle := hbetween q hq prev List.mem_cons_self
    exact hle.trans (hprev.pieces prev List.mem_cons_self).ipOff_lt_ipEnd.le
  · rw [List.mem_singleton.1 hq]

section Arrival

variable {before after : List (Ipasfrag H B)} (hsize : payload.length ≤ 32767)
  (hip : Piece payload ip)

include hip

/-- A preceding segment that provides all of the fragment's data. -/
theorem trimByPrev_eq_none (hstart : ∀ q ∈ before, q.ipOff ≤ ip.ipOff)
    (h : trimByPrev ip before.getLast? = none) :
    Set.Ico ip.ipOff ip.ipEnd ⊆ covered before := by
  rcases heq : before.getLast? with _ | prev
  · rw [heq, trimByPrev] at h
    exact absurd h (Option.some_ne_none ip)
  · have hmem := List.mem_of_getLast? heq
    have hlen := hip.ipLen_pos
    rw [heq] at h
    simp only [trimByPrev] at h
    have hall : ip.ipEnd ≤ prev.ipEnd := by
      unfold Ipasfrag.ipEnd
      by_contra hlt
      split_ifs at h with hpos hge
      omega
    exact fun x hx ↦ ⟨prev, hmem, (hstart prev hmem).trans hx.1, hx.2.trans_le hall⟩

include hsize

/-- Otherwise the fragment begins where it did or where the preceding segment ends. -/
theorem trimByPrev_eq_some {ip' : Ipasfrag H B} (hbefore : Kept payload before)
    (hstart : ∀ q ∈ before, q.ipOff ≤ ip.ipOff)
    (h : trimByPrev ip before.getLast? = some ip') :
    Piece payload ip' ∧ ip'.ipEnd = ip.ipEnd ∧ (∀ q ∈ before, q.ipEnd ≤ ip'.ipOff) ∧
      ip.ipOff ≤ ip'.ipOff ∧
      (ip'.ipOff = ip.ipOff ∨ ∃ q ∈ before, q.ipOff ≤ ip.ipOff ∧ ip'.ipOff = q.ipEnd) := by
  rcases heq : before.getLast? with _ | prev
  · rw [heq, trimByPrev] at h
    obtain rfl := Option.some_inj.1 h
    rw [List.getLast?_eq_none_iff] at heq
    subst heq
    exact ⟨hip, rfl, fun q hq ↦ absurd hq List.not_mem_nil, le_rfl, Or.inl rfl⟩
  · have hmem := List.mem_of_getLast? heq
    have hends := hbefore.ipEnd_le_getLast heq
    have hprev : prev.ipEnd = prev.ipOff + prev.ipLen := rfl
    rw [heq] at h
    simp only [trimByPrev] at h
    by_cases hpos : 0 < prev.ipOff + prev.ipLen - ip.ipOff
    · rw [if_pos hpos] at h
      by_cases hle : ip.ipLen ≤ prev.ipOff + prev.ipLen - ip.ipOff
      · rw [if_pos hle] at h
        exact absurd h.symm (Option.some_ne_none ip')
      · rw [if_neg hle] at h
        obtain rfl := Option.some_inj.1 h
        have hlt := not_le.1 hle
        have hoff := hip.ipOff_trim hsize hpos hlt
        have hnew : (ip.trim (prev.ipOff + prev.ipLen - ip.ipOff)).ipOff = prev.ipEnd := by omega
        refine ⟨hip.trim hsize hpos hlt, hip.ipEnd_trim hsize hpos hlt, fun q hq ↦ ?_, ?_,
          Or.inr ⟨prev, hmem, hstart prev hmem, hnew⟩⟩
        · rw [hnew]
          exact hends q hq
        · omega
    · rw [if_neg hpos] at h
      obtain rfl := Option.some_inj.1 h
      refine ⟨hip, rfl, fun q hq ↦ (hends q hq).trans ?_, le_rfl, Or.inl rfl⟩
      omega

/-- The queue with the fragment in its place holds the bytes of both. -/
theorem Kept.insert {ip' : Ipasfrag H B} (h : Kept payload (before ++ after))
    (hstart : ∀ q ∈ before, q.ipOff ≤ ip.ipOff) (hafter : ∀ q ∈ after, ip.ipOff < q.ipOff)
    (htrim : trimByPrev ip before.getLast? = some ip') :
    Kept payload (before ++ ip' :: trimNext ip'.ipEnd after) ∧
      covered (before ++ ip' :: trimNext ip'.ipEnd after) =
        covered (before ++ after) ∪ Set.Ico ip.ipOff ip.ipEnd := by
  obtain ⟨hbefore, hkept, hbetween⟩ := kept_append.1 h
  obtain ⟨hpiece, hend, hclear, hle, hwhere⟩ := trimByPrev_eq_some hsize hip hbefore hstart htrim
  obtain ⟨hnext, hnextclear, hnextcover⟩ := trimNext_spec hsize ip'.ipEnd hkept
  have hlt := hpiece.ipOff_lt_ipEnd
  constructor
  · refine kept_append.2 ⟨hbefore, kept_cons.2 ⟨hpiece, hnextclear, hnext⟩, fun p hp ↦ ?_⟩
    refine List.forall_mem_cons.2 ⟨hclear p hp, fun r hr ↦ ?_⟩
    exact (hclear p hp).trans (hlt.le.trans (hnextclear r hr))
  · have hnew : covered (before ++ ip' :: trimNext ip'.ipEnd after) =
        covered before ∪ (Set.Ico ip'.ipOff ip'.ipEnd ∪ covered after \ Set.Iio ip'.ipEnd) := by
      rw [← hnextcover]
      exact (Ranges.cover_append _ _).trans (congrArg _ (Ranges.cover_cons _ _))
    have hold : covered (before ++ after) = covered before ∪ covered after :=
      Ranges.cover_append _ _
    -- What comes after the fragment begins where the fragment does, or later
    have hlater : ∀ r ∈ after, ip'.ipOff ≤ r.ipOff := by
      intro r hr
      rcases hwhere with heq | ⟨q, hq, -, heq⟩
      · exact heq.le.trans (hafter r hr).le
      · exact heq.le.trans (hbetween q hq r hr)
    have hgap : Set.Ico ip.ipOff ip'.ipOff ⊆ covered before := by
      rintro x ⟨hlo, hhi⟩
      rcases hwhere with heq | ⟨q, hq, hqle, heq⟩
      · exact absurd (hlo.trans_lt hhi) (by rw [heq]; exact lt_irrefl _)
      · exact ⟨q, hq, hqle.trans hlo, heq ▸ hhi⟩
    rw [hnew, hold, hend]
    ext x
    constructor
    · rintro (hx | ⟨hlo, hhi⟩ | ⟨hx, -⟩)
      · exact Or.inl (Or.inl hx)
      · exact Or.inr ⟨hle.trans hlo, hhi⟩
      · exact Or.inl (Or.inr hx)
    · rintro ((hx | hx) | ⟨hlo, hhi⟩)
      · exact Or.inl hx
      · rcases lt_or_ge x ip.ipEnd with hin | hout
        · obtain ⟨r, hr, hrlo, -⟩ := hx
          exact Or.inr (Or.inl ⟨(hlater r hr).trans hrlo, hin⟩)
        · exact Or.inr (Or.inr ⟨hx, not_lt.2 hout⟩)
      · rcases lt_or_ge x ip'.ipOff with hin | hout
        · exact Or.inl (hgap ⟨hlo, hin⟩)
        · exact Or.inr (Or.inl ⟨hout, hhi⟩)

end Arrival

/-- What may become of a queue when the bytes that have arrived are those of `new` instead of
`old`. -/
inductive Outcome.Meets (payload : List B) (old new : Set ℤ) : Outcome H B → Prop
  | dropped : new = old → new ≠ Set.Ico 0 (payload.length : ℤ) → Meets payload old new .dropped
  | queued {frags : List (Ipasfrag H B)} :
    Kept payload frags → frags ≠ [] → covered frags = new →
      new ≠ Set.Ico 0 (payload.length : ℤ) → Meets payload old new (.queued frags)
  | complete {hdr : H} {mbuf : List (Mbuf B)} :
    new = Set.Ico 0 (payload.length : ℤ) → Mbuf.bytes mbuf = payload →
      Meets payload old new (.complete hdr payload.length mbuf)

theorem Kept.check (hsize : payload.length ≤ 32767) (h : Kept payload frags) (hne : frags ≠ [])
    (old : Set ℤ) : (check frags).Meets payload old (covered frags) := by
  by_cases hcover : covered frags = Set.Ico 0 (payload.length : ℤ)
  · obtain ⟨hdr, m, heq, hm⟩ := h.check_of_covered hsize hne hcover
    rw [heq]
    exact .complete hcover hm
  · rw [h.check_of_not_covered hcover]
    exact .queued h hne rfl hcover

theorem ipReass_none (hsize : payload.length ≤ 32767) (hip : Piece payload ip) (old : Set ℤ) :
    (ipReass true ip none).Meets payload old (Set.Ico ip.ipOff ip.ipEnd) := by
  rw [ipReass, if_pos rfl, ← covered_singleton]
  exact (Kept.singleton hip).check hsize (List.cons_ne_nil ip []) old

theorem ipReass_some (hsize : payload.length ≤ 32767) (h : Kept payload frags)
    (hnot : covered frags ≠ Set.Ico 0 (payload.length : ℤ)) (hip : Piece payload ip)
    (mget : Bool) :
    (ipReass mget ip (some frags)).Meets payload (covered frags)
      (covered frags ∪ Set.Ico ip.ipOff ip.ipEnd) := by
  have hsplit : (frags.takeWhile fun q ↦ q.ipOff ≤ ip.ipOff) ++
      (frags.dropWhile fun q ↦ q.ipOff ≤ ip.ipOff) = frags := List.takeWhile_append_dropWhile
  have hstart : ∀ q ∈ frags.takeWhile (fun q ↦ q.ipOff ≤ ip.ipOff), q.ipOff ≤ ip.ipOff := by
    intro q hq
    have hle := List.mem_takeWhile_imp hq
    exact of_decide_eq_true hle
  have hafter : ∀ q ∈ frags.dropWhile (fun q ↦ q.ipOff ≤ ip.ipOff), ip.ipOff < q.ipOff := by
    intro q hq
    obtain ⟨-, hkept, -⟩ := kept_append.1 (hsplit.symm ▸ h)
    rcases heq : frags.dropWhile (fun q ↦ decide (q.ipOff ≤ ip.ipOff)) with _ | ⟨r, rest⟩
    · exact absurd (heq ▸ hq) List.not_mem_nil
    · have hr : ip.ipOff < r.ipOff := by
        have hhead := List.head?_dropWhile_not (fun q ↦ decide (q.ipOff ≤ ip.ipOff)) frags
        rw [heq] at hhead
        simpa using hhead
      rw [heq] at hq hkept
      obtain ⟨hpiece, hbefore, -⟩ := kept_cons.1 hkept
      rcases List.mem_cons.1 hq with rfl | hq
      · exact hr
      · exact hr.trans (hpiece.ipOff_lt_ipEnd.trans_le (hbefore q hq))
  rw [ipReass]
  set before := frags.takeWhile fun q ↦ q.ipOff ≤ ip.ipOff
  set after := frags.dropWhile fun q ↦ q.ipOff ≤ ip.ipOff
  rcases htrim : trimByPrev ip before.getLast? with _ | ip'
  · have hsub : Set.Ico ip.ipOff ip.ipEnd ⊆ covered frags := by
      refine (trimByPrev_eq_none hip hstart htrim).trans ?_
      rw [← hsplit]
      exact (Set.subset_union_left).trans (Ranges.cover_append _ _).ge
    dsimp only
    rw [Set.union_eq_left.2 hsub]
    exact .dropped rfl hnot
  · obtain ⟨hkept, hcover⟩ := Kept.insert hsize hip (hsplit.symm ▸ h) hstart hafter htrim
    dsimp only
    rw [hsplit] at hcover
    rw [← hcover]
    exact hkept.check hsize (List.append_ne_nil_of_right_ne_nil _ (List.cons_ne_nil _ _)) _

end Bsd386.Inet
