import Mathlib.Algebra.Order.Ring.Int
import Mathlib.Data.List.Pairwise
import Bsd386.Ufs.Lockf.Basic

/-!
# The table of byte-range locks

A list of locks is read as a function from owners and bytes to the type of the lock that the owner
holds there. As long as every owner's locks are sorted and disjoint, clearing a range makes the
function undefined for the owner in the range, setting a range makes it the type of the lock, and
both leave it alone elsewhere. The exception is a range that ends with the last byte that a `long`
can name, when the owner holds a lock without a bound: the byte after it is negative.
-/

namespace Bsd386.Ufs

variable {A O : Type}

namespace Lockf

/-- The lock covers a byte. -/
def Covers (lf : Lockf A O) (x : ℤ) : Prop := lf.lfStart ≤ x ∧ (lf.lfEnd = -1 ∨ x ≤ lf.lfEnd)

instance (lf : Lockf A O) (x : ℤ) : Decidable (lf.Covers x) := inferInstanceAs (Decidable (_ ∧ _))

/-- The first and the last byte of the lock are a range. -/
structure IsRange (lf : Lockf A O) : Prop where
  nonneg : 0 ≤ lf.lfStart
  le_max : lf.lfStart ≤ 2 ^ 31 - 1
  ends : lf.lfEnd = -1 ∨ lf.lfStart ≤ lf.lfEnd ∧ lf.lfEnd ≤ 2 ^ 31 - 1

/-- The lock ends before the other one starts. -/
def Before (lf lf' : Lockf A O) : Prop := lf.lfEnd ≠ -1 ∧ lf.lfEnd < lf'.lfStart

/-- The byte behind the second lock is not a `long`, but the first lock goes on to it. -/
def Wraps (lf lock : Lockf A O) : Prop :=
  lf.lfId = lock.lfId ∧ lf.lfEnd = -1 ∧ lock.lfEnd = 2 ^ 31 - 1

end Lockf

/-- Every owner's locks are sorted and pairwise disjoint. -/
structure Table (l : List (Lockf A O)) : Prop where
  ranges : ∀ lf ∈ l, lf.IsRange
  sorted : l.Pairwise fun lf lf' ↦ lf.lfId = lf'.lfId → lf.Before lf'

theorem toLong_of_mem {x : ℤ} (hlo : -2 ^ 31 ≤ x) (hhi : x < 2 ^ 31) : toLong x = x := by
  unfold toLong
  omega

theorem table_nil : Table ([] : List (Lockf A O)) :=
  ⟨fun _ h ↦ absurd h List.not_mem_nil, List.Pairwise.nil⟩

theorem table_cons {lf : Lockf A O} {l : List (Lockf A O)} :
    Table (lf :: l) ↔ lf.IsRange ∧ (∀ lf' ∈ l, lf.lfId = lf'.lfId → lf.Before lf') ∧ Table l := by
  constructor
  · rintro ⟨hranges, hsorted⟩
    obtain ⟨hlf, hl⟩ := List.forall_mem_cons.1 hranges
    obtain ⟨hbefore, hrest⟩ := List.pairwise_cons.1 hsorted
    exact ⟨hlf, hbefore, hl, hrest⟩
  · rintro ⟨hlf, hbefore, hl⟩
    exact ⟨List.forall_mem_cons.2 ⟨hlf, hl.ranges⟩, List.pairwise_cons.2 ⟨hbefore, hl.sorted⟩⟩

variable [DecidableEq O]

/-- The type of the lock that an owner has on a byte. -/
def lockAt (l : List (Lockf A O)) (o : O) (x : ℤ) : Option LfType :=
  (l.find? fun lf ↦ lf.lfId = o ∧ lf.Covers x).map Lockf.lfType

@[simp]
theorem lockAt_nil (o : O) (x : ℤ) : lockAt ([] : List (Lockf A O)) o x = none := rfl

theorem lockAt_cons (lf : Lockf A O) (l : List (Lockf A O)) (o : O) (x : ℤ) :
    lockAt (lf :: l) o x =
      if lf.lfId = o ∧ lf.Covers x then some lf.lfType else lockAt l o x := by
  rw [lockAt, List.find?_cons]
  by_cases h : lf.lfId = o ∧ lf.Covers x
  · rw [if_pos h, decide_eq_true h]
    rfl
  · rw [if_neg h, decide_eq_false h]
    rfl

/-- Behind a lock that ends before all others of its owner, a byte up to it is free. -/
theorem lockAt_of_before {l : List (Lockf A O)} {o : O} {x : ℤ}
    (h : ∀ lf ∈ l, lf.lfId = o → x < lf.lfStart) : lockAt l o x = none := by
  induction l with
  | nil => rfl
  | cons lf l ih =>
    rw [lockAt_cons, if_neg]
    · exact ih fun lf' h' ↦ h lf' (List.mem_cons_of_mem lf h')
    · rintro ⟨hid, hcovers⟩
      exact absurd hcovers.1 (not_le.2 (h lf List.mem_cons_self hid))

theorem lockAt_eq_some {l : List (Lockf A O)} {o : O} {x : ℤ} {t : LfType}
    (h : lockAt l o x = some t) : ∃ lf ∈ l, lf.lfId = o ∧ lf.Covers x ∧ lf.lfType = t := by
  obtain ⟨lf, hfind, htype⟩ := Option.map_eq_some_iff.1 h
  have hcovers := List.find?_some hfind
  rw [decide_eq_true_eq] at hcovers
  exact ⟨lf, List.mem_of_find?_eq_some hfind, hcovers.1, hcovers.2, htype⟩

theorem lockAt_append {pieces : List (Lockf A O)} {own : O} {t : LfType}
    (h : ∀ lf ∈ pieces, lf.lfId = own ∧ lf.lfType = t) (tail : List (Lockf A O)) (o : O) (x : ℤ) :
    lockAt (pieces ++ tail) o x =
      if o = own ∧ (∃ lf ∈ pieces, lf.Covers x) then some t else lockAt tail o x := by
  induction pieces with
  | nil => simp
  | cons lf pieces ih =>
    obtain ⟨⟨rfl, rfl⟩, hpieces⟩ := List.forall_mem_cons.1 h
    rw [List.cons_append, lockAt_cons, ih hpieces]
    by_cases ho : o = lf.lfId
    · by_cases hcovers : lf.Covers x
      · simp [ho, hcovers]
      · simp [ho, hcovers]
    · simp [ho, Ne.symm ho]

/-- A lock is replaced by pieces of it, and what comes behind it changes in the same way. -/
theorem lockAt_replace {pieces tail rest : List (Lockf A O)} {lf unlock : Lockf A O}
    (hid : lf.lfId = unlock.lfId)
    (hpieces : ∀ p ∈ pieces, p.lfId = unlock.lfId ∧ p.lfType = lf.lfType)
    (hcovers : ∀ x, (∃ p ∈ pieces, p.Covers x) ↔ lf.Covers x ∧ ¬ unlock.Covers x)
    (htail : ∀ o x, lockAt tail o x =
      if o = unlock.lfId ∧ unlock.Covers x then none else lockAt rest o x) (o : O) (x : ℤ) :
    lockAt (pieces ++ tail) o x =
      if o = unlock.lfId ∧ unlock.Covers x then none else lockAt (lf :: rest) o x := by
  rw [lockAt_append hpieces, lockAt_cons, htail, hid]
  simp only [hcovers x]
  by_cases ho : o = unlock.lfId
  · by_cases hx : unlock.Covers x
    · simp [ho, hx]
    · by_cases hlf : lf.Covers x
      · simp [ho, hx, hlf]
      · simp [ho, hx, hlf]
  · simp [ho, Ne.symm ho]

/-! ## Clearing a range -/

section Clear

variable {splitlock : A} {unlock : Lockf A O} {l : List (Lockf A O)}

/-- Every lock on a new list begins where a lock of the same owner on the old list begins, or
later. -/
def StartsAfter (l l' : List (Lockf A O)) : Prop :=
  ∀ lf' ∈ l', ∃ lf ∈ l, lf.lfId = lf'.lfId ∧ lf.lfStart ≤ lf'.lfStart

omit [DecidableEq O] in
theorem StartsAfter.before {l' : List (Lockf A O)} {lf : Lockf A O} (h : StartsAfter l l')
    (hbefore : ∀ lf' ∈ l, lf.lfId = lf'.lfId → lf.Before lf') :
    ∀ lf' ∈ l', lf.lfId = lf'.lfId → lf.Before lf' := by
  intro lf' hmem hid
  obtain ⟨a, ha, hsame, hle⟩ := h lf' hmem
  have hlt := hbefore a ha (hid.trans hsame.symm)
  exact ⟨hlt.1, hlt.2.trans_le hle⟩

omit [DecidableEq O] in
theorem StartsAfter.cons {l' : List (Lockf A O)} {lf lf' : Lockf A O} (h : StartsAfter l l')
    (hid : lf.lfId = lf'.lfId) (hle : lf.lfStart ≤ lf'.lfStart) :
    StartsAfter (lf :: l) (lf' :: l') := by
  intro b hb
  rcases List.mem_cons.1 hb with rfl | hb
  · exact ⟨lf, List.mem_cons_self, hid, hle⟩
  · obtain ⟨a, ha, hsame⟩ := h b hb
    exact ⟨a, List.mem_cons_of_mem lf ha, hsame⟩

omit [DecidableEq O] in
theorem StartsAfter.skip {l' : List (Lockf A O)} (h : StartsAfter l l') (lf : Lockf A O) :
    StartsAfter (lf :: l) l' := by
  intro b hb
  obtain ⟨a, ha, hsame⟩ := h b hb
  exact ⟨a, List.mem_cons_of_mem lf ha, hsame⟩

omit [DecidableEq O] in
theorem StartsAfter.refl (l : List (Lockf A O)) : StartsAfter l l :=
  fun lf hlf ↦ ⟨lf, hlf, rfl, le_rfl⟩

/-- Behind a lock that goes on to the end of the range, the range is free. -/
theorem lockAt_behind {lf : Lockf A O} {rest : List (Lockf A O)} (hid : lf.lfId = unlock.lfId)
    (hbefore : ∀ lf' ∈ rest, lf.lfId = lf'.lfId → lf.Before lf')
    (hend : lf.lfEnd = -1 ∨ unlock.lfEnd ≠ -1 ∧ unlock.lfEnd ≤ lf.lfEnd) (o : O) (x : ℤ) :
    lockAt rest o x = if o = unlock.lfId ∧ unlock.Covers x then none else lockAt rest o x := by
  by_cases hx : o = unlock.lfId ∧ unlock.Covers x
  · obtain ⟨rfl, hcovers⟩ := hx
    rw [if_pos ⟨rfl, hcovers⟩]
    refine lockAt_of_before fun lf' h' hid' ↦ ?_
    obtain ⟨hne, hlt⟩ := hbefore lf' h' (hid.trans hid'.symm)
    obtain ⟨-, hx⟩ := hcovers
    omega
  · rw [if_neg hx]

/-- What `lf_clearlock` makes of a list. -/
structure Cleared (unlock : Lockf A O) (l l' : List (Lockf A O)) : Prop where
  table : Table l'
  starts : StartsAfter l l'
  lockAt_eq : ∀ o x,
    lockAt l' o x = if o = unlock.lfId ∧ unlock.Covers x then none else lockAt l o x

/-- A lock of another owner stays. -/
theorem Cleared.cons_other {lf : Lockf A O} {rest l' : List (Lockf A O)}
    (h : Cleared unlock rest l') (hid : lf.lfId ≠ unlock.lfId) (htable : Table (lf :: rest)) :
    Cleared unlock (lf :: rest) (lf :: l') := by
  obtain ⟨hlf, hbefore, -⟩ := table_cons.1 htable
  refine ⟨table_cons.2 ⟨hlf, h.starts.before hbefore, h.table⟩, h.starts.cons rfl le_rfl,
    fun o x ↦ ?_⟩
  rw [lockAt_cons, lockAt_cons, h.lockAt_eq]
  by_cases ho : lf.lfId = o ∧ lf.Covers x
  · have hne : o ≠ unlock.lfId := ho.1 ▸ hid
    simp [ho, hne]
  · simp [ho]

/-- A lock of the owner is replaced by what the range leaves of it. -/
theorem Cleared.replace {lf : Lockf A O} {pieces rest l' : List (Lockf A O)}
    (hid : lf.lfId = unlock.lfId) (htable : Table (lf :: rest))
    (htail : Cleared unlock rest l')
    (hsame : ∀ p ∈ pieces, p.lfId = unlock.lfId ∧ p.lfType = lf.lfType ∧ p.IsRange ∧
      lf.lfStart ≤ p.lfStart ∧ (lf.lfEnd ≠ -1 → p.lfEnd ≠ -1 ∧ p.lfEnd ≤ lf.lfEnd))
    (hsorted : pieces.Pairwise Lockf.Before)
    (hlast : lf.lfEnd = -1 → ∀ lf' ∈ l', lf'.lfId ≠ unlock.lfId)
    (hcovers : ∀ x, (∃ p ∈ pieces, p.Covers x) ↔ lf.Covers x ∧ ¬ unlock.Covers x) :
    Cleared unlock (lf :: rest) (pieces ++ l') := by
  obtain ⟨hlf, hbefore, -⟩ := table_cons.1 htable
  refine ⟨⟨fun p hp ↦ ?_, List.pairwise_append.2 ⟨?_, htail.table.sorted, fun p hp q hq hpq ↦ ?_⟩⟩,
    fun p hp ↦ ?_, lockAt_replace hid (fun p hp ↦ ⟨(hsame p hp).1, (hsame p hp).2.1⟩) hcovers
      htail.lockAt_eq⟩
  · rcases List.mem_append.1 hp with hp | hp
    · exact (hsame p hp).2.2.1
    · exact htail.table.ranges p hp
  · refine hsorted.imp ?_
    exact fun h _ ↦ h
  · obtain ⟨hpid, -, -, -, hend⟩ := hsame p hp
    by_cases hinf : lf.lfEnd = -1
    · exact absurd (hpq.symm.trans hpid) (hlast hinf q hq)
    · obtain ⟨-, hlt⟩ := htail.starts.before hbefore q hq (hid.trans (hpid.symm.trans hpq))
      obtain ⟨hne, hle⟩ := hend hinf
      exact ⟨hne, hle.trans_lt hlt⟩
  · rcases List.mem_append.1 hp with hp | hp
    · obtain ⟨hpid, -, -, hle, -⟩ := hsame p hp
      exact ⟨lf, List.mem_cons_self, hid.trans hpid.symm, hle⟩
    · exact htail.starts.skip lf p hp

/-- Nothing is cleared behind a lock that goes on to the end of the range, or begins behind it. -/
theorem Cleared.rest {lf : Lockf A O} {rest : List (Lockf A O)} (hid : lf.lfId = unlock.lfId)
    (htable : Table (lf :: rest))
    (hend : lf.lfEnd = -1 ∨ unlock.lfEnd ≠ -1 ∧ unlock.lfEnd ≤ lf.lfEnd) :
    Cleared unlock rest rest := by
  obtain ⟨-, hbefore, hrest⟩ := table_cons.1 htable
  exact ⟨hrest, StartsAfter.refl rest, lockAt_behind hid hbefore hend⟩

omit [DecidableEq O] in
/-- Behind a lock without a bound there is no other lock of its owner. -/
theorem StartsAfter.ne_of_unbounded {lf : Lockf A O} {rest l' : List (Lockf A O)}
    (h : StartsAfter rest l') (hid : lf.lfId = unlock.lfId) (htable : Table (lf :: rest))
    (hinf : lf.lfEnd = -1) : ∀ lf' ∈ l', lf'.lfId ≠ unlock.lfId := by
  obtain ⟨-, hbefore, -⟩ := table_cons.1 htable
  intro lf' h' heq
  exact (h.before hbefore lf' h' (hid.trans heq.symm)).1 hinf

/-- The range covers a lock. -/
theorem Cleared.remove {lf : Lockf A O} {rest l' : List (Lockf A O)} (h : Cleared unlock rest l')
    (hid : lf.lfId = unlock.lfId) (htable : Table (lf :: rest))
    (hcovers : ∀ x, lf.Covers x → unlock.Covers x) : Cleared unlock (lf :: rest) l' := by
  change Cleared unlock (lf :: rest) ([] ++ l')
  refine h.replace hid htable (fun p hp ↦ absurd hp List.not_mem_nil) List.Pairwise.nil
    (h.starts.ne_of_unbounded hid htable) fun x ↦ ?_
  simp only [List.not_mem_nil, false_and, exists_false, false_iff, not_and, not_not]
  exact hcovers x

/-- The range leaves one piece of a lock. -/
theorem Cleared.keep {lf q : Lockf A O} {rest l' : List (Lockf A O)} (h : Cleared unlock rest l')
    (hid : lf.lfId = unlock.lfId) (htable : Table (lf :: rest)) (hq : q.lfId = lf.lfId)
    (htype : q.lfType = lf.lfType) (hrange : q.IsRange) (hstart : lf.lfStart ≤ q.lfStart)
    (hend : lf.lfEnd ≠ -1 → q.lfEnd ≠ -1 ∧ q.lfEnd ≤ lf.lfEnd)
    (hcovers : ∀ x, q.Covers x ↔ lf.Covers x ∧ ¬ unlock.Covers x) :
    Cleared unlock (lf :: rest) (q :: l') := by
  change Cleared unlock (lf :: rest) ([q] ++ l')
  refine h.replace hid htable ?_ (List.pairwise_singleton _ _)
    (h.starts.ne_of_unbounded hid htable) fun x ↦ ?_
  · exact List.forall_mem_singleton.2 ⟨hq.trans hid, htype, hrange, hstart, hend⟩
  · simp only [List.mem_singleton, exists_eq_left]
    exact hcovers x

/-- The range leaves a piece of a lock on either side. -/
theorem Cleared.split {lf p q : Lockf A O} {rest l' : List (Lockf A O)} (h : Cleared unlock rest l')
    (hid : lf.lfId = unlock.lfId) (htable : Table (lf :: rest)) (hp : p.lfId = lf.lfId)
    (hq : q.lfId = lf.lfId) (hptype : p.lfType = lf.lfType) (hqtype : q.lfType = lf.lfType)
    (hprange : p.IsRange) (hqrange : q.IsRange) (hpstart : lf.lfStart ≤ p.lfStart)
    (hqstart : lf.lfStart ≤ q.lfStart) (hbetween : p.Before q)
    (hpend : lf.lfEnd ≠ -1 → p.lfEnd ≤ lf.lfEnd) (hqend : q.lfEnd = lf.lfEnd)
    (hcovers : ∀ x, p.Covers x ∨ q.Covers x ↔ lf.Covers x ∧ ¬ unlock.Covers x) :
    Cleared unlock (lf :: rest) (p :: q :: l') := by
  change Cleared unlock (lf :: rest) ([p, q] ++ l')
  refine h.replace hid htable ?_ ?_ (h.starts.ne_of_unbounded hid htable) fun x ↦ ?_
  · refine List.forall_mem_cons.2 ⟨⟨hp.trans hid, hptype, hprange, hpstart, fun hne ↦ ?_⟩, ?_⟩
    · exact ⟨hbetween.1, hpend hne⟩
    · exact List.forall_mem_singleton.2
        ⟨hq.trans hid, hqtype, hqrange, hqstart, fun hne ↦ ⟨hqend ▸ hne, hqend.le⟩⟩
  · refine List.pairwise_cons.2 ⟨?_, List.pairwise_singleton _ _⟩
    exact List.forall_mem_singleton.2 hbetween
  · simp only [List.mem_cons, List.not_mem_nil, or_false, exists_eq_or_imp, exists_eq_left]
    exact hcovers x

section Pieces

variable {s e us ue x : ℤ}

/-- What a range leaves in front of it. -/
theorem covers_left (hs : 0 ≤ s) (hlt : s < us) (hover : e = -1 ∨ us ≤ e)
    (hend : ue = -1 ∨ e ≠ -1 ∧ e ≤ ue) :
    s ≤ x ∧ (us - 1 = -1 ∨ x ≤ us - 1) ↔
      (s ≤ x ∧ (e = -1 ∨ x ≤ e)) ∧ ¬ (us ≤ x ∧ (ue = -1 ∨ x ≤ ue)) := by
  have hpred : us - 1 ≠ -1 := by omega
  simp only [hpred, false_or]
  rcases hend with rfl | ⟨hne, hle⟩
  · simp only [true_or, and_true]
    omega
  · simp only [hne, false_or] at hover ⊢
    omega

/-- What a range leaves behind it. -/
theorem covers_right (hle : us ≤ s) (hs : s ≤ ue) (hue : ue ≠ -1) :
    ue + 1 ≤ x ∧ (e = -1 ∨ x ≤ e) ↔
      (s ≤ x ∧ (e = -1 ∨ x ≤ e)) ∧ ¬ (us ≤ x ∧ (ue = -1 ∨ x ≤ ue)) := by
  simp only [hue, false_or]
  omega

/-- What a range leaves on either side. -/
theorem covers_pieces (hs : 0 ≤ s) (hlt : s < us) (hle : us ≤ ue) (hend : e = -1 ∨ ue ≤ e) :
    s ≤ x ∧ (us - 1 = -1 ∨ x ≤ us - 1) ∨ ue + 1 ≤ x ∧ (e = -1 ∨ x ≤ e) ↔
      (s ≤ x ∧ (e = -1 ∨ x ≤ e)) ∧ ¬ (us ≤ x ∧ (ue = -1 ∨ x ≤ ue)) := by
  have hpred : us - 1 ≠ -1 := by omega
  have hue : ue ≠ -1 := by omega
  simp only [hpred, hue, false_or]
  rcases hend with rfl | hend
  · simp only [true_or, and_true]
    omega
  · omega

end Pieces

section ClearCase

variable {lf : Lockf A O} {rest : List (Lockf A O)} (htable : Table (lf :: rest))
  (hid : lf.lfId = unlock.lfId) (hrange : unlock.IsRange) (hwrap : ¬ lf.Wraps unlock)

include htable hid hrange hwrap

theorem clearLock_overlapContains (hcase : ovcase lf unlock = .overlapContains) :
    Cleared unlock (lf :: rest) (clearLock splitlock unlock (lf :: rest)).list := by
  obtain ⟨hlf0, hlfmax, hlfends⟩ := (table_cons.1 htable).1
  obtain ⟨hun0, hunmax, hunends⟩ := hrange
  obtain ⟨hstart, hne, hend, hnot⟩ := ovcase_overlapContains hcase
  have hle : unlock.lfStart ≤ unlock.lfEnd := (hunends.resolve_left hne).1
  have hrest : Cleared unlock rest rest := Cleared.rest hid htable (by omega)
  have hroom : lf.lfEnd ≠ unlock.lfEnd → unlock.lfEnd < 2 ^ 31 - 1 := by
    intro hends
    rcases eq_or_ne lf.lfEnd (-1) with hinf | hfin
    · exact lt_of_le_of_ne (hunends.resolve_left hne).2 fun hmax ↦ hwrap ⟨hid, hinf, hmax⟩
    · have hmax := (hlfends.resolve_left hfin).2
      have hover := hend.resolve_right hfin
      omega
  have hpred : toLong (unlock.lfStart - 1) = unlock.lfStart - 1 :=
    toLong_of_mem (by omega) (by omega)
  rw [show clearLock splitlock unlock (lf :: rest) = _ from if_neg (not_not.2 hid), hcase]
  dsimp only
  by_cases hsame : lf.lfStart = unlock.lfStart
  · have hends : lf.lfEnd ≠ unlock.lfEnd := fun hends ↦ hnot ⟨hsame, hends⟩
    have hless := hroom hends
    have hsucc : toLong (unlock.lfEnd + 1) = unlock.lfEnd + 1 :=
      toLong_of_mem (by omega) (by omega)
    rw [if_pos hsame, hsucc]
    clear hroom hpred hsucc hnot hunends
    refine hrest.keep hid htable rfl rfl ⟨?_, ?_, ?_⟩ ?_ (fun hne ↦ ⟨hne, le_rfl⟩) fun x ↦
      covers_right hsame.ge (hsame.trans_le hle) hne
    all_goals dsimp only [lfWakelock]
    all_goals omega
  · have hsame' : (lfWakelock lf).lfStart ≠ unlock.lfStart := hsame
    have hlt : lf.lfStart < unlock.lfStart := lt_of_le_of_ne hstart hsame
    rw [if_neg hsame, lfSplit, if_neg hsame', hpred]
    by_cases hlast : lf.lfEnd = unlock.lfEnd
    · have hlast' : (lfWakelock lf).lfEnd = unlock.lfEnd := hlast
      rw [if_pos hlast']
      refine hrest.keep hid htable rfl rfl ⟨?_, ?_, ?_⟩ ?_ ?_ fun x ↦
        covers_left hlf0 hlt (by omega) (by omega)
      all_goals dsimp only [lfWakelock]
      all_goals omega
    · have hlast' : (lfWakelock lf).lfEnd ≠ unlock.lfEnd := hlast
      have hless := hroom hlast
      have hsucc : toLong (unlock.lfEnd + 1) = unlock.lfEnd + 1 :=
        toLong_of_mem (by omega) (by omega)
      rw [if_neg hlast', hsucc]
      clear hroom hpred hsucc hnot hunends
      refine hrest.split hid htable rfl rfl rfl rfl ⟨?_, ?_, ?_⟩ ⟨?_, ?_, ?_⟩ ?_ ?_ ⟨?_, ?_⟩ ?_
        rfl fun x ↦ covers_pieces hlf0 hlt hle (hend.symm.imp_right id)
      all_goals dsimp only [lfWakelock]
      all_goals omega

theorem clearLock_endsAfter (hcase : ovcase lf unlock = .endsAfter) :
    Cleared unlock (lf :: rest) (clearLock splitlock unlock (lf :: rest)).list := by
  obtain ⟨hlf0, hlfmax, hlfends⟩ := (table_cons.1 htable).1
  obtain ⟨hun0, hunmax, hunends⟩ := hrange
  have hends := ovcase_endsAfter hcase
  have hnowrap : lf.lfEnd = -1 → unlock.lfEnd ≠ 2 ^ 31 - 1 :=
    fun hinf hmax ↦ hwrap ⟨hid, hinf, hmax⟩
  have hsucc : toLong (unlock.lfEnd + 1) = unlock.lfEnd + 1 :=
    toLong_of_mem (by omega) (by omega)
  have hrest : Cleared unlock rest rest := Cleared.rest hid htable (by omega)
  rw [show clearLock splitlock unlock (lf :: rest) = _ from if_neg (not_not.2 hid), hcase]
  dsimp only
  rw [hsucc]
  refine hrest.keep hid htable rfl rfl ⟨?_, ?_, ?_⟩ ?_ ?_ fun x ↦
    covers_right hends.1.le hends.2.2.2 hends.2.1
  all_goals dsimp only [lfWakelock]
  all_goals omega

omit hwrap

theorem clearLock_startsBefore (htail : Cleared unlock rest (clearLock splitlock unlock rest).list)
    (hcase : ovcase lf unlock = .startsBefore) :
    Cleared unlock (lf :: rest) (clearLock splitlock unlock (lf :: rest)).list := by
  obtain ⟨hlf0, hlfmax, hlfends⟩ := (table_cons.1 htable).1
  obtain ⟨hun0, hunmax, hunends⟩ := hrange
  have hstarts := ovcase_startsBefore hcase
  have hpred : toLong (unlock.lfStart - 1) = unlock.lfStart - 1 :=
    toLong_of_mem (by omega) (by omega)
  rw [show clearLock splitlock unlock (lf :: rest) = _ from if_neg (not_not.2 hid), hcase]
  dsimp only
  rw [hpred]
  refine htail.keep hid htable rfl rfl ⟨?_, ?_, ?_⟩ ?_ ?_ fun x ↦
    covers_left hlf0 hstarts.1 hstarts.2.1.symm (hstarts.2.2.imp_right fun h ↦ ⟨h.1, h.2.le⟩)
  all_goals dsimp only [lfWakelock]
  all_goals omega

theorem clearLock_noOverlap (htail : Cleared unlock rest (clearLock splitlock unlock rest).list)
    (hcase : ovcase lf unlock = .noOverlap) :
    Cleared unlock (lf :: rest) (clearLock splitlock unlock (lf :: rest)).list := by
  have hlf := (table_cons.1 htable).1
  have hno := ovcase_noOverlap hcase
  have hunends := hrange.ends
  have hcovers : ∀ x, lf.Covers x ↔ lf.Covers x ∧ ¬ unlock.Covers x := by
    intro x
    unfold Lockf.Covers
    omega
  rw [show clearLock splitlock unlock (lf :: rest) = _ from if_neg (not_not.2 hid), hcase]
  dsimp only
  by_cases hstop : unlock.lfEnd ≠ -1 ∧ lf.lfStart > unlock.lfEnd
  · have hlfends := hlf.ends
    have hrest : Cleared unlock rest rest := Cleared.rest hid htable (by omega)
    rw [if_pos hstop]
    exact hrest.keep hid htable rfl rfl hlf le_rfl (fun hne ↦ ⟨hne, le_rfl⟩) hcovers
  · rw [if_neg hstop]
    exact htail.keep hid htable rfl rfl hlf le_rfl (fun hne ↦ ⟨hne, le_rfl⟩) hcovers

end ClearCase

/-- `lf_clearlock` takes the bytes of the range from the owner and nothing else. -/
theorem clearLock_spec (htable : Table l) (hrange : unlock.IsRange)
    (hwraps : ∀ lf ∈ l, ¬ lf.Wraps unlock) :
    Cleared unlock l (clearLock splitlock unlock l).list := by
  induction l with
  | nil =>
    refine ⟨table_nil, StartsAfter.refl [], fun o x ↦ ?_⟩
    change none = _
    simp
  | cons lf rest ih =>
    obtain ⟨-, -, hrest⟩ := table_cons.1 htable
    obtain ⟨hwrap, hwraps⟩ := List.forall_mem_cons.1 hwraps
    have htail := ih hrest hwraps
    by_cases hid : lf.lfId = unlock.lfId
    swap
    · rw [clearLock_other splitlock rest hid]
      exact htail.cons_other hid htable
    cases hcase : ovcase lf unlock with
    | noOverlap => exact clearLock_noOverlap htable hid hrange htail hcase
    | equal =>
      obtain ⟨hstart, hend⟩ := ovcase_equal hcase
      rw [show clearLock splitlock unlock (lf :: rest) = _ from if_neg (not_not.2 hid), hcase]
      refine (Cleared.rest hid htable ?_).remove hid htable fun x ↦ ?_
      · omega
      · unfold Lockf.Covers
        omega
    | overlapContains => exact clearLock_overlapContains htable hid hrange hwrap hcase
    | lockContains =>
      have hcontains := ovcase_lockContains hcase
      rw [show clearLock splitlock unlock (lf :: rest) = _ from if_neg (not_not.2 hid), hcase]
      refine htail.remove hid htable fun x ↦ ?_
      unfold Lockf.Covers
      omega
    | startsBefore => exact clearLock_startsBefore htable hid hrange htail hcase
    | endsAfter => exact clearLock_endsAfter htable hid hrange hwrap hcase

/-- What is left of the owner's locks behind the start of the range comes after its end. -/
theorem Cleared.before {l' : List (Lockf A O)} (h : Cleared unlock l l') {lf : Lockf A O}
    (hlf : lf ∈ l') (hid : lf.lfId = unlock.lfId) (hstart : unlock.lfStart ≤ lf.lfStart) :
    unlock.Before lf := by
  have hrange := h.table.ranges lf hlf
  have hfirst : lf.Covers lf.lfStart := by
    have hends := hrange.ends
    unfold Lockf.Covers
    omega
  have hsome : lockAt l' unlock.lfId lf.lfStart ≠ none := by
    intro hnone
    rw [lockAt, Option.map_eq_none_iff, List.find?_eq_none] at hnone
    exact hnone lf hlf (decide_eq_true ⟨hid, hfirst⟩)
  rw [h.lockAt_eq] at hsome
  have hnot : ¬ unlock.Covers lf.lfStart := fun hcovers ↦ hsome (if_pos ⟨rfl, hcovers⟩)
  unfold Lockf.Covers at hnot
  unfold Lockf.Before
  omega

end Clear

end Bsd386.Ufs
