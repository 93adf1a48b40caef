import Bsd386.Lib.Machine
import Bsd386.Termios.Basic

/-!
# Rings of characters

The functions of `kern/subr/ring.c` on a ring, with their results, and the block transfers that
drivers make with the macros of `ringbuf.h`. A ring is a queue with two ends that holds one
character less than it has cells.
-/

namespace Bsd386.Kern.Subr

open Termios (Ringb rbsz)

/-- `putc`, of the low byte of its argument. -/
def putc (c : ℕ) (rbp : Ringb) : ℤ × Ringb :=
  match rbp.push (.ofNat c) with
  | none => (-1, rbp)
  | some rbp => (0, rbp)

/-- `getc`. -/
def getc (rbp : Ringb) : ℤ × Ringb :=
  match rbp.pop with
  | none => (-1, rbp)
  | some (c, rbp) => (c.toNat, rbp)

/-- `ungetc`. -/
def ungetc (c : ℕ) (rbp : Ringb) : ℤ × Ringb :=
  match rbp.unpop (.ofNat c) with
  | none => (-1, rbp)
  | some rbp => (0, rbp)

/-- `unputc`. -/
def unputc (rbp : Ringb) : ℤ × Ringb :=
  match rbp.unpush with
  | none => (-1, rbp)
  | some (c, rbp) => (c.toNat, rbp)

/-- `initrb`. -/
def initrb (buf : ℕ → UInt8) : Ringb := ⟨buf, 0, 0, by decide, by decide⟩

/-- `RB_LEN`, `RB_CONTIGPUT` and `RB_CONTIGGET`. -/
abbrev rbLen (rbp : Ringb) : ℕ := rbp.len

abbrev rbContigput (rbp : Ringb) : ℕ := rbp.room

abbrev rbContigget (rbp : Ringb) : ℕ := rbp.ready

/-- What is done with a ring. A block is written or read with `memcpy`, and the position behind it
goes through `RB_ROLLOVER`. -/
inductive RingCall
  | putc (c : ℕ)
  | getc
  | ungetc (c : ℕ)
  | unputc
  | put (block : List UInt8)
  | get (nc : ℕ)

/-- A block is no larger than the macro allows. -/
def RingCall.Sized (rbp : Ringb) : RingCall → Prop
  | .put block => block.length ≤ rbContigput rbp
  | .get nc => nc ≤ rbContigget rbp
  | _ => True

/-- What a call returns. -/
inductive RingReply
  | result (r : ℤ)
  | block (l : List UInt8)

/-- A call on a ring. -/
def ringStep (rbp : Ringb) : RingCall → RingReply × Ringb
  | .putc c => ((.result (putc c rbp).1), (putc c rbp).2)
  | .getc => ((.result (getc rbp).1), (getc rbp).2)
  | .ungetc c => ((.result (ungetc c rbp).1), (ungetc c rbp).2)
  | .unputc => ((.result (unputc rbp).1), (unputc rbp).2)
  | .put l =>
    if h : l.length ≤ rbContigput rbp then (.block [], rbp.putBlock l h) else (.block [], rbp)
  | .get nc =>
    if h : nc ≤ rbContigget rbp then (.block (rbp.getBlock nc h).1, (rbp.getBlock nc h).2)
    else (.block [], rbp)

/-- The same call on a queue with two ends, for at most `cap` characters. -/
def dequeStep (cap : ℕ) (l : List UInt8) : RingCall → RingReply × List UInt8
  | .putc c => if l.length = cap then (.result (-1), l) else (.result 0, l ++ [.ofNat c])
  | .getc =>
    match l with
    | [] => (.result (-1), [])
    | c :: rest => (.result c.toNat, rest)
  | .ungetc c => if l.length = cap then (.result (-1), l) else (.result 0, .ofNat c :: l)
  | .unputc =>
    match l.getLast? with
    | none => (.result (-1), l)
    | some c => (.result c.toNat, l.dropLast)
  | .put block => (.block [], l ++ block)
  | .get nc => (.block (l.take nc), l.drop nc)

/-- The ring holds what the queue does. -/
def Holds (rbp : Ringb) (l : List UInt8) : Prop := rbp.toList = l

variable {rbp rbp' : Ringb} {l : List UInt8} {buf : ℕ → UInt8}

theorem Holds.length_le (h : Holds rbp l) : l.length ≤ rbsz - 1 := by
  have hlt := rbp.length_lt
  rw [h] at hlt
  exact Nat.le_pred_of_lt hlt

/-- The ring is full when the queue is. -/
theorem Holds.full_iff (h : Holds rbp l) : l.length = rbsz - 1 ↔ rbsz ≤ rbp.len + 1 := by
  have hle := h.length_le
  rw [← rbp.length_toList, h]
  have hpos : 0 < rbsz := by decide
  omega

theorem Holds.putc_full (h : Holds rbp l) (hfull : l.length = rbsz - 1) (c : ℕ) :
    putc c rbp = (-1, rbp) := by
  unfold Subr.putc
  rw [RingBuffer.push_eq_none _ (h.full_iff.mp hfull)]

theorem Holds.putc (h : Holds rbp l) (hroom : l.length ≠ rbsz - 1) (c : ℕ) :
    ∃ rbp', putc c rbp = (0, rbp') ∧ Holds rbp' (l ++ [.ofNat c]) := by
  obtain ⟨rbp', hpush, hlist⟩ := RingBuffer.push_eq (.ofNat c) (not_le.mp (mt h.full_iff.mpr hroom))
  refine ⟨rbp', ?_, hlist.trans (congrArg (· ++ _) h)⟩
  unfold Subr.putc
  rw [hpush]

theorem Holds.ungetc_full (h : Holds rbp l) (hfull : l.length = rbsz - 1) (c : ℕ) :
    ungetc c rbp = (-1, rbp) := by
  unfold Subr.ungetc
  rw [RingBuffer.unpop_eq_none _ (h.full_iff.mp hfull)]

theorem Holds.ungetc (h : Holds rbp l) (hroom : l.length ≠ rbsz - 1) (c : ℕ) :
    ∃ rbp', ungetc c rbp = (0, rbp') ∧ Holds rbp' (.ofNat c :: l) := by
  obtain ⟨rbp', hunpop, hlist⟩ :=
    RingBuffer.unpop_eq (.ofNat c) (not_le.mp (mt h.full_iff.mpr hroom))
  refine ⟨rbp', ?_, hlist.trans (congrArg (_ :: ·) h)⟩
  unfold Subr.ungetc
  rw [hunpop]

theorem getc_empty (h : Holds rbp []) : getc rbp = (-1, rbp) := by
  unfold getc
  rw [RingBuffer.pop_eq_none h]

theorem Holds.getc {c : UInt8} (h : Holds rbp (c :: l)) :
    ∃ rbp', getc rbp = ((c.toNat : ℤ), rbp') ∧ Holds rbp' l := by
  obtain ⟨rbp', hpop, hlist⟩ := RingBuffer.pop_eq h
  refine ⟨rbp', ?_, hlist⟩
  unfold Subr.getc
  rw [hpop]

theorem unputc_empty (h : Holds rbp []) : unputc rbp = (-1, rbp) := by
  unfold unputc
  rw [RingBuffer.unpush_eq_none h]

theorem Holds.unputc {c : UInt8} (h : Holds rbp (l ++ [c])) :
    ∃ rbp', unputc rbp = ((c.toNat : ℤ), rbp') ∧ Holds rbp' l := by
  obtain ⟨rbp', hunpush, hlist⟩ := RingBuffer.unpush_eq h
  refine ⟨rbp', ?_, hlist⟩
  unfold Subr.unputc
  rw [hunpush]

/-- A call with the same answer on both leaves what a ring and a queue that agree hold. -/
theorem holds_of_step {call : RingCall} {reply : RingReply} {l' : List UInt8}
    (hring : ringStep rbp call = (reply, rbp'))
    (hdeque : dequeStep (rbsz - 1) l call = (reply, l')) (h : Holds rbp' l') :
    (ringStep rbp call).1 = (dequeStep (rbsz - 1) l call).1 ∧
      Holds (ringStep rbp call).2 (dequeStep (rbsz - 1) l call).2 := by
  rw [hring, hdeque]
  exact ⟨rfl, h⟩

/-- Each call does to the ring what it does to the queue. -/
theorem Holds.step (h : Holds rbp l) {call : RingCall} (hsized : call.Sized rbp) :
    (ringStep rbp call).1 = (dequeStep (rbsz - 1) l call).1 ∧
      Holds (ringStep rbp call).2 (dequeStep (rbsz - 1) l call).2 := by
  have hresult : ∀ {p q : ℤ × Ringb}, p = q →
      (RingReply.result p.1, p.2) = (RingReply.result q.1, q.2) := fun heq ↦ heq ▸ rfl
  cases call with
  | putc c =>
    by_cases hfull : l.length = rbsz - 1
    · exact holds_of_step (hresult (h.putc_full hfull c)) (if_pos hfull) h
    · obtain ⟨rbp', hputc, hlist⟩ := h.putc hfull c
      exact holds_of_step (hresult hputc) (if_neg hfull) hlist
  | getc =>
    cases l with
    | nil => exact holds_of_step (hresult (getc_empty h)) rfl h
    | cons c l =>
      obtain ⟨rbp', hgetc, hlist⟩ := h.getc
      exact holds_of_step (hresult hgetc) rfl hlist
  | ungetc c =>
    by_cases hfull : l.length = rbsz - 1
    · exact holds_of_step (hresult (h.ungetc_full hfull c)) (if_pos hfull) h
    · obtain ⟨rbp', hungetc, hlist⟩ := h.ungetc hfull c
      exact holds_of_step (hresult hungetc) (if_neg hfull) hlist
  | unputc =>
    rcases List.eq_nil_or_concat l with rfl | ⟨l, c, rfl⟩
    · exact holds_of_step (hresult (unputc_empty h)) rfl h
    · rw [List.concat_eq_append] at h ⊢
      obtain ⟨rbp', hunputc, hlist⟩ := h.unputc
      refine holds_of_step (hresult hunputc) ?_ hlist
      unfold dequeStep
      dsimp only
      rw [List.getLast?_concat, List.dropLast_concat]
  | put block =>
    have hlist := (RingBuffer.toList_putBlock hsized).trans (congrArg (· ++ block) h)
    exact holds_of_step (dif_pos hsized) rfl hlist
  | get nc =>
    obtain ⟨hblock, hlist⟩ := RingBuffer.toList_getBlock hsized
    refine holds_of_step (dif_pos hsized) ?_ (hlist.trans (congrArg (List.drop nc) h))
    rw [hblock, h]
    rfl

/-! ## Blocks and single characters -/

theorem run_putc {block : List UInt8} (h : RingBuffer.pushAll block rbp = some rbp') :
    Machine.run ringStep (block.map fun c ↦ .putc c.toNat) rbp =
      (block.map fun _ ↦ .result 0, rbp') := by
  induction block generalizing rbp with
  | nil =>
    cases h
    rfl
  | cons c block ih =>
    obtain ⟨rbp'', hpush, hrest⟩ := Option.bind_eq_some_iff.mp h
    have hputc : putc c.toNat rbp = (0, rbp'') := by
      unfold putc
      rw [UInt8.ofNat_toNat, hpush]
    have hstep : ringStep rbp (.putc c.toNat) = (.result 0, rbp'') := by
      change (RingReply.result (putc c.toNat rbp).1, (putc c.toNat rbp).2) = _
      rw [hputc]
    rw [List.map_cons, Machine.run, hstep, ih hrest]
    rfl

theorem run_getc {block : List UInt8} {nc : ℕ} (h : RingBuffer.popAll nc rbp = some (block, rbp')) :
    Machine.run ringStep (List.replicate nc .getc) rbp =
      (block.map fun c ↦ .result c.toNat, rbp') := by
  induction nc generalizing rbp block with
  | zero =>
    cases h
    rfl
  | succ nc ih =>
    obtain ⟨p, hpop, hrest⟩ := Option.bind_eq_some_iff.mp h
    obtain ⟨q, hq, heq⟩ := Option.map_eq_some_iff.mp hrest
    cases heq
    have hgetc : getc rbp = ((p.1.toNat : ℤ), p.2) := by
      unfold getc
      rw [hpop]
    have hstep : ringStep rbp .getc = (.result p.1.toNat, p.2) := by
      change (RingReply.result (getc rbp).1, (getc rbp).2) = _
      rw [hgetc]
    rw [List.replicate_succ, Machine.run, hstep, ih hq]
    rfl

/-- Every run on a ring answers as the run on a queue with two ends does, and leaves what it leaves.
A block is put or taken as its characters are, one after the other, and is no larger than what is
free or held. -/
theorem ring_refines_deque {calls : List RingCall}
    (hsized : Machine.Along ringStep (dequeStep (rbsz - 1)) (fun rbp _ call ↦ call.Sized rbp) calls
      (initrb buf) []) :
    (Machine.run ringStep calls (initrb buf)).1 =
        (Machine.run (dequeStep (rbsz - 1)) calls []).1 ∧
      ∃ rbp l, (Machine.run ringStep calls (initrb buf)).2 = rbp ∧
        (Machine.run (dequeStep (rbsz - 1)) calls []).2 = l ∧ rbp.toList = l ∧
          rbLen rbp = l.length ∧ l.length ≤ rbsz - 1 ∧
        (∀ (block : List UInt8) (h : block.length ≤ rbContigput rbp),
          l.length + block.length ≤ rbsz - 1 ∧
            Machine.run ringStep (block.map fun c ↦ .putc c.toNat) rbp =
              (block.map fun _ ↦ .result 0, rbp.putBlock block h)) ∧
        ∀ (nc : ℕ) (h : nc ≤ rbContigget rbp), nc ≤ l.length ∧
          Machine.run ringStep (List.replicate nc .getc) rbp =
            ((rbp.getBlock nc h).1.map fun c ↦ .result c.toNat, (rbp.getBlock nc h).2) := by
  have hempty : Holds (initrb buf) [] := rfl
  obtain ⟨hreplies, hholds⟩ := Machine.run_eq_of_simulation (f := ringStep)
    (g := dequeStep (rbsz - 1)) (p := fun rbp _ call ↦ call.Sized rbp) (r := Holds)
    (t := []) (fun _ _ call hr hp ↦ hr.step hp) calls hempty hsized
  refine ⟨hreplies, _, _, rfl, rfl, hholds, ?_, hholds.length_le, fun block h ↦ ⟨?_, ?_⟩,
    fun nc h ↦ ⟨?_, ?_⟩⟩
  · exact (RingBuffer.length_toList _).symm.trans (congrArg List.length hholds)
  · have hroom := RingBuffer.len_add_room_lt (Machine.run ringStep calls (initrb buf)).2
    rw [← RingBuffer.length_toList, hholds] at hroom
    exact Nat.le_pred_of_lt ((Nat.add_le_add_left h _).trans_lt hroom)
  · exact run_putc (RingBuffer.pushAll_eq block _ h)
  · obtain ⟨hlength, hlist⟩ := RingBuffer.toList_of_popAll (RingBuffer.popAll_eq nc _ h)
    rw [hholds] at hlist
    rw [hlist, List.length_append, hlength]
    exact Nat.le_add_right _ _
  · exact run_getc (RingBuffer.popAll_eq nc _ h)

/-- Characters that are put behind and in front, and then taken as a block. -/
theorem ring_refines_deque_block :
    (Machine.run ringStep [.put [1, 2], .ungetc 3, .unputc] (initrb fun _ ↦ 0)).1 =
      (Machine.run (dequeStep (rbsz - 1)) [.put [1, 2], .ungetc 3, .unputc] []).1 := by
  have hsized : Machine.Along ringStep (dequeStep (rbsz - 1)) (fun rbp _ call ↦ call.Sized rbp)
      [.put [1, 2], .ungetc 3, .unputc] (initrb fun _ ↦ 0) [] :=
    ⟨show 2 ≤ _ by decide, trivial, trivial, trivial⟩
  exact (ring_refines_deque hsized).1

end Bsd386.Kern.Subr
