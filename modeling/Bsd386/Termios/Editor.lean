import Bsd386.Termios.Basic

/-!
# The line editor

What a terminal is for: characters make up a line that can be edited until it ends, and readers get
lines one after the other. A character behind `VLNEXT` is data whatever its value.
-/

namespace Bsd386.Termios

/-- A line that has ended: what it says, and the character that ended it. -/
structure Line where
  body : List UInt8
  stop : UInt8

/-- The lines for the readers, the unfinished line, and whether the next character is data. -/
structure Editor where
  lines : List Line
  cur : List Ch
  literal : Bool

/-- The delimiters. -/
def ends (t : Settings) (c : Ch) : Bool :=
  c.quote = false ∧ (c.char = 10 ∨ c.char ≠ posixVdisable ∧ c.char ∈ [t.veof, t.veol, t.veol2])

/-- The end of file. -/
def isEof (t : Settings) (c : UInt8) : Bool := c = t.veof ∧ c ≠ posixVdisable

/-- What is left of a reversed line when its last word is erased. With `altwerase` a word is of one
class of characters, the last character apart. -/
def withoutWord (alt : Bool) (l : List Ch) : List Ch :=
  match l.dropWhile fun c ↦ blank c.char with
  | [] => []
  | [_] => []
  | _ :: d :: rest => (d :: rest).dropWhile fun e ↦
      !blank e.char && (!alt || isalpha e.char == isalpha d.char)

/-- A character that is mapped. -/
def Editor.edit (t : Settings) (c : Ch) (ed : Editor) : Editor :=
  if cceq t.verase c then { ed with cur := ed.cur.dropLast }
  else if cceq t.vkill c then { ed with cur := [] }
  else if cceq t.vwerase c then { ed with cur := (withoutWord t.altwerase ed.cur.reverse).reverse }
  else if cceq t.vreprint c ∨ cceq t.vstatus c then ed
  else if ends t c then { ed with lines := ed.lines ++ [⟨ed.cur.map Ch.char, c.char⟩], cur := [] }
  else { ed with cur := ed.cur ++ [c] }

/-- A character is received. -/
def Editor.input (t : Settings) (c : UInt8) (ed : Editor) : Editor :=
  let ch : Ch := ⟨strip t c, ed.literal⟩
  let ed := { ed with literal := false }
  if t.iexten ∧ cceq t.vlnext ch then { ed with literal := true }
  else if t.iexten ∧ cceq t.vdiscard ch then ed
  else
    match mapCr t ch with
    | none => ed
    | some ch => ed.edit t ch

/-- What is delivered of the character that ended a line. -/
def delivered (t : Settings) (c : UInt8) : List UInt8 := if isEof t c then [] else [c]

/-- Somebody reads, unless there is no line. What does not fit of a line is left. -/
def Editor.read (t : Settings) (ed : Editor) (size : ℕ) : Option (List UInt8 × Editor) :=
  if size = 0 then some ([], ed)
  else
    match ed.lines with
    | [] => none
    | line :: lines =>
      if size ≤ line.body.length then
        some (line.body.take size,
          { ed with lines := { line with body := line.body.drop size } :: lines })
      else some (line.body ++ delivered t line.stop, { ed with lines := lines })

/-- A step of the editor, and what it returns. -/
def Editor.step (t : Settings) (ed : Editor) : Event → Option (List UInt8) × Editor
  | .input c _ => (none, ed.input t c)
  | .read size =>
    match ed.read t size with
    | none => (none, ed)
    | some (l, ed) => (some l, ed)

end Bsd386.Termios

/-!
# Queues of characters

What the loops of the terminal do to the contents of its rings.
-/

namespace Bsd386.Termios

variable {t : Settings} {tp : Tty}

@[simp] theorem ttyrub_raw (t : Settings) (c : UInt8) (tp : Tty) :
    (ttyrub t c tp).raw = tp.raw := by
  rw [ttyrub]
  split_ifs <;> rfl

@[simp] theorem ttyrub_can (t : Settings) (c : UInt8) (tp : Tty) :
    (ttyrub t c tp).can = tp.can := by
  rw [ttyrub]
  split_ifs <;> rfl

@[simp] theorem ttyrub_lnch (t : Settings) (c : UInt8) (tp : Tty) :
    (ttyrub t c tp).lnch = tp.lnch := by
  rw [ttyrub]
  split_ifs <;> rfl

/-- Editing leaves the finished lines and the literal next flag. -/
def Kept (tp tp' : Tty) : Prop := tp'.can = tp.can ∧ tp'.lnch = tp.lnch

theorem Kept.refl (tp : Tty) : Kept tp tp := ⟨rfl, rfl⟩

theorem Kept.of_ttyrub {c : UInt8} {raw : Ringb} {tp' : Tty}
    (h : Kept (ttyrub t c { tp with raw := raw }) tp') : Kept tp tp' :=
  ⟨h.1.trans (ttyrub_can t c _), h.2.trans (ttyrub_lnch t c _)⟩

/-- `catb` moves all characters where there is room for them. -/
theorem catb_toList {fuel : ℕ} {source target : Ringb} (hfuel : source.toList.length ≤ fuel)
    (hroom : target.toList.length + source.toList.length < rbsz) :
    (catb fuel source target).1.toList = [] ∧
      (catb fuel source target).2.toList = target.toList ++ source.toList := by
  induction fuel generalizing source target with
  | zero =>
    have hnil : source.toList = [] := List.length_eq_zero_iff.mp (Nat.le_zero.mp hfuel)
    exact ⟨hnil, by rw [hnil, List.append_nil]; rfl⟩
  | succ fuel ih =>
    rw [catb]
    cases hsource : source.toList with
    | nil =>
      rw [getc, RingBuffer.pop_eq_none hsource]
      exact ⟨hsource, (List.append_nil _).symm⟩
    | cons c l =>
      rw [hsource, List.length_cons] at hfuel hroom
      obtain ⟨source', hpop, hsource'⟩ := RingBuffer.pop_eq hsource
      have hlen : target.len + 1 < rbsz := by
        rw [← target.length_toList]
        omega
      obtain ⟨target', hpush, htarget'⟩ := RingBuffer.push_eq c hlen
      rw [getc, hpop]
      dsimp only
      rw [putc, hpush]
      have hroom' : target'.toList.length + source'.toList.length < rbsz := by
        rw [htarget', hsource', List.length_append, List.length_singleton]
        omega
      obtain ⟨hempty, hall⟩ := ih (by rw [hsource']; omega) hroom'
      refine ⟨hempty, hall.trans ?_⟩
      rw [htarget', hsource', List.append_assoc, List.singleton_append]

/-- The loop of the kill character takes all characters where only the last one can be zero. -/
theorem killLoop_toList {fuel : ℕ} {rb : Ringb} (hfuel : rb.toList.length ≤ fuel)
    (hzero : 0 ∉ rb.toList.dropLast) : (killLoop fuel rb).toList = [] := by
  induction fuel generalizing rb with
  | zero => exact List.length_eq_zero_iff.mp (Nat.le_zero.mp hfuel)
  | succ fuel ih =>
    rw [killLoop]
    cases hrb : rb.toList with
    | nil =>
      rw [getc, RingBuffer.pop_eq_none hrb]
      exact hrb
    | cons c l =>
      obtain ⟨rb', hpop, hrb'⟩ := RingBuffer.pop_eq hrb
      rw [getc, hpop]
      rw [hrb] at hfuel hzero
      rw [List.length_cons] at hfuel
      cases l with
      | nil =>
        dsimp only
        split_ifs
        · exact ih (by rw [hrb']; exact Nat.zero_le _) (by rw [hrb']; exact List.not_mem_nil)
        · exact hrb'
      | cons d l =>
        rw [List.dropLast_cons_cons, List.mem_cons, not_or] at hzero
        have hpos : 0 < c := UInt8.pos_iff_ne_zero.mpr (Ne.symm hzero.1)
        dsimp only
        rw [if_pos hpos]
        exact ih (by rw [hrb']; omega) (by rw [hrb']; exact hzero.2)

/-- The other loop of the kill character takes all characters. -/
theorem rubAll_spec {fuel : ℕ} (hfuel : tp.raw.toList.length ≤ fuel) :
    (rubAll t fuel tp).raw.toList = [] ∧ Kept tp (rubAll t fuel tp) := by
  induction fuel generalizing tp with
  | zero => exact ⟨List.length_eq_zero_iff.mp (Nat.le_zero.mp hfuel), Kept.refl tp⟩
  | succ fuel ih =>
    rw [rubAll]
    rcases List.eq_nil_or_concat tp.raw.toList with hraw | ⟨l, c, hraw⟩
    · rw [unputc, RingBuffer.unpush_eq_none hraw]
      exact ⟨hraw, Kept.refl tp⟩
    · rw [List.concat_eq_append] at hraw
      obtain ⟨raw', hunpush, hraw'⟩ := RingBuffer.unpush_eq hraw
      rw [unputc, hunpush]
      have hlen : (ttyrub t c { tp with raw := raw' }).raw.toList.length ≤ fuel := by
        rw [ttyrub_raw, hraw']
        rw [hraw, List.length_append, List.length_singleton] at hfuel
        omega
      exact ⟨(ih hlen).1, (ih hlen).2.of_ttyrub⟩

theorem erase_spec :
    (erase t tp).raw.toList = tp.raw.toList.dropLast ∧ Kept tp (erase t tp) := by
  rw [erase]
  rcases List.eq_nil_or_concat tp.raw.toList with hraw | ⟨l, c, hraw⟩
  · rw [unputc, RingBuffer.unpush_eq_none hraw]
    exact ⟨by rw [hraw]; rfl, Kept.refl tp⟩
  · rw [List.concat_eq_append] at hraw
    obtain ⟨raw', hunpush, hraw'⟩ := RingBuffer.unpush_eq hraw
    rw [unputc, hunpush]
    exact ⟨by rw [ttyrub_raw, hraw', hraw, List.dropLast_concat], (Kept.refl _).of_ttyrub⟩

/-- `unputc` of a line that is written from its end. -/
theorem unputc_reverse {rb : Ringb} {c : UInt8} {l : List UInt8}
    (hrb : rb.toList = (c :: l).reverse) :
    ∃ rb', unputc rb = some (c, rb') ∧ rb'.toList = l.reverse := by
  rw [List.reverse_cons] at hrb
  exact RingBuffer.unpush_eq hrb

theorem eraseBlanks_spec {fuel : ℕ} {l : List UInt8} (hraw : tp.raw.toList = l.reverse)
    (hfuel : l.length < fuel) :
    (eraseBlanks t fuel tp).1 = (l.dropWhile blank).head? ∧
      (eraseBlanks t fuel tp).2.raw.toList = (l.dropWhile blank).tail.reverse ∧
      Kept tp (eraseBlanks t fuel tp).2 := by
  induction l generalizing fuel tp with
  | nil =>
    obtain ⟨fuel, rfl⟩ := Nat.exists_eq_succ_of_ne_zero (Nat.ne_of_gt hfuel)
    rw [eraseBlanks, unputc, RingBuffer.unpush_eq_none hraw]
    exact ⟨rfl, hraw, Kept.refl tp⟩
  | cons c l ih =>
    obtain ⟨fuel, rfl⟩ := Nat.exists_eq_succ_of_ne_zero (Nat.ne_of_gt (Nat.zero_lt_of_lt hfuel))
    obtain ⟨raw', hunputc, hraw'⟩ := unputc_reverse hraw
    rw [eraseBlanks, hunputc]
    dsimp only
    cases hblank : blank c with
    | false =>
      rw [if_neg Bool.false_ne_true, List.dropWhile_cons_of_neg
        (by rw [hblank]; exact Bool.false_ne_true)]
      exact ⟨rfl, hraw', rfl, rfl⟩
    | true =>
      rw [if_pos rfl, List.dropWhile_cons_of_pos hblank]
      rw [List.length_cons] at hfuel
      obtain ⟨hlast, hrest, hkept⟩ := @ih (ttyrub t c { tp with raw := raw' }) fuel
        (by rw [ttyrub_raw, hraw']) (by omega)
      exact ⟨hlast, hrest, hkept.of_ttyrub⟩

/-- The characters that go with a word. -/
def inWord (t : Settings) (ctype : Bool) (c : UInt8) : Bool :=
  !blank c && (!t.altwerase || isalpha c == ctype)

theorem inWord_iff {ctype : Bool} {c : UInt8} : inWord t ctype c = true ↔
    blank c = false ∧ (t.altwerase = false ∨ isalpha c = ctype) := by
  rw [inWord, Bool.and_eq_true, Bool.or_eq_true, Bool.not_eq_true', Bool.not_eq_true', beq_iff_eq]

theorem eraseRest_spec {ctype : Bool} {fuel : ℕ} {c : UInt8} {l : List UInt8}
    (hraw : tp.raw.toList = l.reverse) (hfuel : l.length < fuel) :
    (eraseRest t ctype fuel c tp).raw.toList = (l.dropWhile (inWord t ctype)).reverse ∧
      Kept tp (eraseRest t ctype fuel c tp) := by
  induction l generalizing fuel c tp with
  | nil =>
    obtain ⟨fuel, rfl⟩ := Nat.exists_eq_succ_of_ne_zero (Nat.ne_of_gt hfuel)
    rw [eraseRest, ttyrub_raw, unputc, RingBuffer.unpush_eq_none hraw]
    exact ⟨by rw [ttyrub_raw]; exact hraw, ttyrub_can t c tp, ttyrub_lnch t c tp⟩
  | cons d l ih =>
    obtain ⟨fuel, rfl⟩ := Nat.exists_eq_succ_of_ne_zero (Nat.ne_of_gt (Nat.zero_lt_of_lt hfuel))
    obtain ⟨raw', hunputc, hraw'⟩ := unputc_reverse hraw
    rw [List.length_cons] at hfuel
    rw [eraseRest, ttyrub_raw, hunputc]
    dsimp only
    by_cases hword : inWord t ctype d = true
    · rw [if_pos (inWord_iff.mp hword), List.dropWhile_cons_of_pos hword]
      obtain ⟨hrest, hkept⟩ := @ih { ttyrub t c tp with raw := raw' } fuel d hraw' (by omega)
      exact ⟨hrest, hkept.1.trans (ttyrub_can t c tp), hkept.2.trans (ttyrub_lnch t c tp)⟩
    · rw [if_neg fun h ↦ hword (inWord_iff.mpr h), List.dropWhile_cons_of_neg hword]
      -- The character is put back, and there was room for it before.
      have hlen : raw'.len + 1 < rbsz := by
        have hlt := tp.raw.length_lt
        rw [hraw, List.length_reverse, List.length_cons] at hlt
        rwa [← raw'.length_toList, hraw', List.length_reverse]
      obtain ⟨raw'', hpush, hraw''⟩ := RingBuffer.push_eq d hlen
      rw [putc, hpush]
      refine ⟨?_, ttyrub_can t c tp, ttyrub_lnch t c tp⟩
      change raw''.toList = _
      rw [hraw'', hraw', List.reverse_cons]

end Bsd386.Termios
