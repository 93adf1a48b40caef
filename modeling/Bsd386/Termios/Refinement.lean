import Bsd386.Lib.Machine
import Bsd386.Termios.Editor

/-!
# The terminal refines the line editor

The rings hold what the editor holds, written one character after the other. They do not hold what
was quoted, so that the terminal agrees with the editor as long as no such character ends a line by
its value, there is room in the rings, and the kill and the word erase characters find nothing that
they miss.
-/

namespace Bsd386.Termios

variable {t : Settings} {tp : Tty} {ed : Editor}

/-- A line as the rings hold it. -/
def Line.chars (l : Line) : List UInt8 := l.body ++ [l.stop]

/-- The lines as the rings hold them. -/
def Editor.finished (ed : Editor) : List UInt8 := ed.lines.flatMap Line.chars

/-- The unfinished line as the rings hold it. -/
def Editor.unfinished (ed : Editor) : List UInt8 := ed.cur.map Ch.char

/-- A line ends at its last character. -/
structure Line.Ended (t : Settings) (l : Line) : Prop where
  stop : ttbreakc t ⟨l.stop, false⟩ = true
  body : ∀ c ∈ l.body, ttbreakc t ⟨c, false⟩ = false

/-- The terminal holds what the editor holds. -/
structure Refines (t : Settings) (tp : Tty) (ed : Editor) : Prop where
  raw : tp.raw.toList = ed.unfinished
  can : tp.can.toList = ed.finished
  lnch : tp.lnch = ed.literal
  ended : ∀ l ∈ ed.lines, l.Ended t

/-- The condition for a character that is mapped. -/
def Fits (t : Settings) (tp : Tty) (ed : Editor) (c : Ch) : Prop :=
  if cceq t.verase c then True
  else if cceq t.vkill c then
    t.echoke ∧ (tp.raw.len : ℤ) = tp.rocount.toInt ∧ t.echoprt = false ∨ 0 ∉ ed.unfinished.dropLast
  else if cceq t.vwerase c then
    ∀ c d rest, (ed.cur.reverse.dropWhile fun e ↦ blank e.char) = c :: d :: rest →
      blank d.char = false
  else if cceq t.vreprint c ∨ cceq t.vstatus c then True
  else if ttbreakc t c then
    ed.finished.length + ed.unfinished.length + 1 < rbsz ∧
      ∀ d ∈ ed.unfinished, ttbreakc t ⟨d, false⟩ = false
  else
    ed.finished.length + ed.unfinished.length < ttyhog ∧ ed.unfinished.length + 1 < rbsz

/-- The condition for a step. -/
def Meets (t : Settings) (tp : Tty) (ed : Editor) : Event → Prop
  | .input c _ =>
    let ch : Ch := ⟨strip t c, ed.literal⟩
    t.iexten ∧ (cceq t.vlnext ch ∨ cceq t.vdiscard ch) ∨ ∀ ch' ∈ mapCr t ch, Fits t tp ed ch'
  | .read _ => True

/-! ### Characters -/

theorem ends_eq_ttbreakc (t : Settings) (c : Ch) : ends t c = ttbreakc t c := by
  rw [Bool.eq_iff_iff, ends, ttbreakc]
  simp only [decide_eq_true_eq, Bool.and_eq_true, Bool.or_eq_true, Bool.not_eq_true', List.mem_cons,
    List.not_mem_nil, or_false, ne_eq, decide_not, decide_eq_false_iff_not]
  tauto

theorem cceq_veof (t : Settings) (c : UInt8) : cceq t.veof ⟨c, false⟩ = isEof t c := by
  rw [Bool.eq_iff_iff, cceq, isEof]
  simp only [Bool.not_false, Bool.true_and, Bool.and_eq_true, decide_eq_true_eq, ne_eq, decide_not,
    Bool.not_eq_true', decide_eq_false_iff_not]
  refine and_congr_right fun h ↦ ?_
  rw [h]

theorem isEof_false {c : UInt8} (h : ttbreakc t ⟨c, false⟩ = false) : isEof t c = false := by
  rw [Bool.eq_false_iff] at h ⊢
  refine fun heof ↦ h ?_
  rw [isEof, decide_eq_true_eq] at heof
  rw [← ends_eq_ttbreakc, ends, decide_eq_true_eq]
  exact ⟨rfl, .inr ⟨heof.2, List.mem_cons.mpr (.inl heof.1)⟩⟩

/-! ### Input -/

/-- The word erase character leaves what the editor leaves. -/
theorem werase_spec {l : List Ch} (hraw : tp.raw.toList = (l.map Ch.char).reverse)
    (hword : ∀ c d rest, (l.dropWhile fun e ↦ blank e.char) = c :: d :: rest →
    blank d.char = false) :
    (werase t tp).raw.toList = ((withoutWord t.altwerase l).map Ch.char).reverse ∧
      Kept tp (werase t tp) := by
  have hlen : (l.map Ch.char).length < rbsz := by
    rw [← List.length_reverse, ← hraw]
    exact tp.raw.length_lt
  obtain ⟨hlast, hrest, hkept⟩ := eraseBlanks_spec (t := t) hraw hlen
  have hmap : (l.map Ch.char).dropWhile blank = (l.dropWhile fun e ↦ blank e.char).map Ch.char :=
    List.dropWhile_map
  rw [hmap] at hlast hrest
  rw [werase, withoutWord]
  revert hlast hrest hkept
  obtain ⟨last, tp'⟩ := eraseBlanks t rbsz tp
  intro hlast hrest hkept
  change last = _ at hlast
  subst hlast
  have hle : (l.dropWhile fun e ↦ blank e.char).length < rbsz := by
    rw [List.length_map] at hlen
    exact (List.dropWhile_sublist _).length_le.trans_lt hlen
  generalize (l.dropWhile fun e ↦ blank e.char) = m at hword hrest hle
  cases m with
  | nil => exact ⟨hrest, hkept⟩
  | cons c m =>
    cases m with
    | nil =>
      rw [List.map_singleton, List.tail_cons, List.reverse_nil] at hrest
      rw [List.map_singleton, List.head?_singleton]
      dsimp only
      rw [ttyrub_raw, unputc, RingBuffer.unpush_eq_none hrest]
      refine ⟨by rw [ttyrub_raw]; exact hrest, ?_, ?_⟩
      · exact (ttyrub_can t _ tp').trans hkept.1
      · exact (ttyrub_lnch t _ tp').trans hkept.2
    | cons d rest =>
      rw [List.map_cons, List.tail_cons, List.map_cons] at hrest
      rw [List.map_cons, List.head?_cons]
      dsimp only
      rw [ttyrub_raw]
      obtain ⟨raw', hunputc, hraw'⟩ := unputc_reverse hrest
      rw [hunputc]
      dsimp only
      obtain ⟨hleft, hkept'⟩ := @eraseRest_spec t { ttyrub t c.char tp' with raw := raw' }
        (isalpha d.char) rbsz d.char (rest.map Ch.char) hraw' (by
          rw [List.length_cons, List.length_cons] at hle
          rw [List.length_map]
          omega)
      have hmap' : (rest.map Ch.char).dropWhile (inWord t (isalpha d.char)) =
          (rest.dropWhile fun e ↦ inWord t (isalpha d.char) e.char).map Ch.char :=
          List.dropWhile_map
      have hfirst : inWord t (isalpha d.char) d.char = true :=
        inWord_iff.mpr ⟨hword c d rest rfl, .inr rfl⟩
      refine ⟨?_, hkept'.1.trans ((ttyrub_can t _ tp').trans hkept.1),
        hkept'.2.trans ((ttyrub_lnch t _ tp').trans hkept.2)⟩
      rw [hleft, hmap']
      have hcons : (d :: rest).dropWhile (fun e ↦ inWord t (isalpha d.char) e.char) =
          rest.dropWhile fun e ↦ inWord t (isalpha d.char) e.char :=
        List.dropWhile_cons_of_pos hfirst
      exact congrArg (fun x ↦ (List.map Ch.char x).reverse) hcons.symm

/-- The kill character leaves nothing. -/
theorem kill_spec (hkill : t.echoke ∧ (tp.raw.len : ℤ) = tp.rocount.toInt ∧ t.echoprt = false ∨
    0 ∉ tp.raw.toList.dropLast) : (kill t tp).raw.toList = [] ∧ Kept tp (kill t tp) := by
  rw [kill]
  split_ifs with hrub
  · exact rubAll_spec tp.raw.length_lt.le
  · exact ⟨killLoop_toList tp.raw.length_lt.le (hkill.resolve_left hrub), rfl, rfl⟩

/-- Editing the unfinished line keeps the refinement. -/
theorem Refines.edited {tp' : Tty} {cur : List Ch} (h : Refines t tp ed)
    (hraw : tp'.raw.toList = cur.map Ch.char) (hkept : Kept tp tp') :
    Refines t tp' { ed with cur := cur } :=
  ⟨hraw, (congrArg RingBuffer.toList hkept.1).trans h.can, hkept.2.trans h.lnch, h.ended⟩

/-- A character is stored as long as it fits. -/
theorem Refines.stored {c : Ch} (h : Refines t tp ed) (hfits : if ttbreakc t c then
      ed.finished.length + ed.unfinished.length + 1 < rbsz ∧
        ∀ d ∈ ed.unfinished, ttbreakc t ⟨d, false⟩ = false
    else ed.finished.length + ed.unfinished.length < ttyhog ∧ ed.unfinished.length + 1 < rbsz) :
    Refines t (store t c tp)
      (if ends t c then { ed with lines := ed.lines ++ [⟨ed.cur.map Ch.char, c.char⟩], cur := [] }
      else { ed with cur := ed.cur ++ [c] }) := by
  have hrawlen : tp.raw.len = ed.unfinished.length := by rw [← h.raw, RingBuffer.length_toList]
  have hcanlen : tp.can.len = ed.finished.length := by rw [← h.can, RingBuffer.length_toList]
  have hroom : tp.raw.len + tp.can.len < ttyhog ∧ tp.raw.len + 1 < rbsz := by
    rw [hrawlen, hcanlen]
    simp only [rbsz, ttyhog] at hfits ⊢
    split_ifs at hfits <;> omega
  obtain ⟨raw', hpush, hraw'⟩ := RingBuffer.push_eq c.char hroom.2
  rw [store, if_neg (Nat.not_le.mpr hroom.1), putc, hpush, ends_eq_ttbreakc]
  dsimp only
  by_cases hbreak : ttbreakc t c = true
  · rw [if_pos hbreak] at hfits
    rw [if_pos hbreak, if_pos hbreak]
    have hlen' : raw'.toList.length = ed.unfinished.length + 1 := by
      rw [hraw', h.raw, List.length_append, List.length_singleton]
    obtain ⟨hempty, hall⟩ := @catb_toList rbsz raw' tp.can raw'.length_lt.le (by
      rw [hlen', h.can]
      exact hfits.1)
    refine ⟨hempty, ?_, h.lnch, ?_⟩
    · change (catb rbsz raw' tp.can).2.toList = (ed.lines ++ [_]).flatMap Line.chars
      rw [hall, h.can, hraw', h.raw, List.flatMap_append, List.flatMap_singleton]
      rfl
    · intro l hl
      rcases List.mem_append.mp hl with hl | hl
      · exact h.ended l hl
      · rw [List.mem_singleton.mp hl]
        refine ⟨?_, hfits.2⟩
        have hquote : c.quote = false := by
          rw [← ends_eq_ttbreakc, ends, decide_eq_true_eq] at hbreak
          exact hbreak.1
        rw [← hquote]
        exact hbreak
  · rw [if_neg hbreak, if_neg hbreak]
    refine h.edited ?_ ⟨rfl, rfl⟩
    rw [hraw', h.raw, List.map_append, List.map_singleton]
    rfl

/-- A character that is mapped. -/
theorem Refines.mapped {info : Bool} {c : Ch} (h : Refines t tp ed) (hfits : Fits t tp ed c) :
    Refines t (canonical t info c tp) (ed.edit t c) := by
  rw [Fits] at hfits
  rw [canonical, Editor.edit]
  by_cases herase : cceq t.verase c = true
  · rw [if_pos herase, if_pos herase]
    exact h.edited (by rw [erase_spec.1, h.raw, Editor.unfinished, List.map_dropLast]) erase_spec.2
  rw [if_neg herase] at hfits ⊢
  rw [if_neg herase]
  by_cases hkill : cceq t.vkill c = true
  · rw [if_pos hkill] at hfits
    rw [if_pos hkill, if_pos hkill]
    rw [← h.raw] at hfits
    exact h.edited (kill_spec hfits).1 (kill_spec hfits).2
  rw [if_neg hkill] at hfits ⊢
  rw [if_neg hkill]
  by_cases hwerase : cceq t.vwerase c = true
  · rw [if_pos hwerase] at hfits
    rw [if_pos hwerase, if_pos hwerase]
    have hraw : tp.raw.toList = (ed.cur.reverse.map Ch.char).reverse := by
      rw [List.map_reverse, List.reverse_reverse]
      exact h.raw
    refine h.edited ?_ (werase_spec hraw hfits).2
    rw [(werase_spec hraw hfits).1, List.map_reverse]
  rw [if_neg hwerase] at hfits ⊢
  rw [if_neg hwerase]
  by_cases hreprint : cceq t.vreprint c = true
  · have heither : cceq t.vreprint c = true ∨ cceq t.vstatus c = true := .inl hreprint
    rw [if_pos hreprint, if_pos heither]
    exact h.edited h.raw ⟨rfl, rfl⟩
  rw [if_neg hreprint]
  by_cases hstatus : cceq t.vstatus c = true
  · have heither : cceq t.vreprint c = true ∨ cceq t.vstatus c = true := .inr hstatus
    rw [if_pos hstatus, if_pos heither]
    split_ifs
    · exact h.edited h.raw ⟨rfl, rfl⟩
    · exact h
  have hneither : ¬(cceq t.vreprint c = true ∨ cceq t.vstatus c = true) :=
    not_or.mpr ⟨hreprint, hstatus⟩
  rw [if_neg hneither] at hfits ⊢
  rw [if_neg hstatus]
  exact h.stored hfits

/-- A character is received. -/
theorem Refines.received {c : UInt8} {info : Bool} (h : Refines t tp ed)
    (hmeets : Meets t tp ed (.input c info)) : Refines t (ttyinput t c info tp) (ed.input t c) := by
  have hplain : ∀ flusho, Refines t { tp with lnch := false, flusho := flusho }
      { ed with literal := false } := fun _ ↦ ⟨h.raw, h.can, rfl, h.ended⟩
  rw [Meets] at hmeets
  rw [ttyinput, Editor.input]
  dsimp only at hmeets ⊢
  rw [h.lnch]
  by_cases hlnext : t.iexten = true ∧ cceq t.vlnext ⟨strip t c, ed.literal⟩ = true
  · rw [if_pos hlnext, if_pos hlnext]
    exact ⟨h.raw, h.can, rfl, h.ended⟩
  rw [if_neg hlnext, if_neg hlnext]
  by_cases hdiscard : t.iexten = true ∧ cceq t.vdiscard ⟨strip t c, ed.literal⟩ = true
  · rw [if_pos hdiscard, if_pos hdiscard]
    split_ifs <;> exact ⟨h.raw, h.can, rfl, h.ended⟩
  rw [if_neg hdiscard, if_neg hdiscard]
  have hfits := hmeets.resolve_left fun hspecial ↦ hspecial.2.elim
    (fun hl ↦ hlnext ⟨hspecial.1, hl⟩) (fun hd ↦ hdiscard ⟨hspecial.1, hd⟩)
  cases hmap : mapCr t ⟨strip t c, ed.literal⟩ with
  | none => exact hplain _
  | some ch =>
    have hthis : Refines t (canonical t info ch { tp with lnch := false })
        (Editor.edit t ch { ed with literal := false }) :=
      Refines.mapped (hplain tp.flusho) (hfits ch hmap)
    exact ⟨hthis.raw, hthis.can, hthis.lnch, hthis.ended⟩

/-! ### Reading -/

/-- The loop of `ttread` finds a line. -/
theorem readLoop_line {l : Line} (hended : l.Ended t) {rest : List UInt8} {rb : Ringb} {r : ℕ}
    (hrb : rb.toList = l.chars ++ rest) :
    if r + 1 ≤ l.body.length then
      (readLoop t (r + 1) rb).1 = l.body.take (r + 1) ∧
        (readLoop t (r + 1) rb).2.toList =
          Line.chars { l with body := l.body.drop (r + 1) } ++ rest
    else (readLoop t (r + 1) rb).1 = l.body ++ delivered t l.stop ∧
      (readLoop t (r + 1) rb).2.toList = rest := by
  obtain ⟨body, stop⟩ := l
  induction body generalizing r rb with
  | nil =>
    refine (if_neg (Nat.not_succ_le_zero r)).mpr ?_
    obtain ⟨rb', hpop, hrb'⟩ := RingBuffer.pop_eq hrb
    rw [readLoop, getc, hpop]
    dsimp only
    rw [cceq_veof, delivered]
    have hstop : ttbreakc t ⟨stop, false⟩ = true := hended.stop
    split_ifs with heof hlast
    · exact ⟨rfl, hrb'⟩
    · exact ⟨rfl, hrb'⟩
    · exact ⟨rfl, hrb'⟩
  | cons c body ih =>
    have hc : ttbreakc t ⟨c, false⟩ = false := hended.body c (List.mem_cons_self ..)
    obtain ⟨rb', hpop, hrb'⟩ := RingBuffer.pop_eq hrb
    rw [readLoop, getc, hpop]
    dsimp only
    rw [cceq_veof, isEof_false hc, if_neg Bool.false_ne_true, hc, if_neg Bool.false_ne_true]
    cases r with
    | zero =>
      rw [if_pos rfl, if_pos (by simp)]
      exact ⟨rfl, hrb'⟩
    | succ r =>
      rw [if_neg (Nat.succ_ne_zero r)]
      have hrest := ih ⟨hended.stop, fun d hd ↦ hended.body d (List.mem_cons_of_mem c hd)⟩
        (r := r) hrb'
      rw [List.length_cons]
      by_cases hle : r + 1 ≤ body.length
      · rw [if_pos hle] at hrest
        rw [if_pos (Nat.succ_le_succ hle)]
        exact ⟨congrArg (c :: ·) hrest.1, hrest.2⟩
      · rw [if_neg hle] at hrest
        rw [if_neg fun h ↦ hle (Nat.le_of_succ_le_succ h)]
        exact ⟨congrArg (c :: ·) hrest.1, hrest.2⟩

/-- Somebody reads. -/
theorem Refines.fetched (h : Refines t tp ed) (size : ℕ) :
    (step t tp (.read size)).1 = (ed.step t (.read size)).1 ∧
      Refines t (step t tp (.read size)).2 (ed.step t (.read size)).2 := by
  rw [step, Editor.step, Editor.read]
  cases size with
  | zero =>
    rw [specRead, if_pos rfl]
    exact ⟨rfl, h⟩
  | succ resid =>
    rw [specRead, if_neg (Nat.succ_ne_zero resid), ttread]
    have hlen : tp.can.len = ed.finished.length := by rw [← h.can, RingBuffer.length_toList]
    have hcan := h.can
    have hended := h.ended
    rw [Editor.finished] at hlen hcan
    cases hlines : ed.lines with
    | nil =>
      rw [hlines, List.flatMap_nil, List.length_nil] at hlen
      rw [if_pos hlen]
      exact ⟨rfl, h⟩
    | cons line lines =>
      rw [hlines, List.flatMap_cons] at hlen hcan
      rw [hlines] at hended
      have hne : tp.can.len ≠ 0 := by
        rw [hlen, Line.chars, List.append_assoc, List.length_append, List.length_append]
        simp
      have hread := readLoop_line (hended line (List.mem_cons_self ..)) (r := resid) hcan
      rw [if_neg hne]
      dsimp only
      split_ifs at hread ⊢ with hle
      · refine ⟨congrArg some hread.1, h.raw, hread.2.trans ?_, h.lnch, ?_⟩
        · rw [Editor.finished, List.flatMap_cons]
        · intro l hl
          rcases List.mem_cons.mp hl with hl | hl
          · rw [hl]
            exact ⟨(hended line (List.mem_cons_self ..)).stop, fun c hc ↦
              (hended line (List.mem_cons_self ..)).body c (List.mem_of_mem_drop hc)⟩
          · exact hended l (List.mem_cons_of_mem line hl)
      · exact ⟨congrArg some hread.1, h.raw, hread.2, h.lnch, fun l hl ↦
          hended l (List.mem_cons_of_mem line hl)⟩

/-! ### Runs -/

/-- A step that meets the condition returns what the editor returns. -/
theorem Refines.stepped {e : Event} (h : Refines t tp ed) (hmeets : Meets t tp ed e) :
    (step t tp e).1 = (ed.step t e).1 ∧ Refines t (step t tp e).2 (ed.step t e).2 := by
  cases e with
  | input c info => exact ⟨rfl, h.received hmeets⟩
  | read size => exact h.fetched size

/-- A terminal that has just been opened. -/
structure Opened (tp : Tty) : Prop where
  raw : tp.raw.toList = []
  can : tp.can.toList = []
  lnch : tp.lnch = false

/-- The editor before anything is typed. -/
def Editor.empty : Editor := ⟨[], [], false⟩

/-- Readers get what the line editor gives them, line by line, and the rings hold what it still
holds. -/
theorem terminal_refines_editor (t : Settings) (es : List Event) {tp : Tty} (hopened : Opened tp)
    (hmeets : Machine.Along (step t) (Editor.step t) (Meets t) es tp Editor.empty) :
    (Machine.run (step t) es tp).1 = (Machine.run (Editor.step t) es Editor.empty).1 ∧
      Refines t (Machine.run (step t) es tp).2 (Machine.run (Editor.step t) es Editor.empty).2 :=
  Machine.run_eq_of_simulation (f := step t) (g := Editor.step t)
    (fun _ _ _ h hmeets ↦ Refines.stepped h hmeets) es
    ⟨hopened.raw, hopened.can, hopened.lnch, fun _ hl ↦ absurd hl List.not_mem_nil⟩ hmeets

/-! ### Examples -/

/-- A terminal as it is set up: the word erase, literal next and end of file characters are ^W, ^V
and ^D. -/
def plain : Settings where
  veof := 4
  veol := 255
  veol2 := 255
  verase := 127
  vwerase := 23
  vkill := 21
  vreprint := 18
  vlnext := 22
  vdiscard := 15
  vstatus := 20
  istrip := false
  igncr := false
  icrnl := true
  inlcr := false
  imaxbel := true
  echo := true
  echoe := true
  echoke := true
  echoprt := false
  altwerase := false
  iexten := true
  nokerninfo := false

theorem rbsz_pos : 0 < rbsz := by decide

/-- The same terminal when it is opened. -/
def idle : Tty where
  raw := ⟨fun _ ↦ 0, 0, 0, rbsz_pos, rbsz_pos⟩
  can := ⟨fun _ ↦ 0, 0, 0, rbsz_pos, rbsz_pos⟩
  lnch := false
  flusho := false
  rocount := 0

theorem idle_opened : Opened idle := ⟨rfl, rfl, rfl⟩

/-- Two words are typed, the second one is erased, and the line is read. -/
theorem idle_erases : (Machine.run (step plain) [.input 97 false, .input 32 false, .input 98 false,
      .input 98 false, .input 23 false, .input 13 false, .read 9] idle).1 =
    [none, none, none, none, none, none, some [97, 32, 10]] := by
  refine (terminal_refines_editor plain _ idle_opened ?_).1.trans (by decide)
  refine ⟨.inr ?_, .inr ?_, .inr ?_, .inr ?_, .inr ?_, .inr ?_, trivial, trivial⟩
  all_goals
    intro ch' hch'
    cases hch'
  · exact And.intro (by decide) (by decide)
  · exact And.intro (by decide) (by decide)
  · exact And.intro (by decide) (by decide)
  · exact And.intro (by decide) (by decide)
  · intro c d rest hword
    cases hword
    rfl
  · exact And.intro (by decide +kernel) (by decide +kernel)

/-- ^D is typed behind ^V, and then a letter and a newline. The readers find the end of the file
instead. -/
theorem literal_ends_line :
    Machine.Along (step plain) (Editor.step plain) (fun tp _ _ ↦ tp.raw.len + tp.can.len < ttyhog)
        [.input 22 false, .input 4 false, .input 97 false, .input 10 false, .read 9] idle .empty ∧
      (Machine.run (step plain)
        [.input 22 false, .input 4 false, .input 97 false, .input 10 false, .read 9] idle).1 =
          [none, none, none, none, some []] ∧
      (Machine.run (Editor.step plain)
        [.input 22 false, .input 4 false, .input 97 false, .input 10 false, .read 9] .empty).1 =
          [none, none, none, none, some [4, 97, 10]] := by
  refine ⟨⟨?_, ?_, ?_, ?_, ?_, trivial⟩, ?_, ?_⟩ <;> decide

end Bsd386.Termios
