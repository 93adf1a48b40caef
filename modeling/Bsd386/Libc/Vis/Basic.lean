import Mathlib.Data.List.Basic
import Mathlib.Data.Nat.Notation

/-!
# Visual encoding

`vis`, `strvis` and `strvisx` of `libc/gen/vis.c`, and `unvis` and `strunvis` of `libc/gen/unvis.c`.
Characters are signed, so that the ones with the high bit are none of the graphic ones.
-/

namespace Bsd386.Libc.Vis

/-- A byte. -/
abbrev Byte : Type := BitVec 8

/-- A character of the source. -/
def ascii (c : Char) : Byte := BitVec.ofNat 8 c.toNat

/-- The flags of `vis`. -/
structure Flag where
  octal : Bool
  cstyle : Bool
  sp : Bool
  tab : Bool
  nl : Bool
  safe : Bool
  noslash : Bool

/-- `isgraph`, by the table of `ctype_.c`. -/
def isgraph (c : Byte) : Bool := 0x21 ≤ c && c ≤ 0x7e

/-- `iscntrl`. -/
def iscntrl (c : Byte) : Bool := c < 0x20 || c = 0x7f

/-- `isoctal`. -/
def isoctal (c : Byte) : Bool := ascii '0' ≤ c && c ≤ ascii '7'

/-- The backslash. -/
def slash : Byte := 0x5c

/-! ## Encoding -/

/-- The characters that are left as they are. -/
def Flag.leaves (flag : Flag) (c : Byte) : Bool :=
  isgraph c || !flag.sp && c = 0x20 || !flag.tab && c = 0x09 || !flag.nl && c = 0x0a ||
    flag.safe && (c = 0x08 || c = 0x07 || c = 0x0d)

/-- The encodings of `VIS_CSTYLE`. -/
def cescape (c nextc : Byte) : Option (List Byte) :=
  if c = 0x0a then some [slash, ascii 'n']
  else if c = 0x0d then some [slash, ascii 'r']
  else if c = 0x08 then some [slash, ascii 'b']
  else if c = 0x07 then some [slash, ascii 'a']
  else if c = 0x0b then some [slash, ascii 'v']
  else if c = 0x09 then some [slash, ascii 't']
  else if c = 0x0c then some [slash, ascii 'f']
  else if c = 0x20 then some [slash, ascii 's']
  else if c = 0x00 then
    some ([slash, ascii '0'] ++ if isoctal nextc then [ascii '0', ascii '0'] else [])
  else none

/-- The octal encoding behind the backslash. -/
def octalDigits (c : Byte) : List Byte :=
  [(c >>> 6 &&& 0x07) + ascii '0', (c >>> 3 &&& 0x07) + ascii '0', (c &&& 0x07) + ascii '0']

/-- The encoding of control characters and characters with the high bit behind the backslash. -/
def metaChars (c : Byte) : List Byte :=
  let high := c &&& 0x80 ≠ 0
  let low := if high then c &&& 0x7f else c
  (if high then [ascii 'M'] else []) ++
    if iscntrl low then [ascii '^', if low = 0x7f then ascii '?' else low + ascii '@']
    else [ascii '-', low]

/-- `vis`, with the characters that it adds. -/
def vis (flag : Flag) (c nextc : Byte) : List Byte :=
  if flag.leaves c then
    if c = slash && !flag.noslash then [c, slash] else [c]
  else
    match if flag.cstyle then cescape c nextc else none with
    | some out => out
    | none =>
      if c &&& 0x7f = 0x20 || flag.octal then slash :: octalDigits c
      else (if flag.noslash then [] else [slash]) ++ metaChars c

/-- `strvis` of a string that ends with a zero byte. -/
def strvis (flag : Flag) : List Byte → List Byte
  | [] => []
  | c :: src => if c = 0 then [] else vis flag c (src.headD 0) ++ strvis flag src

/-- The loop of `strvisx`, in which the source stays where it is. -/
def strvisxLoop (flag : Flag) (src : List Byte) : ℕ → List Byte
  | 0 => []
  | 1 => vis flag (src.headD 0) 0
  | len + 2 => vis flag (src.headD 0) (src.tail.headD 0) ++ strvisxLoop flag src (len + 1)

/-- `strvisx`. -/
def strvisx (flag : Flag) (src : List Byte) : List Byte := strvisxLoop flag src src.length

/-- What is at the destination behind `strvisx`: `vis` ends what it has added with a zero byte. -/
def stored (old out : List Byte) : List Byte :=
  if out = [] then old else out ++ 0 :: old.drop (out.length + 1)

/-! ## Decoding -/

/-- The states of the decoder. -/
inductive State
  | ground
  | start
  | high
  | high1
  | ctrl
  | octal2
  | octal3
  deriving DecidableEq

/-- What `unvis` returns. -/
inductive Code
  | more
  | valid
  | validpush
  | nochar
  | synbad
  deriving DecidableEq

/-- What `unvis` returns, with the destination and the state behind it. -/
abbrev Decoded : Type := Code × Byte × State

/-- The characters behind a backslash. -/
def unvisStart (cp c : Byte) : Decoded :=
  if c = slash then (.valid, c, .ground)
  else if isoctal c then (.more, c - ascii '0', .octal2)
  else if c = ascii 'M' then (.more, 0x80, .high)
  else if c = ascii '^' then (.more, cp, .ctrl)
  else if c = ascii 'n' then (.valid, 0x0a, .ground)
  else if c = ascii 'r' then (.valid, 0x0d, .ground)
  else if c = ascii 'b' then (.valid, 0x08, .ground)
  else if c = ascii 'a' then (.valid, 0x07, .ground)
  else if c = ascii 'v' then (.valid, 0x0b, .ground)
  else if c = ascii 't' then (.valid, 0x09, .ground)
  else if c = ascii 'f' then (.valid, 0x0c, .ground)
  else if c = ascii 's' then (.valid, 0x20, .ground)
  else if c = ascii 'E' then (.valid, 0x1b, .ground)
  else if c = 0x0a then (.nochar, cp, .ground)
  else if c = ascii '$' then (.nochar, cp, .ground)
  else (.synbad, cp, .ground)

/-- `unvis` for a character. -/
def unvis (cp c : Byte) : State → Decoded
  | .ground => if c = slash then (.more, 0, .start) else (.valid, c, .ground)
  | .start => unvisStart cp c
  | .high =>
    if c = ascii '-' then (.more, cp, .high1)
    else if c = ascii '^' then (.more, cp, .ctrl)
    else (.synbad, cp, .ground)
  | .high1 => (.valid, cp ||| c, .ground)
  | .ctrl => (.valid, cp ||| if c = ascii '?' then 0x7f else c &&& 0x1f, .ground)
  | .octal2 =>
    if isoctal c then (.more, (cp <<< 3) + (c - ascii '0'), .octal3) else (.validpush, cp, .ground)
  | .octal3 =>
    if isoctal c then (.valid, (cp <<< 3) + (c - ascii '0'), .ground)
    else (.validpush, cp, .ground)

/-- What `strunvis` has written, the byte at the destination, and the state. -/
structure Decoder where
  out : List Byte
  cp : Byte
  state : State

/-- The destination moves on. What it holds there is from before the call. -/
def Decoder.advance (fresh : ℕ → Byte) (out : List Byte) (cp : Byte) (state : State) : Decoder :=
  ⟨out ++ [cp], fresh (out.length + 1), state⟩

/-- A turn of `strunvis`, in which a character is pushed back at most once, since the ground state
pushes none back. -/
def feed (fresh : ℕ → Byte) (c : Byte) : ℕ → Decoder → Option Decoder
  | 0, _ => none
  | turns + 1, d =>
    match unvis d.cp c d.state with
    | (.valid, cp, state) => some (.advance fresh d.out cp state)
    | (.validpush, cp, state) => feed fresh c turns (.advance fresh d.out cp state)
    | (.more, cp, state) | (.nochar, cp, state) => some ⟨d.out, cp, state⟩
    | (.synbad, _, _) => none

/-- The end of `strunvis`, with `unvis` for `UNVIS_END`. -/
def finish (d : Decoder) : List Byte :=
  if d.state = .octal2 || d.state = .octal3 then d.out ++ [d.cp] else d.out

/-- The loop of `strunvis`, which ends at a zero byte. It fails where it returns -1 and where the
memory ends. -/
def decode (fresh : ℕ → Byte) : List Byte → Decoder → Option (List Byte)
  | [], _ => none
  | c :: src, d =>
    if c = 0 then some (finish d) else (feed fresh c 2 d).bind (decode fresh src)

/-- `strunvis`. -/
def strunvis (fresh : ℕ → Byte) (src : List Byte) : Option (List Byte) :=
  decode fresh src ⟨[], fresh 0, .ground⟩

end Bsd386.Libc.Vis

/-!
# The visual encoding is undone

What `vis` makes of a character leads the decoder back to the ground state with that character. So
`strvis` is undone; `strvisx` encodes the first byte over and over again, as its source stays where
it is.
-/

namespace Bsd386.Libc.Vis

variable {flag : Flag} {fresh : ℕ → Byte} {c nextc cp : Byte} {e out rest src old : List Byte}
  {state : State}

/-! ## Escapes -/

/-- What the decoder makes of the rest of an escape. -/
def run : State → Byte → List Byte → Option Byte
  | _, _, [] => none
  | state, cp, c :: cs =>
    match unvis cp c state with
    | (.valid, cp, .ground) => if cs = [] then some cp else none
    | (.more, cp, state) => run state cp cs
    | _ => none

/-- A complete escape without its backslash: it stands for a character, and it is graphic and
short. -/
structure Escape (c : Byte) (e : List Byte) : Prop where
  run_eq : run .start 0 e = some c
  graph : ∀ x ∈ e, isgraph x = true
  length_le : e.length ≤ 3

instance (c : Byte) (e : List Byte) : Decidable (Escape c e) :=
  decidable_of_iff (run .start 0 e = some c ∧ (∀ x ∈ e, isgraph x = true) ∧ e.length ≤ 3)
    ⟨fun h ↦ ⟨h.1, h.2.1, h.2.2⟩, fun h ↦ ⟨h.run_eq, h.graph, h.length_le⟩⟩

/-- The digits are no backslash, and stand for themselves. -/
theorem digit_spec : ∀ d : Byte, d &&& 0x07 = d →
    d + ascii '0' ≠ slash ∧ isoctal (d + ascii '0') = true ∧ d + ascii '0' - ascii '0' = d ∧
      isgraph (d + ascii '0') = true := by
  decide

theorem digits_join : ∀ c : Byte,
    (((c >>> 6 &&& 0x07) <<< 3 + (c >>> 3 &&& 0x07)) <<< 3) + (c &&& 0x07) = c := by
  decide

theorem and_seven (c : Byte) : c &&& 0x07 &&& 0x07 = c &&& 0x07 := by
  rw [BitVec.and_assoc, BitVec.and_self]

theorem escape_octalDigits (c : Byte) : Escape c (octalDigits c) := by
  obtain ⟨hslash₁, hoctal₁, hsub₁, hgraph₁⟩ := digit_spec (c >>> 6 &&& 0x07) (and_seven _)
  obtain ⟨-, hoctal₂, hsub₂, hgraph₂⟩ := digit_spec (c >>> 3 &&& 0x07) (and_seven _)
  obtain ⟨-, hoctal₃, hsub₃, hgraph₃⟩ := digit_spec (c &&& 0x07) (and_seven _)
  refine ⟨?_, ?_, Nat.le_refl _⟩
  · rw [octalDigits, run, unvis, unvisStart, if_neg hslash₁, if_pos hoctal₁, hsub₁]
    dsimp only
    rw [run, unvis, if_pos hoctal₂, hsub₂]
    dsimp only
    rw [run, unvis, if_pos hoctal₃, hsub₃, digits_join]
    rfl
  · rw [octalDigits, List.forall_mem_cons, List.forall_mem_cons, List.forall_mem_singleton]
    exact ⟨hgraph₁, hgraph₂, hgraph₃⟩

/-- The character behind a caret is graphic and stands for the control character. -/
theorem ctrl_spec : ∀ low : Byte, iscntrl low = true →
    isgraph (if low = 0x7f then ascii '?' else low + ascii '@') = true ∧
      (if (if low = 0x7f then ascii '?' else low + ascii '@') = ascii '?' then 0x7f
        else (if low = 0x7f then ascii '?' else low + ascii '@') &&& 0x1f) = low := by
  decide

theorem high_spec : ∀ c : Byte, c &&& 0x80 ≠ 0 → 0x80 ||| c &&& 0x7f = c := by
  decide

theorem graph_of_high : ∀ c : Byte, c &&& 0x7f ≠ 0x20 → iscntrl (c &&& 0x7f) = false →
    isgraph (c &&& 0x7f) = true := by
  decide

theorem cntrl_of_low : ∀ c : Byte, c &&& 0x80 = 0 → isgraph c = false → c &&& 0x7f ≠ 0x20 →
    iscntrl c = true := by
  decide

theorem run_ctrl (cp x : Byte) :
    run .ctrl cp [x] = some (cp ||| if x = ascii '?' then 0x7f else x &&& 0x1f) := rfl

theorem run_high (e : List Byte) :
    run .start 0 (ascii 'M' :: ascii '^' :: e) = run .ctrl 0x80 e := rfl

theorem run_low (e : List Byte) : run .start 0 (ascii '^' :: e) = run .ctrl 0 e := rfl

theorem run_dash (x : Byte) :
    run .start 0 [ascii 'M', ascii '-', x] = some (0x80 ||| x) := rfl

theorem escape_metaChars (hgraph : isgraph c = false) (hspace : c &&& 0x7f ≠ 0x20) :
    Escape c (metaChars c) := by
  rw [metaChars]
  by_cases hhigh : c &&& 0x80 ≠ 0
  · rw [if_pos hhigh, if_pos hhigh]
    cases hcntrl : iscntrl (c &&& 0x7f) with
    | true =>
      obtain ⟨hshown, hback⟩ := ctrl_spec (c &&& 0x7f) hcntrl
      rw [if_pos rfl]
      refine ⟨?_, ?_, Nat.le_refl _⟩
      · rw [List.singleton_append, run_high, run_ctrl, hback, high_spec c hhigh]
      · exact List.forall_mem_cons.mpr ⟨by decide, List.forall_mem_cons.mpr
          ⟨by decide, List.forall_mem_singleton.mpr hshown⟩⟩
    | false =>
      refine ⟨?_, ?_, Nat.le_refl _⟩
      · exact (run_dash _).trans (congrArg some (high_spec c hhigh))
      · exact List.forall_mem_cons.mpr ⟨by decide, List.forall_mem_cons.mpr
          ⟨by decide, List.forall_mem_singleton.mpr (graph_of_high c hspace hcntrl)⟩⟩
  · have hlow : c &&& 0x80 = 0 := Classical.not_not.mp hhigh
    have hcntrl := cntrl_of_low c hlow hgraph hspace
    obtain ⟨hshown, hback⟩ := ctrl_spec c hcntrl
    rw [if_neg hhigh, if_neg hhigh, if_pos hcntrl, List.nil_append]
    refine ⟨?_, ?_, Nat.le_succ 2⟩
    · rw [run_low, run_ctrl, hback]
      exact congrArg some BitVec.zero_or
    · exact List.forall_mem_cons.mpr ⟨by decide, List.forall_mem_singleton.mpr hshown⟩

/-- The encodings of `VIS_CSTYLE` are escapes, but the one of a zero byte is not complete. -/
theorem escape_cescape (h : cescape c nextc = some out) :
    (∃ e, out = slash :: e ∧ Escape c e) ∨
      c = 0 ∧ isoctal nextc = false ∧ out = [slash, ascii '0'] := by
  have hplain {x : Byte} (hescape : Escape c [x]) (hout : some [slash, x] = some out) :
      (∃ e, out = slash :: e ∧ Escape c e) ∨
        c = 0 ∧ isoctal nextc = false ∧ out = [slash, ascii '0'] :=
    Or.inl ⟨[x], (Option.some_inj.mp hout).symm, hescape⟩
  rw [cescape] at h
  by_cases hc0a : c = 0x0a
  · rw [if_pos hc0a] at h
    exact hplain (by rw [hc0a]; decide +kernel) h
  rw [if_neg hc0a] at h
  by_cases hc0d : c = 0x0d
  · rw [if_pos hc0d] at h
    exact hplain (by rw [hc0d]; decide +kernel) h
  rw [if_neg hc0d] at h
  by_cases hc08 : c = 0x08
  · rw [if_pos hc08] at h
    exact hplain (by rw [hc08]; decide +kernel) h
  rw [if_neg hc08] at h
  by_cases hc07 : c = 0x07
  · rw [if_pos hc07] at h
    exact hplain (by rw [hc07]; decide +kernel) h
  rw [if_neg hc07] at h
  by_cases hc0b : c = 0x0b
  · rw [if_pos hc0b] at h
    exact hplain (by rw [hc0b]; decide +kernel) h
  rw [if_neg hc0b] at h
  by_cases hc09 : c = 0x09
  · rw [if_pos hc09] at h
    exact hplain (by rw [hc09]; decide +kernel) h
  rw [if_neg hc09] at h
  by_cases hc0c : c = 0x0c
  · rw [if_pos hc0c] at h
    exact hplain (by rw [hc0c]; decide +kernel) h
  rw [if_neg hc0c] at h
  by_cases hc20 : c = 0x20
  · rw [if_pos hc20] at h
    exact hplain (by rw [hc20]; decide +kernel) h
  rw [if_neg hc20] at h
  by_cases hzero : c = 0x00
  · rw [if_pos hzero] at h
    cases hoctal : isoctal nextc with
    | true =>
      rw [hoctal] at h
      rw [← Option.some_inj.mp h]
      exact Or.inl ⟨[ascii '0', ascii '0', ascii '0'], rfl, by rw [hzero]; decide +kernel⟩
    | false =>
      rw [hoctal] at h
      exact Or.inr ⟨hzero, rfl, (Option.some_inj.mp h).symm⟩
  · rw [if_neg hzero] at h
    cases h

/-- What `vis` makes of a character: itself, an escape, or the short escape of a zero byte. -/
inductive Form (flag : Flag) (c nextc : Byte) : List Byte → Prop
  | plain (hleaves : flag.leaves c = true) (hslash : c ≠ slash) : Form flag c nextc [c]
  | escape {e : List Byte} (hescape : Escape c e) : Form flag c nextc (slash :: e)
  | zero (hzero : c = 0) (hoctal : isoctal nextc = false) : Form flag c nextc [slash, ascii '0']

theorem vis_form (hnoslash : flag.noslash = false) (c nextc : Byte) :
    Form flag c nextc (vis flag c nextc) := by
  unfold vis
  by_cases hleaves : flag.leaves c = true
  · rw [if_pos hleaves]
    by_cases hslash : c = slash
    · rw [hslash, hnoslash]
      exact .escape (by decide)
    · rw [if_neg]
      · exact .plain hleaves hslash
      · rw [decide_eq_false hslash]
        exact Bool.false_ne_true
  rw [if_neg hleaves, hnoslash]
  have hgraph : isgraph c = false := by
    rw [Bool.eq_false_iff]
    intro hgraph
    rw [Flag.leaves, hgraph] at hleaves
    exact hleaves rfl
  cases hout : if flag.cstyle then cescape c nextc else none with
  | some out =>
    have hcescape : cescape c nextc = some out := by
      cases hcstyle : flag.cstyle with
      | false =>
        rw [hcstyle] at hout
        cases hout
      | true =>
        rw [hcstyle] at hout
        exact hout
    rcases escape_cescape hcescape with ⟨e, rfl, hescape⟩ | ⟨hzero, hoctal, rfl⟩
    · exact .escape hescape
    · exact .zero hzero hoctal
  | none =>
    dsimp only
    by_cases hoctal : (c &&& 0x7f = 0x20 || flag.octal) = true
    · rw [if_pos hoctal]
      exact .escape (escape_octalDigits c)
    · rw [if_neg hoctal]
      refine .escape (escape_metaChars hgraph fun hspace ↦ hoctal ?_)
      rw [decide_eq_true hspace, Bool.true_or]

/-! ## What is written -/

theorem leaves_zero (flag : Flag) : flag.leaves 0 = false := by
  have hall : ∀ sp tab nl safe, Flag.leaves ⟨false, false, sp, tab, nl, safe, false⟩ 0 = false := by
    decide
  exact hall flag.sp flag.tab flag.nl flag.safe

theorem leaves_of_graph (hgraph : isgraph c = true) : flag.leaves c = true := by
  rw [Flag.leaves, hgraph]
  rfl

/-- What is written for a character. -/
theorem vis_written (hnoslash : flag.noslash = false) (c nextc : Byte) :
    (∀ x ∈ vis flag c nextc, flag.leaves x = true) ∧ (vis flag c nextc).length ≤ 4 := by
  have hslash : flag.leaves slash = true := leaves_of_graph (by decide)
  have hform := vis_form hnoslash c nextc
  generalize vis flag c nextc = out at hform ⊢
  cases hform with
  | plain hleaves _ =>
    exact ⟨fun x hx ↦ List.mem_singleton.mp hx ▸ hleaves, Nat.succ_le_succ (Nat.zero_le 3)⟩
  | escape hescape =>
    refine ⟨fun x hx ↦ ?_, Nat.succ_le_succ hescape.length_le⟩
    rcases List.mem_cons.mp hx with rfl | hx
    · exact hslash
    · exact leaves_of_graph (hescape.graph x hx)
  | zero _ _ =>
    refine ⟨fun x hx ↦ leaves_of_graph ?_, by decide⟩
    revert x
    decide

theorem strvis_written (hnoslash : flag.noslash = false) (src : List Byte) :
    (∀ x ∈ strvis flag (src ++ [0]), flag.leaves x = true) ∧
      (strvis flag (src ++ [0])).length ≤ 4 * src.length := by
  induction src with
  | nil => exact ⟨fun x hx ↦ absurd hx List.not_mem_nil, Nat.le_refl 0⟩
  | cons c src ih =>
    obtain ⟨hleaves, hlength⟩ := vis_written hnoslash c ((src ++ [0]).headD 0)
    rw [List.cons_append, strvis]
    by_cases hzero : c = 0
    · rw [if_pos hzero]
      exact ⟨fun x hx ↦ absurd hx List.not_mem_nil, Nat.zero_le _⟩
    · rw [if_neg hzero]
      refine ⟨fun x hx ↦ (List.mem_append.mp hx).elim (hleaves x) (ih.1 x), ?_⟩
      rw [List.length_append, List.length_cons]
      have hrest := ih.2
      omega

theorem strvisxLoop_written (hnoslash : flag.noslash = false) (src : List Byte) (len : ℕ) :
    (∀ x ∈ strvisxLoop flag src len, flag.leaves x = true) ∧
      (strvisxLoop flag src len).length ≤ 4 * len := by
  induction len with
  | zero => exact ⟨fun x hx ↦ absurd hx List.not_mem_nil, Nat.le_refl 0⟩
  | succ len ih =>
    cases len with
    | zero => exact vis_written hnoslash _ _
    | succ len =>
      obtain ⟨hleaves, hlength⟩ := vis_written hnoslash (src.headD 0) (src.tail.headD 0)
      rw [strvisxLoop]
      refine ⟨fun x hx ↦ (List.mem_append.mp hx).elim (hleaves x) (ih.1 x), ?_⟩
      rw [List.length_append]
      have hrest := ih.2
      omega

/-! ## Decoding -/

/-- The decoder comes to the end of an escape. -/
theorem decode_run (hrun : run state cp e = some c) (hzero : ∀ x ∈ e, x ≠ 0) (out rest : List Byte) :
    decode fresh (e ++ rest) ⟨out, cp, state⟩ = decode fresh rest (.advance fresh out c .ground) := by
  induction e generalizing cp state with
  | nil => cases hrun
  | cons x xs ih =>
    rw [List.cons_append, decode, if_neg (hzero x List.mem_cons_self), feed]
    rw [run] at hrun
    dsimp only
    generalize unvis cp x state = decoded at hrun
    obtain ⟨code, cp', state'⟩ := decoded
    cases code with
    | valid =>
      cases state' with
      | ground =>
        dsimp only at hrun
        by_cases hlast : xs = []
        · rw [if_pos hlast] at hrun
          rw [hlast, Option.some.inj hrun]
          rfl
        · rw [if_neg hlast] at hrun
          cases hrun
      | _ => cases hrun
    | more => exact ih hrun fun y hy ↦ hzero y (List.mem_cons_of_mem x hy)
    | _ => cases hrun

/-- The decoder takes the short escape of a zero byte to its end at a character that is no digit. -/
theorem decode_zero {x : Byte} (hoctal : isoctal x = false) (out rest : List Byte) :
    decode fresh ([slash, ascii '0'] ++ x :: rest) ⟨out, cp, .ground⟩ =
      decode fresh (x :: rest) (.advance fresh out 0 .ground) := by
  have hshort : decode fresh ([slash, ascii '0'] ++ x :: rest) ⟨out, cp, .ground⟩ =
      decode fresh (x :: rest) ⟨out, 0, .octal2⟩ := rfl
  rw [hshort, decode, decode]
  by_cases hend : x = 0
  · rw [if_pos hend, if_pos hend]
    rfl
  · rw [if_neg hend, if_neg hend]
    congr 1
    rw [feed, unvis, if_neg (Bool.eq_false_iff.mp hoctal)]
    dsimp only
    rw [feed, feed, Decoder.advance, unvis]
    by_cases hslash : x = slash
    · rw [if_pos hslash]
    · rw [if_neg hslash]

/-- The decoder undoes `vis`. -/
theorem decode_vis (hnoslash : flag.noslash = false) {x : Byte}
    (hnext : c = 0 → isoctal nextc = false → isoctal x = false) (out rest : List Byte) :
    decode fresh (vis flag c nextc ++ x :: rest) ⟨out, cp, .ground⟩ =
      decode fresh (x :: rest) (.advance fresh out c .ground) := by
  have hform := vis_form hnoslash c nextc
  generalize vis flag c nextc = e at hform ⊢
  cases hform with
  | plain hleaves hslash =>
    have hc : c ≠ 0 := by
      rintro rfl
      rw [leaves_zero] at hleaves
      cases hleaves
    rw [List.cons_append, decode, if_neg hc, feed, unvis, if_neg hslash]
    rfl
  | @escape e hescape =>
    have hgraph : ∀ y ∈ e, y ≠ 0 := by
      rintro y hy rfl
      exact absurd (hescape.graph 0 hy) (by decide)
    have hstart : decode fresh (slash :: e ++ x :: rest) ⟨out, cp, .ground⟩ =
        decode fresh (e ++ x :: rest) ⟨out, 0, .start⟩ := rfl
    rw [hstart]
    exact decode_run hescape.run_eq hgraph out (x :: rest)
  | zero hc hoctal =>
    rw [hc]
    exact decode_zero (hnext hc hoctal) out rest

/-- The encoding of a character begins with the character or a backslash. -/
theorem vis_cons (hnoslash : flag.noslash = false) (c nextc : Byte) :
    ∃ x xs, vis flag c nextc = x :: xs ∧ (x = c ∨ x = slash) := by
  have hform := vis_form hnoslash c nextc
  generalize vis flag c nextc = e at hform ⊢
  cases hform with
  | plain _ _ => exact ⟨c, [], rfl, Or.inl rfl⟩
  | escape _ => exact ⟨slash, _, rfl, Or.inr rfl⟩
  | zero _ _ => exact ⟨slash, _, rfl, Or.inr rfl⟩

/-- The encoding of a string does not begin with a digit that the string does not begin with. -/
theorem strvis_cons (hnoslash : flag.noslash = false) (src rest : List Byte) :
    ∃ x xs, strvis flag src ++ 0 :: rest = x :: xs ∧
      (isoctal (src.headD 0) = false → isoctal x = false) := by
  have hend : isoctal 0 = false := by decide
  cases src with
  | nil => exact ⟨0, rest, rfl, fun _ ↦ hend⟩
  | cons c src =>
    rw [strvis]
    by_cases hzero : c = 0
    · rw [if_pos hzero]
      exact ⟨0, rest, rfl, fun _ ↦ hend⟩
    · obtain ⟨x, xs, hvis, hx⟩ := vis_cons hnoslash c (src.headD 0)
      rw [if_neg hzero, hvis]
      refine ⟨x, xs ++ strvis flag src ++ 0 :: rest, rfl, fun hoctal ↦ ?_⟩
      rcases hx with rfl | rfl
      · exact hoctal
      · decide

/-- The decoder undoes `strvis`. -/
theorem decode_strvis (hnoslash : flag.noslash = false) (hzero : (0 : Byte) ∉ src)
    (out rest : List Byte) (cp : Byte) :
    decode fresh (strvis flag (src ++ [0]) ++ 0 :: rest) ⟨out, cp, .ground⟩ = some (out ++ src) := by
  induction src generalizing out cp with
  | nil =>
    rw [List.append_nil]
    rfl
  | cons c src ih =>
    have hc : c ≠ 0 := fun h ↦ hzero (h ▸ List.mem_cons_self)
    obtain ⟨x, xs, htext, hoctal⟩ := strvis_cons hnoslash (src ++ [0]) rest
    calc decode fresh (strvis flag (c :: src ++ [0]) ++ 0 :: rest) ⟨out, cp, .ground⟩
        = decode fresh (vis flag c ((src ++ [0]).headD 0) ++ x :: xs) ⟨out, cp, .ground⟩ := by
          rw [List.cons_append, strvis, if_neg hc, List.append_assoc, htext]
      _ = decode fresh (x :: xs) (.advance fresh out c .ground) := by
          rw [decode_vis hnoslash fun _ ↦ hoctal]
      _ = some (out ++ [c] ++ src) := by
          rw [← htext]
          exact ih (fun h ↦ hzero (List.mem_cons_of_mem c h)) (out ++ [c]) _
      _ = some (out ++ c :: src) := by rw [List.append_assoc, List.singleton_append]

/-- A turn of the loop of `strvisx` encodes the first byte. -/
theorem strvisxLoop_succ (flag : Flag) (src : List Byte) (len : ℕ) : ∃ nextc,
    strvisxLoop flag src (len + 1) =
      vis flag (src.headD 0) nextc ++ strvisxLoop flag src len := by
  cases len with
  | zero => exact ⟨0, (List.append_nil _).symm⟩
  | succ len => exact ⟨src.tail.headD 0, rfl⟩

/-- The decoder finds the first byte in everything that `strvisx` has written. -/
theorem decode_strvisxLoop (hnoslash : flag.noslash = false) (src : List Byte) (len : ℕ)
    (out rest : List Byte) (cp : Byte) :
    decode fresh (strvisxLoop flag src len ++ 0 :: rest) ⟨out, cp, .ground⟩ =
      some (out ++ List.replicate len (src.headD 0)) := by
  induction len generalizing out cp with
  | zero =>
    rw [List.replicate_zero, List.append_nil]
    rfl
  | succ len ih =>
    have hnext : ∃ x xs, strvisxLoop flag src len ++ 0 :: rest = x :: xs ∧
        (src.headD 0 = 0 → isoctal x = false) := by
      cases len with
      | zero => exact ⟨0, rest, rfl, fun _ ↦ by decide⟩
      | succ len =>
        obtain ⟨nextc, hloop⟩ := strvisxLoop_succ flag src len
        obtain ⟨x, xs, hvis, hx⟩ := vis_cons hnoslash (src.headD 0) nextc
        rw [hloop, hvis]
        refine ⟨x, _, List.append_assoc _ _ _, fun hzero ↦ ?_⟩
        rw [hzero] at hx
        rcases hx with rfl | rfl <;> decide
    obtain ⟨nextc, hloop⟩ := strvisxLoop_succ flag src len
    obtain ⟨x, xs, htext, hoctal⟩ := hnext
    calc decode fresh (strvisxLoop flag src (len + 1) ++ 0 :: rest) ⟨out, cp, .ground⟩
        = decode fresh (vis flag (src.headD 0) nextc ++ x :: xs) ⟨out, cp, .ground⟩ := by
          rw [hloop, List.append_assoc, htext]
      _ = decode fresh (x :: xs) (.advance fresh out (src.headD 0) .ground) := by
          rw [decode_vis hnoslash fun hzero _ ↦ hoctal hzero]
      _ = some (out ++ [src.headD 0] ++ List.replicate len (src.headD 0)) := by
          rw [← htext]
          exact ih (out ++ [src.headD 0]) _
      _ = some (out ++ List.replicate (len + 1) (src.headD 0)) := by
          rw [List.append_assoc, List.singleton_append, List.replicate_succ]

/-! ## Round trips -/

/-- What is to hold of the encodings of an array: whatever the memory holds before, decoding gives
the array back, and the encodings consist of at most four characters for each byte, graphic ones and
those that the flags leave. -/
structure RoundTrip (flag : Flag) (src : List Byte) : Prop where
  strvis : 0 ∉ src → ∀ fresh rest,
    strunvis fresh (strvis flag (src ++ [0]) ++ 0 :: rest) = some src
  strvisx : ∀ fresh old, strunvis fresh (stored old (strvisx flag src)) = some src
  leaves : ∀ c, c ∈ Vis.strvis flag (src ++ [0]) ∨ c ∈ Vis.strvisx flag src → flag.leaves c = true
  length : (Vis.strvis flag (src ++ [0])).length ≤ 4 * src.length ∧
    (Vis.strvisx flag src).length ≤ 4 * src.length

/-- What decoding the result of `strvisx` gives. -/
theorem strunvis_strvisx (hnoslash : flag.noslash = false) (hsrc : src ≠ []) (old : List Byte) :
    strunvis fresh (stored old (strvisx flag src)) =
      some (List.replicate src.length (src.headD 0)) := by
  have hwritten : strvisx flag src ≠ [] := by
    obtain ⟨c, src, rfl⟩ := List.exists_cons_of_ne_nil hsrc
    rw [strvisx, List.length_cons]
    cases src with
    | nil =>
      obtain ⟨x, xs, hvis, -⟩ := vis_cons hnoslash c 0
      change vis flag c 0 ≠ []
      rw [hvis]
      exact List.cons_ne_nil x xs
    | cons d src =>
      obtain ⟨x, xs, hvis, -⟩ := vis_cons hnoslash c d
      apply List.append_ne_nil_of_left_ne_nil
      change vis flag c d ≠ []
      rw [hvis]
      exact List.cons_ne_nil x xs
  rw [stored, if_neg hwritten]
  exact decode_strvisxLoop hnoslash src src.length [] _ _

/-- The encodings of an array are as they are to be exactly when the array has a byte and all its
bytes are equal. -/
theorem vis_exact (hnoslash : flag.noslash = false) :
    RoundTrip flag src ↔ src ≠ [] ∧ ∀ c ∈ src, c = src.headD 0 := by
  constructor
  · intro htrip
    have hsrc : src ≠ [] := by
      rintro rfl
      have hold : strunvis (fun _ ↦ 0) [ascii 'a', 0] = some [] :=
        htrip.strvisx (fun _ ↦ 0) [ascii 'a', 0]
      exact absurd hold (by decide)
    have hsame := htrip.strvisx (fun _ ↦ 0) []
    rw [strunvis_strvisx hnoslash hsrc] at hsame
    refine ⟨hsrc, fun c hc ↦ ?_⟩
    rw [← Option.some.inj hsame] at hc
    exact List.eq_of_mem_replicate hc
  · rintro ⟨hsrc, hequal⟩
    have hreplicate : List.replicate src.length (src.headD 0) = src :=
      (List.eq_replicate_of_mem hequal).symm
    refine ⟨fun hzero fresh rest ↦ decode_strvis hnoslash hzero [] rest _, fun fresh old ↦ ?_,
      fun c hc ↦ ?_, (strvis_written hnoslash src).2, (strvisxLoop_written hnoslash src _).2⟩
    · rw [strunvis_strvisx hnoslash hsrc, hreplicate]
    · exact hc.elim ((strvis_written hnoslash src).1 c) ((strvisxLoop_written hnoslash src _).1 c)

/-- The flags of the default encoding. -/
def plainFlag : Flag := ⟨false, false, false, false, false, false, false⟩

/-- Two bells. -/
theorem vis_exact_bells : RoundTrip plainFlag [0x07, 0x07] :=
  (vis_exact rfl).mpr ⟨List.cons_ne_nil _ _, by decide⟩

/-- Of two letters, `strvisx` encodes the first one twice. -/
theorem first_letter_twice : ¬RoundTrip plainFlag [ascii 'a', ascii 'b'] := by
  intro htrip
  have hsame := htrip.strvisx (fun _ ↦ 0) []
  exact absurd hsame (by decide)

end Bsd386.Libc.Vis
