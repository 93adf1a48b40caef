import Mathlib.Data.List.DropRight
import Mathlib.Data.List.TakeWhile
import Mathlib.Data.BitVec
import Mathlib.Tactic.SplitIfs

/-!
# DOS file names

`dos2unixfn` and `unix2dosfn` of `dosfs/dosfs_conv.c` translate between the 11 bytes of a directory
entry and a component of a path. `unix2dosfn` gets the place of the component in the path and its
length, and looks for its end in both ways. A path is the list of its bytes from that place on, and
a NUL follows it.
-/

namespace Bsd386.Dosfs.Names

/-- A byte. -/
abbrev Byte : Type := BitVec 8

/-- `SLOT_EMPTY`. -/
def slotEmpty : Byte := 0x00

/-- `SLOT_E5`. -/
def slotE5 : Byte := 0x05

/-- `SLOT_DELETED`. -/
def slotDeleted : Byte := 0xe5

/-- The character `'.'`. -/
def dot : Byte := 0x2e

/-- The character `' '`. -/
def blank : Byte := 0x20

/-- The character `'/'`. -/
def slash : Byte := 0x2f

/-- `isupper`. -/
def isupper (c : Byte) : Bool := 0x41 ≤ c && c ≤ 0x5a

/-- `islower`. -/
def islower (c : Byte) : Bool := 0x61 ≤ c && c ≤ 0x7a

/-- `tolower`. -/
def tolower (c : Byte) : Byte := c ||| blank

/-- `toupper`. -/
def toupper (c : Byte) : Byte := c &&& ~~~blank

/-- A character as `dos2unixfn` copies it. -/
def toUnix (c : Byte) : Byte := if isupper c then tolower c else c

/-- A character as `unix2dosfn` copies it. -/
def toDos (c : Byte) : Byte := if islower c then toupper c else c

/-- A field without the blanks behind its last character. -/
def trimmed (field : List Byte) : List Byte := field.rdropWhile (· = blank)

/-- The first character of a text with `SLOT_E5` translated. -/
def fromE5 : List Byte → List Byte
  | [] => []
  | c :: un => (if c = slotE5 then slotDeleted else c) :: un

/-- The text that `dos2unixfn` makes of the 11 bytes. Its result is the length of the text. -/
def dos2unixfn (dn : List Byte) : List Byte :=
  fromE5 ((trimmed (dn.take 8)).map toUnix ++
    if trimmed (dn.drop 8) = [] then [] else dot :: (trimmed (dn.drop 8)).map toUnix)

/-- What the pointer `un` points to. -/
def deref (un : List Byte) : Byte := un.headD 0

/-- The first loop, which copies at most `room` characters: these, and `un`, `unlen` and `c`. -/
def nameLoop : ℕ → List Byte → ℕ → Byte → List Byte × List Byte × ℕ × Byte
  | 0, un, unlen, c => ([], un, unlen, c)
  | room + 1, un, unlen, c =>
    if unlen = 0 then ([], un, unlen, c)
    else if deref un = 0 ∨ deref un = dot then ([], un, unlen, deref un)
    else
      (toDos (deref un) :: (nameLoop room un.tail (unlen - 1) (deref un)).1,
        (nameLoop room un.tail (unlen - 1) (deref un)).2)

/-- The second loop, which skips the surplus. -/
def skipLoop : List Byte → ℕ → Byte → List Byte × ℕ × Byte
  | un, 0, c => (un, 0, c)
  | un, unlen + 1, _ =>
    if deref un = 0 ∨ deref un = dot then (un, unlen + 1, deref un)
    else skipLoop un.tail unlen (deref un)

/-- The third loop, which copies the extension. -/
def extLoop : ℕ → List Byte → ℕ → List Byte
  | 0, _, _ => []
  | room + 1, un, unlen =>
    if unlen = 0 ∨ deref un = 0 then []
    else toDos (deref un) :: extLoop room un.tail (unlen - 1)

/-- A field of `n` bytes that is filled with blanks. -/
def padded (n : ℕ) (field : List Byte) : List Byte :=
  field ++ List.replicate (n - field.length) blank

/-- The first byte of the name with `SLOT_DELETED` translated. -/
def toE5 : List Byte → List Byte
  | [] => []
  | c :: dn => (if c = slotDeleted then slotE5 else c) :: dn

/-- The part of `unix2dosfn` behind the two special names. The value of `c` is not set before the
first loop. -/
def translate (un : List Byte) (unlen : ℕ) (c : Byte) : List Byte :=
  let name := nameLoop 8 un unlen c
  let rest := skipLoop name.2.1 name.2.2.1 name.2.2.2
  padded 8 (toE5 name.1) ++
    padded 3 (extLoop 3 (if rest.2.2 = dot then rest.1.tail else rest.1) rest.2.1)

/-- `unix2dosfn`. -/
def unix2dosfn (un : List Byte) (unlen : ℕ) (c : Byte) : List Byte :=
  if deref un = dot ∧ deref un.tail = 0 then padded 11 [dot]
  else if deref un = dot ∧ deref un.tail = dot ∧ deref un.tail.tail = 0 then padded 11 [dot, dot]
  else translate un unlen c

/-- A DOS name without lower-case letters and dots, whose first byte is not special. -/
structure Valid (dn : List Byte) : Prop where
  length_eq : dn.length = 11
  no_lower : ∀ c ∈ dn, islower c = false
  no_dot : dot ∉ dn
  head_blank : deref dn ≠ blank
  head_empty : deref dn ≠ slotEmpty
  head_deleted : deref dn ≠ slotDeleted

/-! ## Characters -/

variable {c : Byte} {w rest : List Byte} {unlen room : ℕ}

/-- A character of a name before the dot. -/
def Plain (c : Byte) : Bool := c ≠ 0 ∧ c ≠ dot

theorem toDos_toUnix (hlower : islower c = false) : toDos (toUnix c) = c := by
  revert c
  decide

theorem toDos_ne_zero (hc : c ≠ 0) : toDos c ≠ 0 := by
  revert c
  decide

theorem toUnix_eq_zero_iff : toUnix c = 0 ↔ c = 0 := by
  revert c
  decide

theorem toUnix_eq_dot_iff : toUnix c = dot ↔ c = dot := by
  revert c
  decide

theorem toE5_fromE5_head (hlower : islower c = false) (hdeleted : c ≠ slotDeleted) :
    (if toDos (if toUnix c = slotE5 then slotDeleted else toUnix c) = slotDeleted then slotE5
      else toDos (if toUnix c = slotE5 then slotDeleted else toUnix c)) = c := by
  revert c
  decide

/-! ## The loops on a component `w` with `rest` behind it -/

theorem plain_iff : Plain c = true ↔ ¬(c = 0 ∨ c = dot) := by
  simp [Plain]

@[simp]
theorem deref_cons : deref (c :: w) = c := rfl

theorem nameLoop_copied :
    (nameLoop room (w ++ rest) w.length c).1 = ((w.takeWhile Plain).take room).map toDos := by
  induction room generalizing w c with
  | zero => rfl
  | succ room ih =>
    cases w with
    | nil => simp [nameLoop]
    | cons x w =>
      rw [nameLoop, if_neg (by simp)]
      by_cases hstop : x = 0 ∨ x = dot
      · have hx : ¬Plain x = true := mt plain_iff.mp (not_not.mpr hstop)
        rw [List.cons_append, deref_cons, if_pos hstop, List.takeWhile_cons_of_neg hx]
        rfl
      · rw [List.cons_append, deref_cons, if_neg hstop,
          List.takeWhile_cons_of_pos (plain_iff.mpr hstop)]
        simpa using ih

/-- What the loops know when they have stopped in front of `d`. -/
structure StoppedAt (d rest : List Byte) (state : List Byte × ℕ × Byte) : Prop where
  un_eq : state.1 = d ++ rest
  unlen_eq : state.2.1 = d.length
  c_eq : d ≠ [] → state.2.2 = deref d

theorem skipLoop_stoppedAt :
    StoppedAt (w.dropWhile Plain) rest (skipLoop (w ++ rest) w.length c) := by
  induction w generalizing c with
  | nil => exact ⟨rfl, rfl, fun h ↦ absurd rfl h⟩
  | cons x w ih =>
    rw [List.cons_append, List.length_cons, skipLoop, deref_cons]
    by_cases hstop : x = 0 ∨ x = dot
    · have hx : ¬Plain x = true := mt plain_iff.mp (not_not.mpr hstop)
      rw [if_pos hstop, List.dropWhile_cons_of_neg hx]
      exact ⟨rfl, rfl, fun _ ↦ rfl⟩
    · rw [if_neg hstop, List.dropWhile_cons_of_pos (plain_iff.mpr hstop)]
      exact ih

/-- The two first loops together go to the first character that is not plain. -/
theorem loops_stoppedAt :
    StoppedAt (w.dropWhile Plain) rest
      (skipLoop (nameLoop room (w ++ rest) w.length c).2.1
        (nameLoop room (w ++ rest) w.length c).2.2.1
        (nameLoop room (w ++ rest) w.length c).2.2.2) := by
  induction room generalizing w c with
  | zero => exact skipLoop_stoppedAt
  | succ room ih =>
    cases w with
    | nil => exact ⟨rfl, rfl, fun h ↦ absurd rfl h⟩
    | cons x w =>
      rw [nameLoop, if_neg (by simp), List.cons_append, deref_cons]
      by_cases hstop : x = 0 ∨ x = dot
      · rw [if_pos hstop]
        exact skipLoop_stoppedAt (w := x :: w)
      · rw [if_neg hstop, List.dropWhile_cons_of_pos (plain_iff.mpr hstop)]
        exact ih

theorem extLoop_copied {un : List Byte} :
    extLoop room un unlen = (((un.take unlen).takeWhile (· ≠ 0)).take room).map toDos := by
  induction room generalizing un unlen with
  | zero => simp [extLoop]
  | succ room ih =>
    rw [extLoop]
    cases unlen with
    | zero => simp
    | succ unlen =>
      cases un with
      | nil => simp [deref]
      | cons x un =>
        by_cases hx : x = 0#8
        · simp [hx]
        · rw [if_neg (by simp [hx]), ih]
          simp [hx]

/-- The extension that the code takes from `d`, which begins at the first character that is not
plain. The dot is not counted, so that one byte of `rest` is read. -/
def extension (d rest : List Byte) : List Byte :=
  if deref d = dot then ((d.tail ++ rest.take 1).takeWhile (· ≠ 0)).take 3 else []

theorem translate_eq :
    translate (w ++ rest) w.length c =
      padded 8 (toE5 (((w.takeWhile Plain).take 8).map toDos)) ++
        padded 3 ((extension (w.dropWhile Plain) rest).map toDos) := by
  have hstopped : StoppedAt (w.dropWhile Plain) rest
      (skipLoop (nameLoop 8 (w ++ rest) w.length c).2.1 (nameLoop 8 (w ++ rest) w.length c).2.2.1
        (nameLoop 8 (w ++ rest) w.length c).2.2.2) := loops_stoppedAt
  have hplain : ∀ x d, w.dropWhile Plain = x :: d → ¬Plain x = true := fun x d hd ↦ by
    have hhead := List.head_dropWhile_not Plain (l := w) (by simp [hd])
    simpa [hd] using hhead
  unfold translate
  dsimp only
  rw [nameLoop_copied, hstopped.un_eq, hstopped.unlen_eq, extLoop_copied]
  cases hd : w.dropWhile Plain with
  | nil => simp [extension, deref, show ¬0#8 = dot by decide]
  | cons x d =>
    have hx : (x = 0 ∨ x = dot) := not_not.mp (mt plain_iff.mpr (hplain x d hd))
    rw [hstopped.c_eq (by simp [hd]), hd, deref_cons, extension, deref_cons]
    by_cases hdot : x = dot
    · rw [if_pos hdot, if_pos hdot]
      simp [List.take_append, List.take_of_length_le]
    · rw [if_neg hdot, if_neg hdot]
      simp [hx.resolve_right hdot]

/-! ## Special names -/

/-- The two special names are only tested for behind a dot. -/
theorem unix2dosfn_eq_translate {un : List Byte}
    (hdot : deref un = dot → deref un.tail ≠ 0)
    (hdotdot : deref un = dot → deref un.tail = dot → deref un.tail.tail ≠ 0) :
    unix2dosfn un unlen c = translate un unlen c := by
  rw [unix2dosfn, if_neg fun h ↦ hdot h.1 h.2, if_neg fun h ↦ hdotdot h.1 h.2.1 h.2.2]

/-- Without a special name a component that begins with a dot gets a blank name. -/
theorem deref_translate_dot : deref (translate (dot :: w) unlen c) = blank := by
  unfold translate
  by_cases hunlen : unlen = 0
  · simp [nameLoop, hunlen, toE5, padded, List.replicate_succ]
  · simp [nameLoop, hunlen, toE5, padded, List.replicate_succ]

theorem dot_entry_iff :
    unix2dosfn (dot :: rest) 1 c = padded 11 [dot] ↔ deref rest = 0 := by
  constructor
  · intro heq
    by_contra hrest
    rw [unix2dosfn, if_neg fun h ↦ hrest h.2] at heq
    split_ifs at heq
    · exact absurd heq (by decide)
    · have hhead := congrArg deref heq
      rw [deref_translate_dot] at hhead
      exact absurd hhead (by decide)
  · intro hrest
    rw [unix2dosfn, if_pos ⟨rfl, hrest⟩]

theorem dotdot_entry_iff :
    unix2dosfn (dot :: dot :: rest) 2 c = padded 11 [dot, dot] ↔ deref rest = 0 := by
  have hdot : ¬(deref (dot :: dot :: rest) = dot ∧ deref (dot :: dot :: rest).tail = 0) := fun h ↦
    absurd (show dot = 0 from h.2) (by decide)
  rw [unix2dosfn, if_neg hdot]
  constructor
  · intro heq
    by_contra hrest
    rw [if_neg fun h ↦ hrest h.2.2] at heq
    have hhead := congrArg deref heq
    rw [deref_translate_dot] at hhead
    exact absurd hhead (by decide)
  · intro hrest
    rw [if_pos ⟨rfl, rfl, hrest⟩]

/-! ## What the result depends on -/

/-- A component where the result depends on the byte behind it: the extension is shorter than its
field and is not ended by a NUL of its own. -/
def Leaks (w : List Byte) : Prop :=
  ∃ a b, w = a ++ dot :: b ∧ (∀ x ∈ a, Plain x) ∧ b.length ≤ 2 ∧ 0 ∉ b

theorem plain_dot : ¬Plain dot = true := by
  decide

theorem extension_of_leaks {a b : List Byte} (ha : ∀ x ∈ a, Plain x) (hlength : b.length ≤ 2)
    (hzero : 0 ∉ b) (hc : c ≠ 0) :
    extension ((a ++ dot :: b).dropWhile Plain) (c :: rest) = b ++ [c] := by
  have hall : ∀ x ∈ b ++ [c], decide (x ≠ 0) = true := by
    intro x hx
    rw [decide_eq_true_iff]
    rintro rfl
    rcases List.mem_append.mp hx with hb | hb
    · exact hzero hb
    · exact hc (List.mem_singleton.mp hb).symm
  rw [List.dropWhile_append_of_pos ha, List.dropWhile_cons_of_neg plain_dot, extension, deref_cons,
    if_pos rfl, List.tail_cons, List.take_one, List.head?_cons, Option.toList_some,
    List.takeWhile_eq_self_iff.mpr hall, List.take_of_length_le]
  rw [List.length_append, List.length_singleton]
  omega

/-- A component that leaks gives different names for different bytes behind it. -/
theorem Leaks.differs (hleaks : Leaks w) :
    unix2dosfn (w ++ [slash]) w.length c ≠ unix2dosfn (w ++ [slotE5]) w.length c := by
  obtain ⟨a, b, rfl, ha, hlength, hzero⟩ := hleaks
  have hplainLaw : ∀ x, Plain x → x ≠ dot := by
    decide
  have hspecial : ∀ x : Byte, x ≠ 0 → x ≠ dot →
      unix2dosfn (a ++ dot :: b ++ [x]) (a ++ dot :: b).length c =
        translate (a ++ dot :: b ++ [x]) (a ++ dot :: b).length c := by
    intro x hx hxdot
    apply unix2dosfn_eq_translate
    · intro hdot
      cases a with
      | nil =>
        cases b with
        | nil => exact hx
        | cons y b => exact fun hy ↦ hzero (by simp [show y = 0 from hy])
      | cons y a => exact absurd hdot (hplainLaw y (ha y (by simp)))
    · intro hdot hdotdot
      cases a with
      | nil =>
        cases b with
        | nil => exact absurd hdotdot hxdot
        | cons y b =>
          cases b with
          | nil => exact hx
          | cons z b => exact fun hz ↦ hzero (by simp [show z = 0 from hz])
      | cons y a => exact absurd hdot (hplainLaw y (ha y (by simp)))
  intro heq
  rw [hspecial slash (by decide) (by decide), hspecial slotE5 (by decide) (by decide),
    translate_eq, translate_eq, extension_of_leaks ha hlength hzero (by decide),
    extension_of_leaks ha hlength hzero (by decide)] at heq
  have hfields := List.append_cancel_left heq
  simp [padded] at hfields
  exact absurd hfields (by decide)

/-- A full or ended extension hides what follows the component. -/
theorem takeWhile_take_append {b : List Byte} (hfull : ¬(b.length ≤ 2 ∧ 0 ∉ b)) :
    ((b ++ rest).takeWhile (· ≠ 0)).take 3 = (b.takeWhile (· ≠ 0)).take 3 := by
  rw [List.takeWhile_append]
  by_cases hlength : (b.takeWhile (· ≠ 0)).length = b.length
  · have hself : b.takeWhile (· ≠ 0) = b := (List.takeWhile_prefix _).eq_of_length hlength
    have hzero : 0 ∉ b := fun hmem ↦ by
      simpa using List.takeWhile_eq_self_iff.mp hself 0 hmem
    have hlong : 3 ≤ b.length := by
      by_contra hshort
      exact hfull ⟨by omega, hzero⟩
    rw [if_pos hlength, List.take_append_of_le_length hlong, hself]
  · rw [if_neg hlength]

theorem exists_of_dropWhile_dot {b : List Byte} (hd : w.dropWhile Plain = dot :: b) :
    ∃ a, w = a ++ dot :: b ∧ ∀ x ∈ a, Plain x := by
  refine ⟨w.takeWhile Plain, ?_, fun x hx ↦ List.mem_takeWhile_imp hx⟩
  rw [← hd, List.takeWhile_append_dropWhile]

theorem translate_determined (hleaks : ¬Leaks w) (rest rest' : List Byte) :
    translate (w ++ rest) w.length c = translate (w ++ rest') w.length c := by
  rw [translate_eq, translate_eq]
  congr 3
  rw [extension, extension]
  by_cases hdot : deref (w.dropWhile Plain) = dot
  · rw [if_pos hdot, if_pos hdot]
    cases hd : w.dropWhile Plain with
    | nil => exact absurd (hd ▸ hdot) (by decide)
    | cons x b =>
      have hx : x = dot := by simpa [hd] using hdot
      have hfull : ¬(b.length ≤ 2 ∧ 0 ∉ b) := by
        intro hshort
        obtain ⟨a, hw, ha⟩ := exists_of_dropWhile_dot (hx ▸ hd)
        exact hleaks ⟨a, b, hw, ha, hshort.1, hshort.2⟩
      rw [List.tail_cons, takeWhile_take_append hfull, takeWhile_take_append hfull]
  · rw [if_neg hdot, if_neg hdot]

/-- The two special names are recognised within a component that does not leak. -/
theorem unix2dosfn_determined (hw : w ≠ []) (hleaks : ¬Leaks w) (rest rest' : List Byte) :
    unix2dosfn (w ++ rest) w.length c = unix2dosfn (w ++ rest') w.length c := by
  rw [unix2dosfn, unix2dosfn, translate_determined hleaks rest rest']
  cases w with
  | nil => exact absurd rfl hw
  | cons x w =>
    by_cases hx : x = dot
    · subst hx
      cases w with
      | nil => exact absurd ⟨[], [], rfl, by simp, by simp, by simp⟩ hleaks
      | cons y w =>
        by_cases hy : y = dot
        · subst hy
          cases w with
          | nil => exact absurd ⟨[], [dot], rfl, by simp, by simp, by decide⟩ hleaks
          | cons z w => rfl
        · simp [hy]
    · simp [hx]

/-- Exactly the components that are not empty and do not leak give a name that does not depend on
what follows them. -/
theorem determined_iff :
    (∀ rest rest', unix2dosfn (w ++ rest) w.length c = unix2dosfn (w ++ rest') w.length c) ↔
      w ≠ [] ∧ ¬Leaks w := by
  constructor
  · intro hsame
    refine ⟨?_, fun hleaks ↦ hleaks.differs (hsame _ _)⟩
    rintro rfl
    have hname := hsame [dot] []
    simp only [List.nil_append, List.length_nil] at hname
    rw [unix2dosfn, if_pos ⟨rfl, rfl⟩] at hname
    exact absurd (congrArg deref hname) (by simp [unix2dosfn, translate, nameLoop, skipLoop,
      extLoop, padded, toE5, deref, dot, blank])
  · rintro ⟨hw, hleaks⟩ rest rest'
    exact unix2dosfn_determined hw hleaks rest rest'

end Bsd386.Dosfs.Names
