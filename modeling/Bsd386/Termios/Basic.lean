import Mathlib.Data.List.Basic
import Bsd386.Lib.RingBuffer

/-!
# Terminal input

`ttyinput` and `ttread` of `termios/termios.c` in canonical mode, over the rings of
`kern/subr/ring.c`. No signals, flow control or external processing are enabled, no line errors
occur and the mode does not change. Of the echo the number of characters that can be rubbed out is
kept, since the kill character depends on it.
-/

namespace Bsd386.Termios

/-- `RBSZ`. -/
def rbsz : ℕ := 1024

/-- `TTYHOG`. -/
def ttyhog : ℕ := 1024

/-- `_POSIX_VDISABLE`. -/
def posixVdisable : UInt8 := 255

/-- `struct ringb`, whose cells are of type `char`. -/
abbrev Ringb : Type := RingBuffer UInt8 rbsz

/-! ### Rings -/

/-- `putc`, which fails where the ring is full. -/
def putc (c : UInt8) (rb : Ringb) : Option Ringb := rb.push c

/-- `getc`. -/
def getc (rb : Ringb) : Option (UInt8 × Ringb) := rb.pop

/-- `unputc`. -/
def unputc (rb : Ringb) : Option (UInt8 × Ringb) := rb.unpush

/-- `catb`, with at most `fuel` turns. -/
def catb : ℕ → Ringb → Ringb → Ringb × Ringb
  | 0, source, target => (source, target)
  | fuel + 1, source, target =>
    match getc source with
    | none => (source, target)
    | some (c, source) => catb fuel source ((putc c target).getD target)

/-- `flushq`, with at most `fuel` turns. -/
def flushq : ℕ → Ringb → Ringb
  | 0, rb => rb
  | fuel + 1, rb =>
    match getc rb with
    | none => rb
    | some (_, rb) => flushq fuel rb

/-! ### Characters -/

/-- A character on its way to the ring. `quote` is the bit `TTY_QUOTE`. -/
structure Ch where
  char : UInt8
  quote : Bool

/-- The settings that matter here: characters of `c_cc`, and flags of `c_iflag` and `c_lflag`. -/
structure Settings where
  veof : UInt8
  veol : UInt8
  veol2 : UInt8
  verase : UInt8
  vwerase : UInt8
  vkill : UInt8
  vreprint : UInt8
  vlnext : UInt8
  vdiscard : UInt8
  vstatus : UInt8
  istrip : Bool
  igncr : Bool
  icrnl : Bool
  inlcr : Bool
  imaxbel : Bool
  echo : Bool
  echoe : Bool
  echoke : Bool
  echoprt : Bool
  altwerase : Bool
  iexten : Bool
  nokerninfo : Bool

/-- `CCEQ`. -/
def cceq (val : UInt8) (c : Ch) : Bool := !c.quote && c.char = val && val ≠ posixVdisable

/-- `ttbreakc`. -/
def ttbreakc (t : Settings) (c : Ch) : Bool :=
  !c.quote && (c.char = 10 ||
    (c.char = t.veof || c.char = t.veol || c.char = t.veol2) && c.char ≠ posixVdisable)

/-- `ISALPHA`, by `partab`. -/
def isalpha (c : UInt8) : Bool :=
  48 ≤ c && c ≤ 57 || 65 ≤ c && c ≤ 90 || c = 95 || 97 ≤ c && c ≤ 122 || 128 ≤ c

/-- A space or a tab. -/
def blank (c : UInt8) : Bool := c = 32 || c = 9

/-- `struct tty`. `lnch` and `flusho` are the flags `TS_LNCH` and `FLUSHO`. -/
structure Tty where
  raw : Ringb
  can : Ringb
  lnch : Bool
  flusho : Bool
  rocount : BitVec 16

/-! ### Echo -/

/-- `ttyretype`. -/
def ttyretype (tp : Tty) : Tty := { tp with rocount := BitVec.ofNat 16 tp.raw.len }

/-- `ttyrub`. -/
def ttyrub (t : Settings) (c : UInt8) (tp : Tty) : Tty :=
  if t.echo = false then tp
  else if t.echoe ∧ (tp.rocount = 0 ∨ c = 9 ∧ tp.rocount.toInt < tp.raw.len) then ttyretype tp
  else { tp with rocount := tp.rocount - 1 }

/-! ### Editing -/

/-- The loop of the kill character that rubs out, with at most `fuel` turns. -/
def rubAll (t : Settings) : ℕ → Tty → Tty
  | 0, tp => tp
  | fuel + 1, tp =>
    match unputc tp.raw with
    | none => tp
    | some (c, raw) => rubAll t fuel (ttyrub t c { tp with raw := raw })

/-- The loop of the kill character that takes characters while they are positive, with at most
`fuel` turns. -/
def killLoop : ℕ → Ringb → Ringb
  | 0, rb => rb
  | fuel + 1, rb =>
    match getc rb with
    | none => rb
    | some (c, rb) => if 0 < c then killLoop fuel rb else rb

/-- The kill character. -/
def kill (t : Settings) (tp : Tty) : Tty :=
  if t.echoke ∧ (tp.raw.len : ℤ) = tp.rocount.toInt ∧ t.echoprt = false then rubAll t rbsz tp
  else { tp with raw := killLoop rbsz tp.raw, rocount := 0 }

/-- The erase character. -/
def erase (t : Settings) (tp : Tty) : Tty :=
  match unputc tp.raw with
  | none => tp
  | some (c, raw) => ttyrub t c { tp with raw := raw }

/-- Erase white space, with at most `fuel` turns. The character before it is taken, too. -/
def eraseBlanks (t : Settings) : ℕ → Tty → Option UInt8 × Tty
  | 0, tp => (none, tp)
  | fuel + 1, tp =>
    match unputc tp.raw with
    | none => (none, tp)
    | some (c, raw) =>
      if blank c then eraseBlanks t fuel (ttyrub t c { tp with raw := raw })
      else (some c, { tp with raw := raw })

/-- Erase the rest of a word, with at most `fuel` turns. -/
def eraseRest (t : Settings) (ctype : Bool) : ℕ → UInt8 → Tty → Tty
  | 0, _, tp => tp
  | fuel + 1, c, tp =>
    let tp := ttyrub t c tp
    match unputc tp.raw with
    | none => tp
    | some (c, raw) =>
      if blank c = false ∧ (t.altwerase = false ∨ isalpha c = ctype) then
        eraseRest t ctype fuel c { tp with raw := raw }
      else { tp with raw := (putc c raw).getD raw }

/-- The word erase character. -/
def werase (t : Settings) (tp : Tty) : Tty :=
  match eraseBlanks t rbsz tp with
  | (none, tp) => tp
  | (some c, tp) =>
    let tp := ttyrub t c tp
    match unputc tp.raw with
    | none => tp
    | some (c, raw) => eraseRest t (isalpha c) rbsz c { tp with raw := raw }

/-! ### Input -/

/-- `ttyflush` of what is to be read. -/
def ttyflush (tp : Tty) : Tty :=
  { tp with can := flushq rbsz tp.can, raw := flushq rbsz tp.raw, rocount := 0, lnch := false }

/-- `ttyinput` from the test for an overflow on. -/
def store (t : Settings) (c : Ch) (tp : Tty) : Tty :=
  if ttyhog ≤ tp.raw.len + tp.can.len then
    if t.imaxbel then tp else ttyflush tp
  else
    match putc c.char tp.raw with
    | none => tp
    | some raw =>
      if ttbreakc t c then
        { tp with rocount := 0, raw := (catb rbsz raw tp.can).1, can := (catb rbsz raw tp.can).2 }
      else { tp with raw := raw, rocount := tp.rocount + 1 }

/-- The mapping of carriage return and newline; a carriage return may be ignored. -/
def mapCr (t : Settings) (c : Ch) : Option Ch :=
  if c.quote then some c
  else if c.char = 13 then
    if t.igncr then none else if t.icrnl then some { c with char := 10 } else some c
  else if c.char = 10 ∧ t.inlcr then some { c with char := 13 }
  else some c

/-- `ttyinput` for a character that is mapped. `info` is whether `ttyinfo` finds room for its
output. -/
def canonical (t : Settings) (info : Bool) (c : Ch) (tp : Tty) : Tty :=
  if cceq t.verase c then erase t tp
  else if cceq t.vkill c then kill t tp
  else if cceq t.vwerase c then werase t tp
  else if cceq t.vreprint c then ttyretype tp
  else if cceq t.vstatus c then
    if t.nokerninfo = false ∧ info then { tp with rocount := 0 } else tp
  else store t c tp

/-- `ISTRIP`. -/
def strip (t : Settings) (c : UInt8) : UInt8 := if t.istrip then c &&& 0x7f else c

/-- `ttyinput`. Every character but `VDISCARD` ends `FLUSHO`. -/
def ttyinput (t : Settings) (c : UInt8) (info : Bool) (tp : Tty) : Tty :=
  let ch : Ch := ⟨strip t c, tp.lnch⟩
  let tp := { tp with lnch := false }
  if t.iexten ∧ cceq t.vlnext ch then { tp with lnch := true, flusho := false }
  else if t.iexten ∧ cceq t.vdiscard ch then
    if tp.flusho then { tp with flusho := false }
    else { (if tp.raw.len + tp.can.len ≠ 0 then ttyretype tp else tp) with flusho := true }
  else
    match mapCr t ch with
    | none => { tp with flusho := false }
    | some ch => { canonical t info ch tp with flusho := false }

/-! ### Reading -/

/-- The loop of `ttread` for a user who has room for `resid` characters. -/
def readLoop (t : Settings) : ℕ → Ringb → List UInt8 × Ringb
  | 0, rb => ([], rb)
  | resid + 1, rb =>
    match getc rb with
    | none => ([], rb)
    | some (c, rb) =>
      if cceq t.veof ⟨c, false⟩ then ([], rb)
      else if resid = 0 then ([c], rb)
      else if ttbreakc t ⟨c, false⟩ then ([c], rb)
      else (c :: (readLoop t resid rb).1, (readLoop t resid rb).2)

/-- `ttread` for `resid + 1` characters, unless it sleeps. -/
def ttread (t : Settings) (resid : ℕ) (tp : Tty) : Option (List UInt8 × Tty) :=
  if tp.can.len = 0 then none
  else some ((readLoop t (resid + 1) tp.can).1,
    { tp with can := (readLoop t (resid + 1) tp.can).2 })

/-- `spec_read` of a terminal, which returns at once where nothing is asked for. -/
def specRead (t : Settings) (tp : Tty) : ℕ → Option (List UInt8 × Tty)
  | 0 => some ([], tp)
  | resid + 1 => ttread t resid tp

/-- A character is received, or somebody reads. -/
inductive Event
  | input (c : UInt8) (info : Bool)
  | read (size : ℕ)

/-- A step, and what it returns to the reader. Nothing is returned to a reader who sleeps. -/
def step (t : Settings) (tp : Tty) : Event → Option (List UInt8) × Tty
  | .input c info => (none, ttyinput t c info tp)
  | .read size =>
    match specRead t tp size with
    | none => (none, tp)
    | some (l, tp) => (some l, tp)

end Bsd386.Termios
