import Mathlib.Data.List.Basic
import Bsd386.Bpf.Packet

/-!
# Packet filters

`bpf_filter` of `bpf/bpf_filter.c` interprets a filter program over a packet, and `bpf_validate`
looks at a program before it is installed. An instruction of a program is known by its index; the
interpreter faults when it fetches from an index outside of the program.
-/

namespace Bsd386.Bpf

/-- `struct bpf_insn`. -/
structure Insn where
  code : BitVec 16
  jt : BitVec 8
  jf : BitVec 8
  k : BitVec 32
  deriving DecidableEq, Repr

/-! ### Instruction encodings -/

/-- `BPF_MEMWORDS`. -/
abbrev memwords : ℕ := 16

def bpfLd : BitVec 16 := 0x00
def bpfLdx : BitVec 16 := 0x01
def bpfSt : BitVec 16 := 0x02
def bpfStx : BitVec 16 := 0x03
def bpfAlu : BitVec 16 := 0x04
def bpfJmp : BitVec 16 := 0x05
def bpfRet : BitVec 16 := 0x06
def bpfMisc : BitVec 16 := 0x07

def bpfImm : BitVec 16 := 0x00
def bpfAbs : BitVec 16 := 0x20
def bpfInd : BitVec 16 := 0x40
def bpfMem : BitVec 16 := 0x60
def bpfLen : BitVec 16 := 0x80
def bpfMsh : BitVec 16 := 0xa0

def bpfDiv : BitVec 16 := 0x30
def bpfNeg : BitVec 16 := 0x80
def bpfJa : BitVec 16 := 0x00

def bpfK : BitVec 16 := 0x00
def bpfX : BitVec 16 := 0x08
def bpfA : BitVec 16 := 0x10

def bpfTax : BitVec 16 := 0x00
def bpfTxa : BitVec 16 := 0x80

/-- `BPF_CLASS`. -/
def bpfClass (code : BitVec 16) : BitVec 16 := code &&& 0x07

/-- `BPF_OP`. -/
def bpfOp (code : BitVec 16) : BitVec 16 := code &&& 0xf0

/-- `BPF_W`, `BPF_H` and `BPF_B`. -/
def Size.code : Size → BitVec 16
  | .w => 0x00
  | .h => 0x08
  | .b => 0x10

/-- The second operand, `BPF_K` or `BPF_X`. -/
inductive Src
  | k
  | x
  deriving DecidableEq, Repr

def Src.code : Src → BitVec 16
  | .k => bpfK
  | .x => bpfX

/-- The tests of the conditional jumps. -/
inductive Test
  | jgt
  | jge
  | jeq
  | jset
  deriving DecidableEq, Repr

def Test.code : Test → BitVec 16
  | .jeq => 0x10
  | .jgt => 0x20
  | .jge => 0x30
  | .jset => 0x40

/-- The operations on two operands. -/
inductive Op
  | add
  | sub
  | mul
  | div
  | and
  | or
  | lsh
  | rsh
  deriving DecidableEq, Repr

def Op.code : Op → BitVec 16
  | .add => 0x00
  | .sub => 0x10
  | .mul => 0x20
  | .div => bpfDiv
  | .or => 0x40
  | .and => 0x50
  | .lsh => 0x60
  | .rsh => 0x70

/-- The cases of the `switch` in `bpf_filter`. -/
inductive Label
  | retK
  | retA
  | ldAbs (size : Size)
  | ldLen
  | ldxLen
  | ldInd (size : Size)
  | ldxMsh
  | ldImm
  | ldxImm
  | ldMem
  | ldxMem
  | st
  | stx
  | ja
  | jmp (test : Test) (src : Src)
  | alu (op : Op) (src : Src)
  | neg
  | tax
  | txa
  deriving DecidableEq, Repr

/-- The constant of a case. -/
def Label.code : Label → BitVec 16
  | .retK => bpfRet ||| bpfK
  | .retA => bpfRet ||| bpfA
  | .ldAbs size => bpfLd ||| size.code ||| bpfAbs
  | .ldLen => bpfLd ||| Size.w.code ||| bpfLen
  | .ldxLen => bpfLdx ||| Size.w.code ||| bpfLen
  | .ldInd size => bpfLd ||| size.code ||| bpfInd
  | .ldxMsh => bpfLdx ||| bpfMsh ||| Size.b.code
  | .ldImm => bpfLd ||| bpfImm
  | .ldxImm => bpfLdx ||| bpfImm
  | .ldMem => bpfLd ||| bpfMem
  | .ldxMem => bpfLdx ||| bpfMem
  | .st => bpfSt
  | .stx => bpfStx
  | .ja => bpfJmp ||| bpfJa
  | .jmp test src => bpfJmp ||| test.code ||| src.code
  | .alu op src => bpfAlu ||| op.code ||| src.code
  | .neg => bpfAlu ||| bpfNeg
  | .tax => bpfMisc ||| bpfTax
  | .txa => bpfMisc ||| bpfTxa

/-- The cases in the order of the source. -/
def Label.all : List Label :=
  [.retK, .retA, .ldAbs .w, .ldAbs .h, .ldAbs .b, .ldLen, .ldxLen, .ldInd .w, .ldInd .h, .ldInd .b,
    .ldxMsh, .ldImm, .ldxImm, .ldMem, .ldxMem, .st, .stx, .ja, .jmp .jgt .k, .jmp .jge .k,
    .jmp .jeq .k, .jmp .jset .k, .jmp .jgt .x, .jmp .jge .x, .jmp .jeq .x, .jmp .jset .x,
    .alu .add .x, .alu .sub .x, .alu .mul .x, .alu .div .x, .alu .and .x, .alu .or .x, .alu .lsh .x,
    .alu .rsh .x, .alu .add .k, .alu .sub .k, .alu .mul .k, .alu .div .k, .alu .and .k, .alu .or .k,
    .alu .lsh .k, .alu .rsh .k, .neg, .tax, .txa]

/-- The case that a `code` selects, none being `default`. -/
def Insn.label (p : Insn) : Option Label := Label.all.find? fun l ↦ l.code = p.code

theorem Insn.code_label {p : Insn} {l : Label} (hlabel : p.label = some l) : l.code = p.code := by
  simpa using List.find?_some hlabel

/-! ### The validator -/

/-- The jump at `from - 1` leaves a program of `len` instructions: the first check of
`bpf_validate`. -/
def Insn.jumpsOut (p : Insn) (len : ℤ) (source : ℤ) : Bool :=
  bpfClass p.code = bpfJmp ∧
    if bpfOp p.code = bpfJa then len ≤ int (source + p.k.toInt)
    else len ≤ int (source + p.jt.toNat) ∨ len ≤ int (source + p.jf.toNat)

/-- The memory operation has no valid address: the second check. -/
def Insn.strays (p : Insn) : Bool :=
  (bpfClass p.code = bpfSt ∨ bpfClass p.code = bpfLd ∧ p.code &&& 0xe0 = bpfMem) ∧
    ((memwords : ℤ) ≤ p.k.toInt ∨ p.k.toInt < 0)

/-- The third check as it is written, where `==` binds tighter than `|`. -/
def Insn.dividesByZero (p : Insn) : Bool :=
  ((if p.code = bpfAlu then 1 else 0) ||| bpfDiv ||| bpfK) ≠ 0 ∧ p.k = 0

/-- The loop of `bpf_validate` from the index `i` on, and the result it returns if it returns. A
`return` without a value leaves what `eax` holds. -/
def validateFrom (eax : BitVec 32) (len : ℤ) : ℤ → List Insn → Option (BitVec 32)
  | _, [] => none
  | i, p :: f =>
    if p.jumpsOut len (i + 1) then some 0
    else if p.strays then some 0
    else if p.dividesByZero then some eax
    else validateFrom eax len (i + 1) f

/-- A program in memory, where an instruction takes eight bytes. -/
structure Program where
  insns : List Insn
  size_lt : insns.length * 8 < 2 ^ 32

/-- `bpf_validate`. The instruction in front of an empty program is `before`. -/
def bpfValidate (eax : BitVec 32) (before : Insn) (f : Program) : BitVec 32 :=
  match validateFrom eax f.insns.length 0 f.insns with
  | some result => result
  | none => if bpfClass (f.insns.getLast?.getD before).code = bpfRet then 1 else 0

/-! ### The interpreter -/

/-- The registers and the scratch memory. -/
structure Regs where
  a : BitVec 32
  x : BitVec 32
  mem : Fin memwords → BitVec 32

/-- The state before an instruction: its index and the registers. -/
structure State where
  pc : ℤ
  regs : Regs

/-- What an instruction does: go on, or return a result from the filter. -/
inductive Outcome
  | next (s : State)
  | ret (result : BitVec 32)

/-- Go on with the next instruction. -/
def State.continue (s : State) (regs : Regs) : Except Fault Outcome :=
  .ok (.next ⟨s.pc + 1, regs⟩)

/-- Go on after `offset` more instructions. -/
def State.jump (s : State) (offset : ℤ) : Except Fault Outcome :=
  .ok (.next ⟨s.pc + offset + 1, s.regs⟩)

/-- The index `k` of the scratch memory. -/
def scratch (k : BitVec 32) : Except Fault (Fin memwords) :=
  if h : 0 ≤ k.toInt ∧ k.toInt < memwords then .ok ⟨k.toInt.toNat, by omega⟩
  else .error .scratch

/-- The value of the second operand. -/
def Src.value (src : Src) (p : Insn) (s : State) : BitVec 32 :=
  match src with
  | .k => p.k
  | .x => s.regs.x

/-- The test of a conditional jump. -/
def Test.holds : Test → BitVec 32 → BitVec 32 → Bool
  | .jgt, a, v => v.toInt < a.toInt
  | .jge, a, v => v.toInt ≤ a.toInt
  | .jeq, a, v => a = v
  | .jset, a, v => a &&& v ≠ 0

/-- `A /= v`. The processor stops at a division by 0 and at a quotient that is no `long`. -/
def divide (a v : BitVec 32) : Except Fault (BitVec 32) :=
  if v = 0 ∨ a = BitVec.intMin 32 ∧ v = -1 then .error .divide else .ok (a.sdiv v)

/-- An operation on `A` and `v`, which returns 0 from the filter where there is no value. Of a shift
count the processor takes five bits. -/
def Op.apply : Op → Src → BitVec 32 → BitVec 32 → Except Fault (Option (BitVec 32))
  | .add, _, a, v => .ok (some (a + v))
  | .sub, _, a, v => .ok (some (a - v))
  | .mul, _, a, v => .ok (some (a * v))
  | .div, .x, a, v => if v = 0 then .ok none else do return some (← divide a v)
  | .div, .k, a, v => do return some (← divide a v)
  | .and, _, a, v => .ok (some (a &&& v))
  | .or, _, a, v => .ok (some (a ||| v))
  | .lsh, _, a, v => .ok (some (a <<< (v.toNat % 32)))
  | .rsh, _, a, v => .ok (some (a.sshiftRight (v.toNat % 32)))

/-- A load of `size` bytes. A byte of a chain is a `u_char` for `BPF_ABS` and a `char` for
`BPF_IND`. -/
def Packet.load (pkt : Packet) (size : Size) (absolute : Bool) (k : BitVec 32) :
    Except Fault Loaded :=
  match size with
  | .w => pkt.loadWord k
  | .h => pkt.loadHalf k
  | .b =>
    pkt.loadByte
      (fun b ↦ if absolute then b.toBitVec.setWidth 32 else b.toBitVec.signExtend 32) k

/-- A load into `A`. After a half word for `BPF_ABS` the source does not test `merr`. -/
def State.load (s : State) (pkt : Packet) (size : Size) (absolute : Bool) (k : BitVec 32) :
    Except Fault Outcome := do
  match ← pkt.load size absolute k with
  | .value v => s.continue { s.regs with a := v }
  | .reject => return .ret 0
  | .merr => if size = .h ∧ absolute then s.continue { s.regs with a := 0 } else return .ret 0

/-- One case of the `switch`. -/
def Label.exec (pkt : Packet) (wirelen : BitVec 32) (s : State) (p : Insn) :
    Label → Except Fault Outcome
  | .retK => .ok (.ret p.k)
  | .retA => .ok (.ret s.regs.a)
  | .ldAbs size => s.load pkt size true p.k
  | .ldLen => s.continue { s.regs with a := wirelen }
  | .ldxLen => s.continue { s.regs with x := wirelen }
  | .ldInd size => s.load pkt size false (s.regs.x + p.k)
  | .ldxMsh => do
    match ← pkt.loadByte (fun b ↦ b.toBitVec.signExtend 32) p.k with
    | .value v => s.continue { s.regs with x := (v &&& 0xf) <<< 2 }
    | _ => return .ret 0
  | .ldImm => s.continue { s.regs with a := p.k }
  | .ldxImm => s.continue { s.regs with x := p.k }
  | .ldMem => do
    let i ← scratch p.k
    s.continue { s.regs with a := s.regs.mem i }
  | .ldxMem => do
    let i ← scratch p.k
    s.continue { s.regs with x := s.regs.mem i }
  | .st => do
    let i ← scratch p.k
    s.continue { s.regs with mem := fun j ↦ if j = i then s.regs.a else s.regs.mem j }
  | .stx => do
    let i ← scratch p.k
    s.continue { s.regs with mem := fun j ↦ if j = i then s.regs.x else s.regs.mem j }
  | .ja => s.jump p.k.toInt
  | .jmp test src =>
    s.jump (if test.holds s.regs.a (src.value p s) then p.jt.toNat else p.jf.toNat)
  | .alu op src => do
    match ← op.apply src s.regs.a (src.value p s) with
    | some a => s.continue { s.regs with a := a }
    | none => return .ret 0
  | .neg => s.continue { s.regs with a := -s.regs.a }
  | .tax => s.continue { s.regs with x := s.regs.a }
  | .txa => s.continue { s.regs with a := s.regs.x }

/-- The instruction at `pc`. -/
def fetch (f : List Insn) : ℤ → Except Fault Insn
  | .ofNat pc =>
    match f[pc]? with
    | some p => .ok p
    | none => .error .pc
  | .negSucc _ => .error .pc

/-- One turn of the loop of `bpf_filter`. -/
def step (f : List Insn) (pkt : Packet) (wirelen : BitVec 32) (s : State) :
    Except Fault Outcome := do
  let p ← fetch f s.pc
  match p.label with
  | some l => l.exec pkt wirelen s p
  | none => return .ret 0

/-- The loop of `bpf_filter` for at most `fuel` turns. -/
def run (f : List Insn) (pkt : Packet) (wirelen : BitVec 32) :
    ℕ → State → Option (Except Fault (BitVec 32))
  | 0, _ => none
  | fuel + 1, s =>
    match step f pkt wirelen s with
    | .error e => some (.error e)
    | .ok (.ret result) => some (.ok result)
    | .ok (.next s) => run f pkt wirelen fuel s

theorem run_succ {f : List Insn} {pkt : Packet} {wirelen : BitVec 32} {fuel : ℕ} {s : State} :
    run f pkt wirelen (fuel + 1) s =
      match step f pkt wirelen s with
      | .error e => some (.error e)
      | .ok (.ret result) => some (.ok result)
      | .ok (.next s) => run f pkt wirelen fuel s :=
  rfl

/-- `bpf_filter`, which accepts every packet if there is no program. -/
def bpfFilter (fuel : ℕ) (f : Option Program) (pkt : Packet) (wirelen : BitVec 32)
    (regs : Regs) : Option (Except Fault (BitVec 32)) :=
  match f with
  | none => some (.ok (BitVec.allOnes 32))
  | some f => run f.insns pkt wirelen fuel ⟨0, regs⟩

end Bsd386.Bpf
