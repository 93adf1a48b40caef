import Bsd386.Bpf.Filter

/-!
# Safety of validated filters

`bpf_validate` checks jumps and the operands of `BPF_ST` and `BPF_LD|BPF_MEM`. It lets pass a
`BPF_JA` with a negative or a very large offset and the scratch indices of `BPF_STX` and
`BPF_LDX|BPF_MEM`, it stops looking at the first instruction with `k` equal to 0, and the loads of
`bpf_filter` are wrong for negative offsets and for integers that two buffers share. What follows is
when a case of the interpreter faults, and that a validated program whose steps stay clear of these
cases returns.
-/

namespace Bsd386.Bpf

variable {f : List Insn} {pkt : Packet} {wirelen : BitVec 32} {s s' : State} {p : Insn} {l : Label}

/-! ### One case of the interpreter -/

/-- The scratch index is valid. -/
def Insn.InScratch (p : Insn) : Prop := 0 ≤ p.k.toInt ∧ p.k.toInt < memwords

/-- The operands of a division give a `long`, and a constant divisor is not 0. -/
def Insn.Divides (p : Insn) (s : State) (src : Src) : Prop :=
  (src = .k → p.k ≠ 0) ∧ ¬(s.regs.a = BitVec.intMin 32 ∧ src.value p s = -1)

/-- The case does not fault. -/
def Label.Runs (pkt : Packet) (s : State) (p : Insn) : Label → Prop
  | .ldAbs size => pkt.Readable size p.k
  | .ldInd size => pkt.Readable size (s.regs.x + p.k)
  | .ldxMsh => pkt.Readable .b p.k
  | .ldMem | .ldxMem | .st | .stx => p.InScratch
  | .alu op src => op = .div → p.Divides s src
  | _ => True

theorem succeeds_scratch : Succeeds (scratch p.k) ↔ p.InScratch := by
  rw [scratch, Insn.InScratch]
  split_ifs with h
  · exact iff_of_true (succeeds_ok _) h
  · exact iff_of_false (not_succeeds_error _) h

theorem succeeds_continue (s : State) (regs : Regs) : Succeeds (s.continue regs) := succeeds_ok _

theorem succeeds_load {size : Size} {absolute : Bool} {k : BitVec 32} :
    Succeeds (s.load pkt size absolute k) ↔ pkt.Readable size k := by
  have hload : Succeeds (pkt.load size absolute k) ↔ pkt.Readable size k := by
    cases size with
    | w => exact succeeds_loadWord
    | h => exact succeeds_loadHalf
    | b => exact succeeds_loadByte
  rw [State.load, ← hload]
  apply succeeds_bind_left
  intro loaded
  cases loaded with
  | value v => exact succeeds_continue s _
  | reject => exact succeeds_pure _
  | merr =>
    split_ifs
    · exact succeeds_continue s _
    · exact succeeds_pure _

theorem succeeds_divide {a v : BitVec 32} :
    Succeeds (divide a v) ↔ v ≠ 0 ∧ ¬(a = BitVec.intMin 32 ∧ v = -1) := by
  rw [divide, ← not_or]
  split_ifs with h
  · exact iff_of_false (not_succeeds_error _) (not_not_intro h)
  · exact iff_of_true (succeeds_ok _) h

theorem succeeds_apply {op : Op} {src : Src} :
    Succeeds (op.apply src s.regs.a (src.value p s)) ↔ (op = .div → p.Divides s src) := by
  by_cases hop : op = .div
  · subst hop
    simp only [true_implies, Insn.Divides]
    cases src with
    | k => exact succeeds_bind_pure.trans (succeeds_divide.trans (by simp [Src.value]))
    | x =>
      rw [Op.apply]
      split_ifs with hzero
      · refine iff_of_true (succeeds_ok _) ⟨fun h ↦ (nomatch h), fun h ↦ ?_⟩
        rw [hzero] at h
        exact absurd h.2 (by decide)
      · rw [succeeds_bind_pure, succeeds_divide]
        exact ⟨fun h ↦ ⟨fun hsrc ↦ (nomatch hsrc), h.2⟩, fun h ↦ ⟨hzero, h.2⟩⟩
  · refine iff_of_true ?_ fun h ↦ absurd h hop
    cases op <;> first | exact succeeds_ok _ | exact absurd rfl hop

/-- When a case faults. -/
theorem succeeds_exec : Succeeds (l.exec pkt wirelen s p) ↔ l.Runs pkt s p := by
  cases l with
  | ldAbs size => exact succeeds_load
  | ldInd size => exact succeeds_load
  | ldxMsh =>
    refine (succeeds_bind_left fun loaded ↦ ?_).trans succeeds_loadByte
    cases loaded <;> exact succeeds_ok _
  | ldMem => exact (succeeds_bind_left fun i ↦ succeeds_continue s _).trans succeeds_scratch
  | ldxMem => exact (succeeds_bind_left fun i ↦ succeeds_continue s _).trans succeeds_scratch
  | st => exact (succeeds_bind_left fun i ↦ succeeds_continue s _).trans succeeds_scratch
  | stx => exact (succeeds_bind_left fun i ↦ succeeds_continue s _).trans succeeds_scratch
  | alu op src =>
    refine (succeeds_bind_left fun result ↦ ?_).trans succeeds_apply
    cases result <;> exact succeeds_ok _
  | _ => exact iff_of_true (succeeds_ok _) trivial

/-- The number of instructions that a case skips. -/
def Label.skip (s : State) (p : Insn) : Label → ℤ
  | .ja => p.k.toInt
  | .jmp test src => if test.holds s.regs.a (src.value p s) then p.jt.toNat else p.jf.toNat
  | _ => 0

theorem bind_ok {α β : Type} {x : Except Fault α} {g : α → Except Fault β} {o : β}
    (hbind : x >>= g = .ok o) : ∃ v, x = .ok v ∧ g v = .ok o := by
  cases x with
  | error e => cases hbind
  | ok v => exact ⟨v, rfl, hbind⟩

theorem pc_continue {regs : Regs} (hnext : s.continue regs = .ok (.next s')) :
    s'.pc = s.pc + 0 + 1 := by
  cases hnext
  exact congrArg (· + 1) (Int.add_zero _).symm

theorem pc_load {size : Size} {absolute : Bool} {k : BitVec 32}
    (hnext : s.load pkt size absolute k = .ok (.next s')) : s'.pc = s.pc + 0 + 1 := by
  obtain ⟨loaded, -, hrest⟩ := bind_ok hnext
  cases loaded with
  | value v => exact pc_continue hrest
  | reject => cases hrest
  | merr =>
    dsimp only at hrest
    split_ifs at hrest
    · exact pc_continue hrest
    · cases hrest

/-- Where the interpreter goes on after a case. -/
theorem pc_exec (hnext : l.exec pkt wirelen s p = .ok (.next s')) :
    s'.pc = s.pc + l.skip s p + 1 := by
  cases l with
  | retK => cases hnext
  | retA => cases hnext
  | ldAbs size => exact pc_load hnext
  | ldInd size => exact pc_load hnext
  | ldxMsh =>
    obtain ⟨loaded, -, hrest⟩ := bind_ok hnext
    cases loaded with
    | value v => exact pc_continue hrest
    | reject => cases hrest
    | merr => cases hrest
  | ldMem =>
    obtain ⟨i, -, hrest⟩ := bind_ok hnext
    exact pc_continue hrest
  | ldxMem =>
    obtain ⟨i, -, hrest⟩ := bind_ok hnext
    exact pc_continue hrest
  | st =>
    obtain ⟨i, -, hrest⟩ := bind_ok hnext
    exact pc_continue hrest
  | stx =>
    obtain ⟨i, -, hrest⟩ := bind_ok hnext
    exact pc_continue hrest
  | alu op src =>
    obtain ⟨result, -, hrest⟩ := bind_ok hnext
    cases result with
    | some a => exact pc_continue hrest
    | none => cases hrest
  | ja =>
    cases hnext
    rfl
  | jmp test src =>
    cases hnext
    rfl
  | _ => exact pc_continue hnext

/-! ### What the validator checks -/

/-- The checks of `bpf_validate` hold for every instruction, and the last one returns. -/
structure Checked (f : List Insn) : Prop where
  jumps : ∀ (i : ℕ) (p : Insn), f[i]? = some p → p.jumpsOut f.length (i + 1) = false
  memory : ∀ p ∈ f, p.strays = false
  last : ∃ p, f.getLast? = some p ∧ bpfClass p.code = bpfRet

/-- The loop passed every instruction, when it did not return. -/
theorem validateFrom_none {eax : BitVec 32} {len : ℤ} {i : ℤ}
    (hnone : validateFrom eax len i f = none) :
    (∀ (j : ℕ) (p : Insn), f[j]? = some p → p.jumpsOut len (i + j + 1) = false) ∧ ∀ p ∈ f,
    p.strays = false := by
  induction f generalizing i with
  | nil => exact ⟨fun j p h ↦ (nomatch h), fun p h ↦ (nomatch h)⟩
  | cons p f ih =>
    rw [validateFrom] at hnone
    split_ifs at hnone with hjump hmem hdiv
    have hrest := ih hnone
    constructor
    · intro j q hq
      cases j with
      | zero =>
        cases hq
        simpa using hjump
      | succ j =>
        have hjumps := hrest.1 j q hq
        rwa [Int.natCast_succ, ← Int.add_assoc, Int.add_right_comm i]
    · intro q hq
      rcases List.mem_cons.mp hq with rfl | hq
      · simpa using hmem
      · exact hrest.2 q hq

/-- The third check concerns every instruction whose `k` is 0. -/
theorem dividesByZero_eq (p : Insn) : p.dividesByZero = decide (p.k = 0) := by
  have hcode : ∀ alu : BitVec 16, alu ||| bpfDiv ||| bpfK ≠ 0 := by
    intro alu hzero
    have hdiv : bpfDiv = 0 := (BitVec.or_eq_zero_iff.mp (BitVec.or_eq_zero_iff.mp hzero).1).2
    exact absurd hdiv (by decide)
  rw [Insn.dividesByZero, decide_eq_decide, and_iff_right (hcode _)]

/-- Without an instruction whose `k` is 0 the loop returns 0 only. -/
theorem validateFrom_some {eax : BitVec 32} {len : ℤ} {i : ℤ} {result : BitVec 32}
    (hk : ∀ p ∈ f, p.k ≠ 0) (hsome : validateFrom eax len i f = some result) : result = 0 := by
  induction f generalizing i with
  | nil => cases hsome
  | cons p f ih =>
    rw [validateFrom] at hsome
    split_ifs at hsome with hjump hmem hdiv
    · cases hsome
      rfl
    · cases hsome
      rfl
    · rw [dividesByZero_eq, decide_eq_true_eq] at hdiv
      exact absurd hdiv (hk p List.mem_cons_self)
    · exact ih (fun q hq ↦ hk q (List.mem_cons_of_mem p hq)) hsome

theorem checked_of_valid {eax : BitVec 32} {before : Insn} {f : Program}
    (hvalid : bpfValidate eax before f ≠ 0) (hnonempty : f.insns ≠ [])
    (hk : ∀ p ∈ f.insns, p.k ≠ 0) : Checked f.insns := by
  rw [bpfValidate] at hvalid
  cases hresult : validateFrom eax f.insns.length 0 f.insns with
  | some result =>
    rw [hresult] at hvalid
    exact absurd (validateFrom_some hk hresult) hvalid
  | none =>
    have hpassed := validateFrom_none hresult
    rw [hresult] at hvalid
    refine ⟨fun i p hp ↦ ?_, hpassed.2, f.insns.getLast hnonempty,
      List.getLast?_eq_some_getLast hnonempty, ?_⟩
    · have hjumps := hpassed.1 i p hp
      rwa [Int.zero_add] at hjumps
    · by_contra hclass
      rw [List.getLast?_eq_some_getLast hnonempty] at hvalid
      exact hvalid (if_neg hclass)

theorem fetch_eq {pc : ℤ} (hfetch : fetch f pc = .ok p) :
    ∃ i : ℕ, pc = i ∧ i < f.length ∧ f[i]? = some p := by
  cases pc with
  | ofNat i =>
    rw [fetch] at hfetch
    cases hi : f[i]? with
    | none =>
      rw [hi] at hfetch
      cases hfetch
    | some q =>
      rw [hi] at hfetch
      cases hfetch
      exact ⟨i, rfl, (List.getElem?_eq_some_iff.mp hi).1, hi⟩
  | negSucc i => cases hfetch

theorem fetch_ok {pc : ℤ} (hlow : 0 ≤ pc) (hhigh : pc < f.length) :
    ∃ p, fetch f pc = .ok p := by
  obtain ⟨i, rfl⟩ := Int.eq_ofNat_of_zero_le hlow
  have hlt : i < f.length := by omega
  refine ⟨f[i], ?_⟩
  change fetch f (.ofNat i) = _
  rw [fetch, List.getElem?_eq_getElem hlt]

/-- Only the cases that return have the class `BPF_RET`. -/
theorem skip_of_class (hclass : bpfClass l.code = bpfRet) : l = .retK ∨ l = .retA := by
  cases l with
  | retK => exact .inl rfl
  | retA => exact .inr rfl
  | ldAbs size => cases size <;> exact absurd hclass (by decide)
  | ldInd size => cases size <;> exact absurd hclass (by decide)
  | jmp test src => cases test <;> cases src <;> exact absurd hclass (by decide)
  | alu op src => cases op <;> cases src <;> exact absurd hclass (by decide)
  | _ => exact absurd hclass (by decide)

/-- An instruction that does not return is not the last one. -/
theorem Checked.not_last (hchecked : Checked f) {i : ℕ} (hi : f[i]? = some p)
    (hclass : bpfClass p.code ≠ bpfRet) : i + 1 < f.length := by
  obtain ⟨q, hq, hret⟩ := hchecked.last
  have hlt := (List.getElem?_eq_some_iff.mp hi).1
  by_contra hge
  have hlast : i = f.length - 1 := by omega
  rw [List.getLast?_eq_getElem?, ← hlast, hi] at hq
  cases hq
  exact hclass hret

/-- A conditional jump of a checked program stays in it, both ways. -/
theorem Checked.jump {f : Program} (hchecked : Checked f.insns) {i : ℕ} {test : Test} {src : Src}
    (hi : f.insns[i]? = some p) (hlabel : p.label = some (.jmp test src)) :
    i + 1 + p.jt.toNat < f.insns.length ∧ i + 1 + p.jf.toNat < f.insns.length := by
  have hjumps := hchecked.jumps i p hi
  have hlt := (List.getElem?_eq_some_iff.mp hi).1
  have hsize := f.size_lt
  have hjt := p.jt.isLt
  have hjf := p.jf.isLt
  have hcode := Insn.code_label hlabel
  have hclass : bpfClass p.code = bpfJmp := by
    rw [← hcode]
    cases test <;> cases src <;> decide
  have hop : bpfOp p.code ≠ bpfJa := by
    rw [← hcode]
    cases test <;> cases src <;> decide
  rw [Insn.jumpsOut, decide_eq_false_iff_not, and_iff_right hclass, if_neg hop, not_or,
    int_eq (by omega) (by omega), int_eq (by omega) (by omega)] at hjumps
  omega

/-- A checked store, or load of a scratch word into `A`, has a valid address. -/
theorem Checked.scratch (hchecked : Checked f) (hp : p ∈ f)
    (hlabel : p.label = some .st ∨ p.label = some .ldMem) : p.InScratch := by
  have hmemory := hchecked.memory p hp
  have hclass : bpfClass p.code = bpfSt ∨ bpfClass p.code = bpfLd ∧ p.code &&& 0xe0 = bpfMem := by
    rcases hlabel with hlabel | hlabel
    · rw [← Insn.code_label hlabel]
      decide
    · rw [← Insn.code_label hlabel]
      decide
  rw [Insn.strays, decide_eq_false_iff_not, and_iff_right hclass] at hmemory
  rw [Insn.InScratch]
  omega

/-! ### Runs -/

/-- The states of a run. -/
inductive Reached (f : List Insn) (pkt : Packet) (wirelen : BitVec 32) (regs : Regs) : State → Prop
  | start : Reached f pkt wirelen regs ⟨0, regs⟩
  | step {s s' : State} (hreached : Reached f pkt wirelen regs s)
      (hstep : step f pkt wirelen s = .ok (.next s')) : Reached f pkt wirelen regs s'

/-- What the validator does not see of an instruction: a load stays in the packet, `BPF_STX` and
`BPF_LDX|BPF_MEM` have a valid address, a `BPF_JA` stays in the program and a division gives a
`long`. -/
def Label.Allowed (f : List Insn) (pkt : Packet) (s : State) (p : Insn) : Label → Prop
  | .ldAbs size => pkt.Readable size p.k
  | .ldInd size => pkt.Readable size (s.regs.x + p.k)
  | .ldxMsh => pkt.Readable .b p.k
  | .ldxMem | .stx => p.InScratch
  | .ja => 0 ≤ s.pc + p.k.toInt + 1 ∧ s.pc + p.k.toInt + 1 < f.length
  | .alu op src => op = .div → p.Divides s src
  | _ => True

/-- Every instruction that a run executes is allowed. -/
def AllAllowed (f : List Insn) (pkt : Packet) (wirelen : BitVec 32) (regs : Regs) : Prop :=
  ∀ s p l, Reached f pkt wirelen regs s → fetch f s.pc = .ok p → p.label = some l →
    l.Allowed f pkt s p

/-- Every `BPF_JA` that a run executes is forward. -/
def AllForward (f : List Insn) (pkt : Packet) (wirelen : BitVec 32) (regs : Regs) : Prop :=
  ∀ s p, Reached f pkt wirelen regs s → fetch f s.pc = .ok p → p.label = some .ja → 0 ≤ p.k.toInt

/-- An allowed instruction of a checked program does not fault. -/
theorem Checked.runs (hchecked : Checked f) (hp : p ∈ f) (hlabel : p.label = some l)
    (hallowed : l.Allowed f pkt s p) : l.Runs pkt s p := by
  cases l with
  | ldMem => exact hchecked.scratch hp (.inr hlabel)
  | st => exact hchecked.scratch hp (.inl hlabel)
  | ldAbs size => exact hallowed
  | ldInd size => exact hallowed
  | ldxMsh => exact hallowed
  | ldxMem => exact hallowed
  | stx => exact hallowed
  | alu op src => exact hallowed
  | _ => exact trivial

/-- Where an instruction of a checked program goes on: further on in the program. -/
theorem Checked.next {f : Program} (hchecked : Checked f.insns) {i : ℕ}
    (hi : f.insns[i]? = some p) (hlabel : p.label = some l) (hpc : s.pc = i)
    (hallowed : l.Allowed f.insns pkt s p) (hforward : l = .ja → 0 ≤ p.k.toInt)
    (hret : l ≠ .retK ∧ l ≠ .retA) :
    0 ≤ l.skip s p ∧ s.pc + l.skip s p + 1 < f.insns.length := by
  have hlast : bpfClass p.code ≠ bpfRet := by
    rw [← Insn.code_label hlabel]
    intro hclass
    exact (skip_of_class hclass).elim hret.1 hret.2
  have hbelow := hchecked.not_last hi hlast
  rw [hpc]
  cases l with
  | ja =>
    rw [Label.Allowed, hpc] at hallowed
    exact ⟨hforward rfl, hallowed.2⟩
  | jmp test src =>
    have hjump := hchecked.jump hi hlabel
    rw [Label.skip]
    split_ifs <;> omega
  | _ =>
    change (0 : ℤ) ≤ 0 ∧ (i : ℤ) + 0 + 1 < f.insns.length
    omega

theorem step_eq (hfetch : fetch f s.pc = .ok p) :
    step f pkt wirelen s =
      match p.label with
      | some l => l.exec pkt wirelen s p
      | none => .ok (.ret 0) := by
  rw [step, hfetch]
  rfl

/-- One step of a checked program. -/
theorem Checked.step {f : Program} (hchecked : Checked f.insns) {regs : Regs}
    (hallowed : AllAllowed f.insns pkt wirelen regs)
    (hforward : AllForward f.insns pkt wirelen regs)
    (hreached : Reached f.insns pkt wirelen regs s) (hlow : 0 ≤ s.pc)
    (hhigh : s.pc < f.insns.length) :
    ∃ o, step f.insns pkt wirelen s = .ok o ∧
      ∀ s', o = .next s' → s.pc < s'.pc ∧ s'.pc < f.insns.length := by
  obtain ⟨p, hfetch⟩ := fetch_ok hlow hhigh
  obtain ⟨i, hpc, hlt, hi⟩ := fetch_eq hfetch
  rw [step_eq hfetch]
  cases hlabel : p.label with
  | none => exact ⟨_, rfl, fun s' h ↦ (nomatch h)⟩
  | some l =>
    have hthis := hallowed s p l hreached hfetch hlabel
    obtain ⟨o, ho⟩ : Succeeds (l.exec pkt wirelen s p) :=
      succeeds_exec.mpr (hchecked.runs (List.mem_of_getElem? hi) hlabel hthis)
    refine ⟨o, ho, ?_⟩
    rintro s' rfl
    have hret : l ≠ .retK ∧ l ≠ .retA := by
      constructor
      · rintro rfl
        cases ho
      · rintro rfl
        cases ho
    have hnext := hchecked.next hi hlabel hpc hthis (fun hja ↦ hforward s p hreached hfetch
      (hlabel.trans (congrArg some hja))) hret
    have hpc' := pc_exec ho
    omega

/-- A run of a checked program returns: every step brings it closer to the end. -/
theorem Checked.run {f : Program} (hchecked : Checked f.insns) {regs : Regs}
    (hallowed : AllAllowed f.insns pkt wirelen regs)
    (hforward : AllForward f.insns pkt wirelen regs)
    {fuel : ℕ} (hreached : Reached f.insns pkt wirelen regs s) (hlow : 0 ≤ s.pc)
    (hhigh : s.pc < f.insns.length) (hfuel : f.insns.length ≤ s.pc + fuel) :
    ∃ result, run f.insns pkt wirelen fuel s = some (.ok result) := by
  induction fuel generalizing s with
  | zero => omega
  | succ fuel ih =>
    obtain ⟨o, ho, hnext⟩ := hchecked.step hallowed hforward hreached hlow hhigh
    rw [Bpf.run, ho]
    cases o with
    | ret result => exact ⟨result, rfl⟩
    | next s' =>
      have hpc := hnext s' rfl
      exact ih (hreached.step ho) (by omega) hpc.2 (by omega)

/-- A run that returns makes no step that faults. -/
theorem run_reached {regs : Regs} {fuel : ℕ} {result : BitVec 32}
    (hrun : run f pkt wirelen fuel ⟨0, regs⟩ = some (.ok result))
    (hreached : Reached f pkt wirelen regs s) :
    ∃ fuel', run f pkt wirelen fuel' s = some (.ok result) := by
  induction hreached with
  | start => exact ⟨fuel, hrun⟩
  | step hreached hstep ih =>
    obtain ⟨fuel', hfuel'⟩ := ih
    cases fuel' with
    | zero => cases hfuel'
    | succ fuel' =>
      rw [run_succ, hstep] at hfuel'
      exact ⟨fuel', hfuel'⟩

/-- The step from a state whose run returns. -/
theorem run_step {fuel : ℕ} {result : BitVec 32}
    (hrun : run f pkt wirelen fuel s = some (.ok result)) :
    ∃ o, step f pkt wirelen s = .ok o ∧
      ∀ s', o = .next s' → ∃ fuel', run f pkt wirelen fuel' s' = some (.ok result) := by
  cases fuel with
  | zero => cases hrun
  | succ fuel =>
    rw [run_succ] at hrun
    cases hstep : step f pkt wirelen s with
    | error e =>
      rw [hstep] at hrun
      cases hrun
    | ok o =>
      rw [hstep] at hrun
      refine ⟨o, rfl, ?_⟩
      rintro s' rfl
      exact ⟨fuel, hrun⟩

/-- A run that returns fetches from the program only. -/
theorem run_inProgram {fuel : ℕ} {result : BitVec 32}
    (hrun : run f pkt wirelen fuel s = some (.ok result)) : 0 ≤ s.pc ∧ s.pc < f.length := by
  obtain ⟨o, ho, -⟩ := run_step hrun
  obtain ⟨p, hfetch, -⟩ := bind_ok ho
  obtain ⟨i, hpc, hlt, -⟩ := fetch_eq hfetch
  omega

/-- The instructions that a returning run executes are allowed. -/
theorem allAllowed_of_run {regs : Regs} {fuel : ℕ} {result : BitVec 32}
    (hrun : run f pkt wirelen fuel ⟨0, regs⟩ = some (.ok result)) :
    AllAllowed f pkt wirelen regs := by
  intro s p l hreached hfetch hlabel
  obtain ⟨fuel', hfuel'⟩ := run_reached hrun hreached
  obtain ⟨o, ho, hnext⟩ := run_step hfuel'
  rw [step_eq hfetch, hlabel] at ho
  have hruns := succeeds_exec.mp ⟨o, ho⟩
  cases l with
  | ja =>
    cases ho
    obtain ⟨fuel'', hfuel''⟩ := hnext _ rfl
    exact run_inProgram hfuel''
  | ldAbs size => exact hruns
  | ldInd size => exact hruns
  | ldxMsh => exact hruns
  | ldxMem => exact hruns
  | stx => exact hruns
  | alu op src => exact hruns
  | _ => exact trivial

/-- A filter that `bpf_validate` accepts returns, with no access outside of its program, its scratch
memory and the packet and with no division by zero, if every instruction it executes is allowed and
every `BPF_JA` is forward; where the program has an instruction with `k` equal to 0, the validator
stopped there and its other checks must hold as well. If the filter returns, all instructions it
executed were allowed. -/
theorem bpfFilter_safe (eax : BitVec 32) (before : Insn) (f : Program) (pkt : Packet)
    (wirelen : BitVec 32) (regs : Regs) (hvalid : bpfValidate eax before f ≠ 0) :
    (f.insns ≠ [] ∧ ((∃ p ∈ f.insns, p.k = 0) → Checked f.insns) ∧
        AllAllowed f.insns pkt wirelen regs ∧ AllForward f.insns pkt wirelen regs →
      ∃ fuel result, bpfFilter fuel (some f) pkt wirelen regs = some (.ok result)) ∧
    ((∃ fuel result, bpfFilter fuel (some f) pkt wirelen regs = some (.ok result)) →
      f.insns ≠ [] ∧ AllAllowed f.insns pkt wirelen regs) := by
  constructor
  · rintro ⟨hnonempty, hzero, hallowed, hforward⟩
    have hchecked : Checked f.insns := by
      by_cases hk : ∃ p ∈ f.insns, p.k = 0
      · exact hzero hk
      · exact checked_of_valid hvalid hnonempty fun p hp h ↦ hk ⟨p, hp, h⟩
    have hpos : 0 < f.insns.length := List.length_pos_iff.mpr hnonempty
    exact ⟨f.insns.length, hchecked.run hallowed hforward .start (Int.le_refl 0)
      (Int.natCast_pos.mpr hpos) (by rw [Int.zero_add])⟩
  · rintro ⟨fuel, result, hrun⟩
    refine ⟨?_, allAllowed_of_run hrun⟩
    intro hnil
    have hlt := (run_inProgram hrun).2
    rw [hnil] at hlt
    exact absurd hlt (Int.lt_irrefl 0)

/-- `BPF_STX` to the word 100, and a return. -/
def strayStore : Program := ⟨[⟨bpfStx, 0, 0, 100⟩, ⟨bpfRet ||| bpfK, 0, 0, 1⟩], by decide⟩

/-- The program is valid, and it stores outside of the scratch memory. -/
theorem strayStore_faults :
    ¬ ∀ (eax : BitVec 32) (before : Insn) (f : Program) (pkt : Packet) (wirelen : BitVec 32)
      (regs : Regs), bpfValidate eax before f ≠ 0 →
        ∃ fuel result, bpfFilter fuel (some f) pkt wirelen regs = some (.ok result) := by
  intro h
  have hlen : (List.replicate 60 (0 : UInt8)).length < 2 ^ 32 := by decide
  obtain ⟨fuel, result, hrun⟩ := h 0 ⟨0, 0, 0, 0⟩ strayStore (.buffer _ hlen) 60 ⟨0, 0, fun _ ↦ 0⟩
    (by decide)
  cases fuel with
  | zero => cases hrun
  | succ fuel => cases hrun

/-- A program that compares a byte of the packet and returns one of two results. -/
def byteFilter : Program :=
  ⟨[⟨bpfLd ||| Size.b.code ||| bpfAbs, 0, 0, 12⟩, ⟨bpfJmp ||| Test.jeq.code ||| bpfK, 0, 1, 8⟩,
    ⟨bpfRet ||| bpfK, 0, 0, 96⟩, ⟨bpfRet ||| bpfK, 0, 0, 1⟩], by decide⟩

/-- It returns for a packet of 60 bytes. -/
theorem byteFilter_safe :
    ∃ fuel result, bpfFilter fuel (some byteFilter)
      (.buffer (List.replicate 60 8) (by decide)) 60 ⟨0, 0, fun _ ↦ 0⟩ = some (.ok result) := by
  refine (bpfFilter_safe 0 ⟨0, 0, 0, 0⟩ byteFilter _ _ _ (by decide)).1
    ⟨List.cons_ne_nil _ _, ?_, ?_, ?_⟩
  · rintro ⟨p, hp, hk⟩
    have hall : ∀ q ∈ byteFilter.insns, q.k ≠ 0 := by decide
    exact absurd hk (hall p hp)
  · have hrun : run byteFilter.insns (.buffer (List.replicate 60 8) (by decide)) 60 4
        ⟨0, 0, 0, fun _ ↦ 0⟩ = some (.ok 96) := rfl
    exact allAllowed_of_run hrun
  · intro s p _ hfetch hlabel
    obtain ⟨i, -, -, hi⟩ := fetch_eq hfetch
    have hall : ∀ q ∈ byteFilter.insns, q.label ≠ some .ja := by decide
    exact absurd hlabel (hall p (List.mem_of_getElem? hi))

end Bsd386.Bpf
