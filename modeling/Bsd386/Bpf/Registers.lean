import Bsd386.Bpf.Safety

/-!
# Registers that a filter reads before it writes them

`bpf_filter` leaves `A`, `X` and the scratch memory as they are on the stack. What they hold makes
no difference to a run that reads each of them only after it has written it, and it is what a run
returns that has not written `A` before it.
-/

namespace Bsd386.Bpf

/-- What an instruction reads or writes: `A`, `X` and the words of the scratch memory. -/
inductive Reg
  | a
  | x
  | mem (i : Fin memwords)
  deriving DecidableEq

/-- The value of a register. -/
def Regs.get (regs : Regs) : Reg → BitVec 32
  | .a => regs.a
  | .x => regs.x
  | .mem i => regs.mem i

/-- A register gets a value. -/
def Regs.set (regs : Regs) (r : Reg) (v : BitVec 32) : Regs :=
  match r with
  | .a => { regs with a := v }
  | .x => { regs with x := v }
  | .mem i => { regs with mem := fun j ↦ if j = i then v else regs.mem j }

/-- The word of the scratch memory that an instruction names. -/
def Insn.scratchReg (p : Insn) : List Reg :=
  if h : 0 ≤ p.k.toInt ∧ p.k.toInt < memwords then [.mem ⟨p.k.toInt.toNat, by omega⟩] else []

/-- The register of the second operand. -/
def Src.reads : Src → List Reg
  | .k => []
  | .x => [.x]

/-- The registers that a case reads. -/
def Label.reads (p : Insn) : Label → List Reg
  | .retA => [.a]
  | .ldInd _ => [.x]
  | .ldMem => p.scratchReg
  | .ldxMem => p.scratchReg
  | .st => [.a]
  | .stx => [.x]
  | .jmp _ src => .a :: src.reads
  | .alu _ src => .a :: src.reads
  | .neg => [.a]
  | .tax => [.a]
  | .txa => [.x]
  | _ => []

/-- The register that a case writes. -/
def Label.writes (p : Insn) : Label → List Reg
  | .ldAbs _ => [.a]
  | .ldLen => [.a]
  | .ldxLen => [.x]
  | .ldInd _ => [.a]
  | .ldxMsh => [.x]
  | .ldImm => [.a]
  | .ldxImm => [.x]
  | .ldMem => [.a]
  | .ldxMem => [.x]
  | .st => p.scratchReg
  | .stx => p.scratchReg
  | .alu _ _ => [.a]
  | .neg => [.a]
  | .tax => [.x]
  | .txa => [.a]
  | _ => []

variable {f : List Insn} {pkt : Packet} {wirelen : BitVec 32} {s s' s₁ s₁' : State} {p : Insn}
  {l : Label} {written : List Reg} {r : Reg} {v : BitVec 32}

/-! ## Two runs with different registers -/

theorem get_set_self (regs : Regs) (r : Reg) (v : BitVec 32) : (regs.set r v).get r = v := by
  cases r with
  | a => rfl
  | x => rfl
  | mem i => exact if_pos rfl

theorem get_set_of_ne {regs : Regs} {r' : Reg} (hne : r' ≠ r) :
    (regs.set r v).get r' = regs.get r' := by
  cases r with
  | a =>
    cases r' with
    | a => exact absurd rfl hne
    | x => rfl
    | mem i => rfl
  | x =>
    cases r' with
    | a => rfl
    | x => exact absurd rfl hne
    | mem i => rfl
  | mem i =>
    cases r' with
    | a => rfl
    | x => rfl
    | mem j => exact if_neg fun h ↦ hne (congrArg Reg.mem h)

/-- Two states at the same instruction, that agree on what has been written. -/
structure Twin (written : List Reg) (s s' : State) : Prop where
  pc : s.pc = s'.pc
  regs : ∀ r ∈ written, s.regs.get r = s'.regs.get r

/-- Two steps with the same result, or to states that agree. -/
inductive Alike (written : List Reg) : Except Fault Outcome → Except Fault Outcome → Prop
  | error (e : Fault) : Alike written (.error e) (.error e)
  | ret (result : BitVec 32) : Alike written (.ok (.ret result)) (.ok (.ret result))
  | next {s s' : State} (h : Twin written s s') : Alike written (.ok (.next s)) (.ok (.next s'))

theorem Twin.set (h : Twin written s s') (r : Reg) (v : BitVec 32) :
    Alike (r :: written) (s.continue (s.regs.set r v)) (s'.continue (s'.regs.set r v)) := by
  refine .next ⟨congrArg (· + 1) h.pc, fun r' hr' ↦ ?_⟩
  change (s.regs.set r v).get r' = (s'.regs.set r v).get r'
  by_cases hr : r' = r
  · rw [hr, get_set_self, get_set_self]
  · rw [get_set_of_ne hr, get_set_of_ne hr]
    exact h.regs r' ((List.mem_cons.mp hr').resolve_left hr)

theorem Twin.jump (h : Twin written s s') (offset : ℤ) :
    Alike written (s.jump offset) (s'.jump offset) :=
  .next ⟨congrArg (· + offset + 1) h.pc, h.regs⟩

theorem Twin.load (h : Twin written s s') (size : Size) (absolute : Bool) (k : BitVec 32) :
    Alike (.a :: written) (s.load pkt size absolute k) (s'.load pkt size absolute k) := by
  unfold State.load
  cases pkt.load size absolute k with
  | error e => exact .error e
  | ok loaded =>
    cases loaded with
    | value v => exact h.set .a v
    | reject => exact .ret 0
    | merr =>
      change Alike _ (if _ then _ else _) (if _ then _ else _)
      split_ifs
      · exact h.set .a 0
      · exact .ret 0

theorem Twin.value {src : Src} (h : Twin written s s') (hreads : ∀ r ∈ src.reads, r ∈ written) :
    src.value p s = src.value p s' := by
  cases src with
  | k => rfl
  | x => exact h.regs .x (hreads .x List.mem_cons_self)

/-- Two steps that need the same word of the scratch memory. -/
theorem alike_scratch {g g' : Fin memwords → Except Fault Outcome}
    (hg : ∀ i, p.scratchReg = [.mem i] → Alike written (g i) (g' i)) :
    Alike written (scratch p.k >>= g) (scratch p.k >>= g') := by
  unfold scratch
  split_ifs with hk
  · exact hg _ (dif_pos hk)
  · exact .error _

/-- A case that reads only what has been written does the same in both states. -/
theorem Twin.exec (h : Twin written s s') (hreads : ∀ r ∈ l.reads p, r ∈ written) :
    Alike (l.writes p ++ written) (l.exec pkt wirelen s p) (l.exec pkt wirelen s' p) := by
  cases l with
  | retK => exact .ret _
  | retA =>
    have ha : s.regs.a = s'.regs.a := h.regs .a (hreads .a List.mem_cons_self)
    change Alike _ (.ok (.ret s.regs.a)) (.ok (.ret s'.regs.a))
    rw [ha]
    exact .ret _
  | ldAbs size => exact h.load size true p.k
  | ldLen => exact h.set .a wirelen
  | ldxLen => exact h.set .x wirelen
  | ldInd size =>
    have hx : s.regs.x = s'.regs.x := h.regs .x (hreads .x List.mem_cons_self)
    change Alike _ (s.load pkt size false (s.regs.x + p.k))
      (s'.load pkt size false (s'.regs.x + p.k))
    rw [hx]
    exact h.load size false _
  | ldxMsh =>
    change Alike _ (pkt.loadByte _ p.k >>= _) (pkt.loadByte _ p.k >>= _)
    cases pkt.loadByte (fun b ↦ b.toBitVec.signExtend 32) p.k with
    | error e => exact .error e
    | ok loaded =>
      cases loaded with
      | value v => exact h.set .x ((v &&& 0xf) <<< 2)
      | reject => exact .ret 0
      | merr => exact .ret 0
  | ldImm => exact h.set .a p.k
  | ldxImm => exact h.set .x p.k
  | ldMem =>
    refine alike_scratch fun i hi ↦ ?_
    have hmem : s.regs.mem i = s'.regs.mem i := by
      refine h.regs (.mem i) (hreads _ ?_)
      rw [Label.reads, hi]
      exact List.mem_cons_self
    change Alike _ (s.continue (s.regs.set .a (s.regs.mem i)))
      (s'.continue (s'.regs.set .a (s'.regs.mem i)))
    rw [hmem]
    exact h.set .a _
  | ldxMem =>
    refine alike_scratch fun i hi ↦ ?_
    have hmem : s.regs.mem i = s'.regs.mem i := by
      refine h.regs (.mem i) (hreads _ ?_)
      rw [Label.reads, hi]
      exact List.mem_cons_self
    change Alike _ (s.continue (s.regs.set .x (s.regs.mem i)))
      (s'.continue (s'.regs.set .x (s'.regs.mem i)))
    rw [hmem]
    exact h.set .x _
  | st =>
    refine alike_scratch fun i hi ↦ ?_
    have ha : s.regs.a = s'.regs.a := h.regs .a (hreads .a List.mem_cons_self)
    rw [Label.writes, hi]
    change Alike _ (s.continue (s.regs.set (.mem i) s.regs.a))
      (s'.continue (s'.regs.set (.mem i) s'.regs.a))
    rw [ha]
    exact h.set (.mem i) _
  | stx =>
    refine alike_scratch fun i hi ↦ ?_
    have hx : s.regs.x = s'.regs.x := h.regs .x (hreads .x List.mem_cons_self)
    rw [Label.writes, hi]
    change Alike _ (s.continue (s.regs.set (.mem i) s.regs.x))
      (s'.continue (s'.regs.set (.mem i) s'.regs.x))
    rw [hx]
    exact h.set (.mem i) _
  | ja => exact h.jump _
  | jmp test src =>
    have ha : s.regs.a = s'.regs.a := h.regs .a (hreads .a List.mem_cons_self)
    have hvalue := h.value (p := p) fun r hr ↦ hreads r (List.mem_cons_of_mem _ hr)
    change Alike _ (s.jump (if test.holds s.regs.a (src.value p s) then _ else _))
      (s'.jump (if test.holds s'.regs.a (src.value p s') then _ else _))
    rw [ha, hvalue]
    exact h.jump _
  | alu op src =>
    have ha : s.regs.a = s'.regs.a := h.regs .a (hreads .a List.mem_cons_self)
    have hvalue := h.value (p := p) fun r hr ↦ hreads r (List.mem_cons_of_mem _ hr)
    change Alike _ (op.apply src s.regs.a (src.value p s) >>= _)
      (op.apply src s'.regs.a (src.value p s') >>= _)
    rw [ha, hvalue]
    cases op.apply src s'.regs.a (src.value p s') with
    | error e => exact .error e
    | ok result =>
      cases result with
      | some v => exact h.set .a v
      | none => exact .ret 0
  | neg =>
    have ha : s.regs.a = s'.regs.a := h.regs .a (hreads .a List.mem_cons_self)
    change Alike _ (s.continue (s.regs.set .a (-s.regs.a)))
      (s'.continue (s'.regs.set .a (-s'.regs.a)))
    rw [ha]
    exact h.set .a _
  | tax =>
    have ha : s.regs.a = s'.regs.a := h.regs .a (hreads .a List.mem_cons_self)
    change Alike _ (s.continue (s.regs.set .x s.regs.a)) (s'.continue (s'.regs.set .x s'.regs.a))
    rw [ha]
    exact h.set .x _
  | txa =>
    have hx : s.regs.x = s'.regs.x := h.regs .x (hreads .x List.mem_cons_self)
    change Alike _ (s.continue (s.regs.set .a s.regs.x)) (s'.continue (s'.regs.set .a s'.regs.x))
    rw [hx]
    exact h.set .a _

/-! ## What a step leaves -/

/-- A step that goes on leaves the registers, or sets the one that the case writes. -/
theorem regs_load {size : Size} {absolute : Bool} {k : BitVec 32}
    (hnext : s.load pkt size absolute k = .ok (.next s')) : ∃ v, s'.regs = s.regs.set .a v := by
  obtain ⟨loaded, -, hrest⟩ := bind_ok hnext
  cases loaded with
  | value v =>
    cases hrest
    exact ⟨v, rfl⟩
  | reject => cases hrest
  | merr =>
    dsimp only at hrest
    split_ifs at hrest
    · cases hrest
      exact ⟨0, rfl⟩
    · cases hrest

theorem scratchReg_of_ok {i : Fin memwords} (hscratch : scratch p.k = .ok i) :
    p.scratchReg = [.mem i] := by
  unfold scratch at hscratch
  split_ifs at hscratch with hk
  cases hscratch
  exact dif_pos hk

theorem regs_exec (hnext : l.exec pkt wirelen s p = .ok (.next s')) :
    s'.regs = s.regs ∨ ∃ r v, l.writes p = [r] ∧ s'.regs = s.regs.set r v := by
  cases l with
  | retK => cases hnext
  | retA => cases hnext
  | ldAbs size =>
    obtain ⟨v, hv⟩ := regs_load hnext
    exact Or.inr ⟨.a, v, rfl, hv⟩
  | ldInd size =>
    obtain ⟨v, hv⟩ := regs_load hnext
    exact Or.inr ⟨.a, v, rfl, hv⟩
  | ldLen =>
    cases hnext
    exact Or.inr ⟨.a, _, rfl, rfl⟩
  | ldxLen =>
    cases hnext
    exact Or.inr ⟨.x, _, rfl, rfl⟩
  | ldxMsh =>
    obtain ⟨loaded, -, hrest⟩ := bind_ok hnext
    cases loaded with
    | value v =>
      cases hrest
      exact Or.inr ⟨.x, _, rfl, rfl⟩
    | reject => cases hrest
    | merr => cases hrest
  | ldImm =>
    cases hnext
    exact Or.inr ⟨.a, _, rfl, rfl⟩
  | ldxImm =>
    cases hnext
    exact Or.inr ⟨.x, _, rfl, rfl⟩
  | ldMem =>
    obtain ⟨i, -, hrest⟩ := bind_ok hnext
    cases hrest
    exact Or.inr ⟨.a, _, rfl, rfl⟩
  | ldxMem =>
    obtain ⟨i, -, hrest⟩ := bind_ok hnext
    cases hrest
    exact Or.inr ⟨.x, _, rfl, rfl⟩
  | st =>
    obtain ⟨i, hi, hrest⟩ := bind_ok hnext
    cases hrest
    exact Or.inr ⟨.mem i, _, scratchReg_of_ok hi, rfl⟩
  | stx =>
    obtain ⟨i, hi, hrest⟩ := bind_ok hnext
    cases hrest
    exact Or.inr ⟨.mem i, _, scratchReg_of_ok hi, rfl⟩
  | ja =>
    cases hnext
    exact Or.inl rfl
  | jmp test src =>
    cases hnext
    exact Or.inl rfl
  | alu op src =>
    obtain ⟨result, -, hrest⟩ := bind_ok hnext
    cases result with
    | some a =>
      cases hrest
      exact Or.inr ⟨.a, _, rfl, rfl⟩
    | none => cases hrest
  | neg =>
    cases hnext
    exact Or.inr ⟨.a, _, rfl, rfl⟩
  | tax =>
    cases hnext
    exact Or.inr ⟨.x, _, rfl, rfl⟩
  | txa =>
    cases hnext
    exact Or.inr ⟨.a, _, rfl, rfl⟩

/-- A register that the case does not write stays as it was. -/
theorem get_exec (hnext : l.exec pkt wirelen s p = .ok (.next s')) (hr : r ∉ l.writes p) :
    s'.regs.get r = s.regs.get r := by
  rcases regs_exec hnext with hsame | ⟨r', v, hwrites, hset⟩
  · rw [hsame]
  · rw [hwrites, List.mem_singleton] at hr
    rw [hset, get_set_of_ne hr]

/-! ## Runs -/

/-- The states of a run, with the registers that have been written before each of them. -/
inductive Wrote (f : List Insn) (pkt : Packet) (wirelen : BitVec 32) (regs : Regs) :
    List Reg → State → Prop
  | start : Wrote f pkt wirelen regs [] ⟨0, regs⟩
  | step {written : List Reg} {s s' : State} {p : Insn} {l : Label}
      (hwrote : Wrote f pkt wirelen regs written s) (hfetch : fetch f s.pc = .ok p)
      (hlabel : p.label = some l) (hexec : l.exec pkt wirelen s p = .ok (.next s')) :
      Wrote f pkt wirelen regs (l.writes p ++ written) s'

/-- Every instruction that a run executes, of those that `which` tells, reads only registers that
the run has written. -/
def ReadsWritten (which : Label → Prop) (f : List Insn) (pkt : Packet) (wirelen : BitVec 32)
    (regs : Regs) : Prop :=
  ∀ written s p l, Wrote f pkt wirelen regs written s → fetch f s.pc = .ok p → p.label = some l →
    which l → ∀ r ∈ l.reads p, r ∈ written

variable {regs regs' : Regs} {which : Label → Prop} {fuel : ℕ}

theorem step_of_error {e : Fault} (hfetch : fetch f s.pc = .error e) :
    step f pkt wirelen s = .error e := by
  unfold step
  rw [hfetch]
  rfl

theorem step_of_none (hfetch : fetch f s.pc = .ok p) (hlabel : p.label = none) :
    step f pkt wirelen s = .ok (.ret 0) := by
  unfold step
  rw [hfetch]
  simp only [bind, Except.bind, hlabel]
  rfl

theorem step_of_label (hfetch : fetch f s.pc = .ok p) (hlabel : p.label = some l) :
    step f pkt wirelen s = l.exec pkt wirelen s p := by
  unfold step
  rw [hfetch]
  simp only [bind, Except.bind, hlabel]

/-- Two states that agree on what has been written do the same step, if it reads nothing else. -/
theorem step_twin (hreads : ReadsWritten (fun _ ↦ True) f pkt wirelen regs)
    (hwrote : Wrote f pkt wirelen regs written s) (htwin : Twin written s s') :
    ∃ written', Alike written' (step f pkt wirelen s) (step f pkt wirelen s') ∧
      ∀ s₁, step f pkt wirelen s = .ok (.next s₁) → Wrote f pkt wirelen regs written' s₁ := by
  cases hfetch : fetch f s.pc with
  | error e =>
    have hfetch' : fetch f s'.pc = .error e := htwin.pc ▸ hfetch
    rw [step_of_error hfetch, step_of_error hfetch']
    refine ⟨written, .error e, fun s₁ hstep ↦ ?_⟩
    cases hstep
  | ok p =>
    have hfetch' : fetch f s'.pc = .ok p := htwin.pc ▸ hfetch
    cases hlabel : p.label with
    | none =>
      rw [step_of_none hfetch hlabel, step_of_none hfetch' hlabel]
      refine ⟨written, .ret 0, fun s₁ hstep ↦ ?_⟩
      cases hstep
    | some l =>
      rw [step_of_label hfetch hlabel, step_of_label hfetch' hlabel]
      have hread := hreads written s p l hwrote hfetch hlabel trivial
      exact ⟨l.writes p ++ written, htwin.exec hread, fun s₁ hexec ↦
        .step hwrote hfetch hlabel hexec⟩

/-- From two states that agree on what has been written, runs that read nothing else give the same
result. -/
theorem run_twin (hreads : ReadsWritten (fun _ ↦ True) f pkt wirelen regs)
    (hwrote : Wrote f pkt wirelen regs written s) (htwin : Twin written s s') :
    run f pkt wirelen fuel s = run f pkt wirelen fuel s' := by
  induction fuel generalizing written s s' with
  | zero => rfl
  | succ fuel ih =>
    obtain ⟨written', halike, hnext⟩ := step_twin hreads hwrote htwin
    rw [run_succ, run_succ]
    revert halike hnext
    generalize step f pkt wirelen s = o
    generalize step f pkt wirelen s' = o'
    intro halike hnext
    cases halike with
    | error e => rfl
    | ret result => rfl
    | next htwin' => exact ih (hnext _ rfl) htwin'

/-- A run of the same program from other registers gets to the same instruction. -/
structure Follows (f : List Insn) (pkt : Packet) (wirelen : BitVec 32) (regs : Regs)
    (written : List Reg) (s : State) (n : ℕ) : Prop where
  runs : ∀ fuel, run f pkt wirelen (n + fuel) ⟨0, regs⟩ = run f pkt wirelen fuel s
  unwritten : ∀ r, r ∉ written → s.regs.get r = regs.get r

theorem Follows.start : Follows f pkt wirelen regs [] ⟨0, regs⟩ 0 :=
  ⟨fun fuel ↦ by rw [Nat.zero_add], fun _ _ ↦ rfl⟩

theorem Follows.step {n : ℕ} (h : Follows f pkt wirelen regs written s n)
    (hfetch : fetch f s.pc = .ok p) (hlabel : p.label = some l)
    (hexec : l.exec pkt wirelen s p = .ok (.next s')) :
    Follows f pkt wirelen regs (l.writes p ++ written) s' (n + 1) where
  runs fuel := by
    rw [Nat.add_right_comm, Nat.add_assoc, h.runs, run_succ, step_of_label hfetch hlabel, hexec]
  unwritten r hr := by
    rw [List.mem_append, not_or] at hr
    rw [get_exec hexec hr.1, h.unwritten r hr.2]

/-- Every state of a run that reads only what it has written, up to a return of `A`, has a twin in
the run from other registers. -/
theorem Wrote.twin (hreads : ReadsWritten (· ≠ .retA) f pkt wirelen regs)
    (hwrote : Wrote f pkt wirelen regs written s) (regs' : Regs) :
    ∃ n s', Twin written s s' ∧ Follows f pkt wirelen regs written s n ∧
      Follows f pkt wirelen regs' written s' n := by
  induction hwrote with
  | start =>
    exact ⟨0, ⟨0, regs'⟩, ⟨rfl, fun r hr ↦ absurd hr List.not_mem_nil⟩, .start, .start⟩
  | step hwrote hfetch hlabel hexec ih =>
    rename_i written s s₁ p l
    obtain ⟨n, s', htwin, hfollows, hfollows'⟩ := ih
    have hret : l ≠ .retA := by
      rintro rfl
      cases hexec
    have halike : Alike (l.writes p ++ written) (l.exec pkt wirelen s p)
        (l.exec pkt wirelen s' p) := htwin.exec (hreads written s p l hwrote hfetch hlabel hret)
    have hfetch' : fetch f s'.pc = .ok p := htwin.pc ▸ hfetch
    rw [hexec] at halike
    generalize hexec' : l.exec pkt wirelen s' p = o at halike
    cases halike with
    | next htwin' =>
      exact ⟨n + 1, _, htwin', hfollows.step hfetch hlabel hexec,
        hfollows'.step hfetch' hlabel hexec'⟩

/-- A run that returns an `A` that it has not written returns what the stack held. -/
theorem written_of_same (hreads : ReadsWritten (· ≠ .retA) f pkt wirelen regs)
    (hsame : ∀ regs' fuel, run f pkt wirelen fuel ⟨0, regs'⟩ = run f pkt wirelen fuel ⟨0, regs⟩)
    (hwrote : Wrote f pkt wirelen regs written s) (hfetch : fetch f s.pc = .ok p)
    (hlabel : p.label = some .retA) : .a ∈ written := by
  by_contra ha
  obtain ⟨n, s', htwin, hfollows, hfollows'⟩ :=
    hwrote.twin hreads { regs with a := regs.a + 1 }
  have hfetch' : fetch f s'.pc = .ok p := htwin.pc ▸ hfetch
  have hrun := hsame { regs with a := regs.a + 1 } (n + 1)
  rw [hfollows.runs, hfollows'.runs, run_succ, run_succ, step_of_label hfetch hlabel,
    step_of_label hfetch' hlabel] at hrun
  have hstack : s.regs.a = regs.a := hfollows.unwritten .a ha
  have hstack' : s'.regs.a = regs.a + 1 := hfollows'.unwritten .a ha
  simp only [Label.exec, Option.some.injEq, Except.ok.injEq] at hrun
  rw [hstack, hstack'] at hrun
  exact absurd hrun (by simp)

/-- The result of a filter does not depend on the registers it starts with if it reads only what it
has written; and a filter whose other instructions read only what has been written gives a result
that does not depend on them exactly when it returns no `A` that it has not written. -/
theorem bpfFilter_same (f : Program) (pkt : Packet) (wirelen : BitVec 32) (regs : Regs) :
    (ReadsWritten (fun _ ↦ True) f.insns pkt wirelen regs → ∀ regs' fuel,
      bpfFilter fuel f pkt wirelen regs' = bpfFilter fuel f pkt wirelen regs) ∧
    (ReadsWritten (· ≠ .retA) f.insns pkt wirelen regs →
      ((∀ regs' fuel, bpfFilter fuel f pkt wirelen regs' = bpfFilter fuel f pkt wirelen regs) ↔
        ReadsWritten (fun _ ↦ True) f.insns pkt wirelen regs)) := by
  have henough : ReadsWritten (fun _ ↦ True) f.insns pkt wirelen regs → ∀ regs' fuel,
      bpfFilter fuel f pkt wirelen regs' = bpfFilter fuel f pkt wirelen regs := by
    intro hreads regs' fuel
    have htwin : Twin [] ⟨0, regs⟩ ⟨0, regs'⟩ := ⟨rfl, fun r hr ↦ absurd hr List.not_mem_nil⟩
    exact (run_twin hreads .start htwin).symm
  refine ⟨henough, fun hreads ↦ ⟨fun hsame written s p l hwrote hfetch hlabel _ ↦ ?_, henough⟩⟩
  by_cases hret : l = .retA
  · subst hret
    exact List.forall_mem_singleton.mpr (written_of_same hreads hsame hwrote hfetch hlabel)
  · exact hreads written s p l hwrote hfetch hlabel hret

/-- A program that loads a constant and returns it. -/
def loadAndReturn : Program :=
  ⟨[⟨bpfLd ||| bpfImm, 0, 0, 5⟩, ⟨bpfRet ||| bpfA, 0, 0, 1⟩], by decide⟩

theorem loadAndReturn_wrote (hwrote : Wrote loadAndReturn.insns pkt wirelen regs written s) :
    s.pc = 0 ∧ written = [] ∨ s.pc = 1 ∧ written = [.a] := by
  induction hwrote with
  | start => exact Or.inl ⟨rfl, rfl⟩
  | step hwrote hfetch hlabel hexec ih =>
    rename_i written s s' p l
    rcases ih with ⟨hpc, hwritten⟩ | ⟨hpc, -⟩
    · rw [hpc] at hfetch
      cases hfetch
      cases hlabel
      cases hexec
      rw [hpc, hwritten]
      exact Or.inr ⟨rfl, rfl⟩
    · rw [hpc] at hfetch
      cases hfetch
      cases hlabel
      cases hexec

theorem loadAndReturn_reads :
    ReadsWritten (fun _ ↦ True) loadAndReturn.insns pkt wirelen regs := by
  intro written s p l hwrote hfetch hlabel _ r hr
  rcases loadAndReturn_wrote hwrote with ⟨hpc, -⟩ | ⟨hpc, hwritten⟩
  · rw [hpc] at hfetch
    cases hfetch
    cases hlabel
    cases hr
  · rw [hpc] at hfetch
    cases hfetch
    cases hlabel
    rw [hwritten]
    exact hr

/-- It returns the constant whatever the stack held. -/
theorem loadAndReturn_same (fuel : ℕ) :
    bpfFilter fuel loadAndReturn (.buffer [] (by decide)) 0 ⟨7, 7, fun _ ↦ 7⟩ =
      bpfFilter fuel loadAndReturn (.buffer [] (by decide)) 0 ⟨0, 0, fun _ ↦ 0⟩ :=
  (bpfFilter_same loadAndReturn (.buffer [] (by decide)) 0 ⟨0, 0, fun _ ↦ 0⟩).1
    loadAndReturn_reads _ fuel

/-- A program that returns `A`. -/
def returnA : Program := ⟨[⟨bpfRet ||| bpfA, 0, 0, 1⟩], by decide⟩

/-- It is accepted, and it returns what the stack held. -/
theorem returnA_differs :
    ¬ ∀ (eax : BitVec 32) (before : Insn) (f : Program), bpfValidate eax before f ≠ 0 →
      ∀ (pkt : Packet) (wirelen : BitVec 32) (fuel : ℕ) (regs regs' : Regs),
        bpfFilter fuel f pkt wirelen regs' = bpfFilter fuel f pkt wirelen regs := by
  intro hsame
  have hresult := hsame 0 ⟨0, 0, 0, 0⟩ returnA (by decide) (.buffer [] (by decide)) 0 1
    ⟨0, 0, fun _ ↦ 0⟩ ⟨1, 0, fun _ ↦ 0⟩
  exact absurd hresult (by decide)

end Bsd386.Bpf
