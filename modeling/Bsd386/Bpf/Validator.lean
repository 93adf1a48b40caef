import Bsd386.Bpf.Safety

/-!
# What the validator accepts

A program is valid if its jumps lead to later instructions inside of it, its scratch indices exist,
it does not divide by the constant 0, and it ends with a return. `bpf_validate` rejects no valid
program for its jumps or indices, but it overlooks some that are invalid, and an instruction with
`k` equal to 0 makes its result arbitrary unless an earlier one has been rejected.
-/

namespace Bsd386.Bpf

variable {f : List Insn} {p : Insn} {i len : ℤ} {eax : BitVec 32} {before : Insn}

/-- `BPF_SRC`. -/
def bpfSrc (code : BitVec 16) : BitVec 16 := code &&& 0x08

/-- `BPF_MODE`. -/
def bpfMode (code : BitVec 16) : BitVec 16 := code &&& 0xe0

/-- The targets of a jump at `i`. -/
def Insn.targets (p : Insn) (i : ℤ) : List ℤ :=
  if bpfOp p.code = bpfJa then [i + 1 + p.k.toInt]
  else [i + 1 + p.jt.toNat, i + 1 + p.jf.toNat]

/-- The instruction loads or stores a word of the scratch memory. -/
def Insn.UsesScratch (p : Insn) : Prop :=
  bpfClass p.code = bpfSt ∨ bpfClass p.code = bpfStx ∨
    (bpfClass p.code = bpfLd ∨ bpfClass p.code = bpfLdx) ∧ bpfMode p.code = bpfMem

/-- The instruction divides by the constant 0. -/
def Insn.DividesByConstZero (p : Insn) : Prop :=
  bpfClass p.code = bpfAlu ∧ bpfOp p.code = bpfDiv ∧ bpfSrc p.code = bpfK ∧ p.k = 0

/-- A valid program. -/
structure Valid (f : List Insn) : Prop where
  jumps : ∀ (i : ℕ) (p : Insn), f[i]? = some p → bpfClass p.code = bpfJmp →
    ∀ t ∈ p.targets i, i < t ∧ t < f.length
  scratch : ∀ p ∈ f, p.UsesScratch → p.InScratch
  divides : ∀ p ∈ f, ¬ p.DividesByConstZero
  last : ∃ p, f.getLast? = some p ∧ bpfClass p.code = bpfRet

/-! ## What a check says -/

/-- The instruction at `i` is rejected for its jump or its index. -/
def Insn.Rejected (p : Insn) (len i : ℤ) : Prop := p.jumpsOut len (i + 1) = true ∨ p.strays = true

/-- The instruction with `k` equal to 0 that the validator stops at comes before one that it
rejects. -/
def StopsEarly (len : ℤ) : ℤ → List Insn → Prop
  | _, [] => False
  | i, p :: f => ¬ p.Rejected len i ∧ (p.k = 0 ∨ StopsEarly len (i + 1) f)

/-- A jump that the validator overlooks: a `BPF_JA` backward, or so far forward that the sum with
its place is no `int`. -/
def Insn.JumpsAmiss (p : Insn) (i : ℤ) : Prop :=
  bpfClass p.code = bpfJmp ∧ bpfOp p.code = bpfJa ∧
    (p.k.toInt < 0 ∨ 2 ^ 31 ≤ i + 1 + p.k.toInt)

/-- An index that the validator overlooks. -/
def Insn.StraysUnseen (p : Insn) : Prop :=
  (bpfClass p.code = bpfStx ∨ bpfClass p.code = bpfLdx ∧ bpfMode p.code = bpfMem) ∧ ¬ p.InScratch

/-- Nothing that the validator overlooks is in the program. -/
structure Seen (f : List Insn) : Prop where
  jumps : ∀ (i : ℕ) (p : Insn), f[i]? = some p → ¬ p.JumpsAmiss i
  scratch : ∀ p ∈ f, ¬ p.StraysUnseen

/-! ## What the loop returns -/

theorem validateFrom_stops (hstops : StopsEarly len i f) (eax : BitVec 32) :
    validateFrom eax len i f = some eax := by
  induction f generalizing i with
  | nil => exact hstops.elim
  | cons p f ih =>
    obtain ⟨haccepted, hrest⟩ := hstops
    obtain ⟨hjumps, hstrays⟩ := not_or.mp haccepted
    rw [validateFrom, if_neg hjumps, if_neg hstrays, dividesByZero_eq]
    by_cases hk : p.k = 0
    · rw [if_pos (decide_eq_true hk)]
    · rw [if_neg (by rwa [decide_eq_true_eq])]
      exact ih (hrest.resolve_left hk)

theorem not_stopsEarly (hk : ∀ p ∈ f, p.k ≠ 0) : ¬ StopsEarly len i f := by
  induction f generalizing i with
  | nil => exact not_false
  | cons p f ih =>
    rintro ⟨-, hzero | hrest⟩
    · exact hk p List.mem_cons_self hzero
    · exact ih (fun q hq ↦ hk q (List.mem_cons_of_mem p hq)) hrest

theorem validateFrom_rejects {j : ℕ} (hstops : ¬ StopsEarly len i f) (hp : f[j]? = some p)
    (hrejected : p.Rejected len (i + j)) (eax : BitVec 32) : validateFrom eax len i f = some 0 := by
  induction f generalizing i j with
  | nil => cases hp
  | cons q f ih =>
    rw [validateFrom]
    by_cases hq : q.Rejected len i
    · rcases hq with hjumps | hstrays
      · rw [if_pos hjumps]
      · rw [if_pos hstrays, ite_self]
    · obtain ⟨hjumps, hstrays⟩ := not_or.mp hq
      obtain ⟨hk, hrest⟩ := not_or.mp (not_and.mp hstops hq)
      rw [if_neg hjumps, if_neg hstrays, dividesByZero_eq, if_neg (by rwa [decide_eq_true_eq])]
      cases j with
      | zero =>
        cases hp
        rw [Int.natCast_zero, Int.add_zero] at hrejected
        exact absurd hrejected hq
      | succ j =>
        refine ih hrest hp ?_
        rwa [Int.natCast_succ, Int.add_comm (j : ℤ), ← Int.add_assoc] at hrejected

theorem validateFrom_passes (hstops : ¬ StopsEarly len i f)
    (haccepted : ∀ (j : ℕ) (p : Insn), f[j]? = some p → ¬ p.Rejected len (i + j))
    (eax : BitVec 32) : validateFrom eax len i f = none ∧ ∀ p ∈ f, p.k ≠ 0 := by
  induction f generalizing i with
  | nil => exact ⟨rfl, fun p hp ↦ absurd hp List.not_mem_nil⟩
  | cons q f ih =>
    have hq : ¬ q.Rejected len i := by
      have hfirst := haccepted 0 q rfl
      rwa [Int.natCast_zero, Int.add_zero] at hfirst
    obtain ⟨hjumps, hstrays⟩ := not_or.mp hq
    obtain ⟨hk, hrest⟩ := not_or.mp (not_and.mp hstops hq)
    obtain ⟨hnone, hall⟩ := ih hrest fun j p hp hrejected ↦ by
      refine haccepted (j + 1) p hp ?_
      rwa [Int.natCast_succ, Int.add_comm (j : ℤ), ← Int.add_assoc]
    refine ⟨?_, List.forall_mem_cons.mpr ⟨hk, hall⟩⟩
    rw [validateFrom, if_neg hjumps, if_neg hstrays, dividesByZero_eq,
      if_neg (by rwa [decide_eq_true_eq])]
    exact hnone

/-! ## Valid programs -/

/-- A valid instruction is not rejected. -/
theorem Valid.not_rejected (hsize : f.length * 8 < 2 ^ 32) (hvalid : Valid f) {j : ℕ}
    (hp : f[j]? = some p) : ¬ p.Rejected f.length j := by
  have hlt := (List.getElem?_eq_some_iff.mp hp).1
  rintro (hjumps | hstrays)
  · rw [Insn.jumpsOut, decide_eq_true_eq] at hjumps
    obtain ⟨hclass, hout⟩ := hjumps
    have htargets := hvalid.jumps j p hp hclass
    unfold Insn.targets at htargets
    split_ifs at hout htargets
    · have hin := htargets _ List.mem_cons_self
      rw [int_eq (by omega) (by omega)] at hout
      omega
    · have hjt := htargets _ List.mem_cons_self
      have hjf := htargets _ (List.mem_cons_of_mem _ List.mem_cons_self)
      rw [int_eq (by omega) (by omega), int_eq (by omega) (by omega)] at hout
      omega
  · rw [Insn.strays, decide_eq_true_eq] at hstrays
    obtain ⟨huses, hout⟩ := hstrays
    have hscratch : p.UsesScratch :=
      huses.imp_right fun h ↦ Or.inr ⟨Or.inl h.1, h.2⟩
    have hin := hvalid.scratch p (List.mem_of_getElem? hp) hscratch
    unfold Insn.InScratch at hin
    omega

/-- The validator overlooks nothing in a valid program. -/
theorem Valid.seen (hsize : f.length * 8 < 2 ^ 32) (hvalid : Valid f) : Seen f where
  jumps j p hp hamiss := by
    obtain ⟨hclass, hop, hout⟩ := hamiss
    have htargets := hvalid.jumps j p hp hclass
    unfold Insn.targets at htargets
    rw [if_pos hop] at htargets
    have hin := htargets _ List.mem_cons_self
    omega
  scratch p hp hunseen := by
    refine hunseen.2 (hvalid.scratch p hp ?_)
    exact Or.inr (hunseen.1.imp_right fun h ↦ ⟨Or.inr h.1, h.2⟩)

/-- A program that passes the checks is valid if nothing in it is overlooked and no instruction has
`k` equal to 0. -/
theorem Checked.valid (hsize : f.length * 8 < 2 ^ 32) (hchecked : Checked f) (hseen : Seen f)
    (hk : ∀ p ∈ f, p.k ≠ 0) : Valid f where
  jumps j p hp hclass t ht := by
    have hlt := (List.getElem?_eq_some_iff.mp hp).1
    have hjt := p.jt.isLt
    have hjf := p.jf.isLt
    have hjumps := hchecked.jumps j p hp
    rw [Insn.jumpsOut, decide_eq_false_iff_not, and_iff_right hclass] at hjumps
    unfold Insn.targets at ht
    split_ifs at hjumps ht with hop
    · have hamiss := hseen.jumps j p hp
      rw [Insn.JumpsAmiss, and_iff_right hclass, and_iff_right hop] at hamiss
      rw [List.mem_singleton.mp ht]
      rw [int_eq (by omega) (by omega)] at hjumps
      omega
    · rw [int_eq (by omega) (by omega), int_eq (by omega) (by omega)] at hjumps
      rcases List.mem_cons.mp ht with rfl | ht
      · omega
      · rw [List.mem_singleton.mp ht]
        omega
  scratch p hp huses := by
    have hmemory := hchecked.memory p hp
    have hunseen := hseen.scratch p hp
    rw [Insn.strays, decide_eq_false_iff_not] at hmemory
    have hrange : (bpfClass p.code = bpfSt ∨ bpfClass p.code = bpfLd ∧ p.code &&& 0xe0 = bpfMem) →
        p.InScratch := by
      intro h
      rw [and_iff_right h] at hmemory
      unfold Insn.InScratch
      omega
    rcases huses with hst | hstx | ⟨hld | hldx, hmode⟩
    · exact hrange (Or.inl hst)
    · exact not_not.mp (not_and.mp hunseen (Or.inl hstx))
    · exact hrange (Or.inr ⟨hld, hmode⟩)
    · exact not_not.mp (not_and.mp hunseen (Or.inr ⟨hldx, hmode⟩))
  divides p hp hdivides := hk p hp hdivides.2.2.2
  last := hchecked.last

/-- `bpf_validate` accepts exactly the valid programs, whatever an arbitrary result is, for those
programs where it does not stop at an instruction with `k` equal to 0 before one that it rejects,
and that either fail its checks or have nothing that it overlooks. -/
theorem bpfValidate_exact (before : Insn) (f : Program) (hnonempty : f.insns ≠ []) :
    (∀ eax, bpfValidate eax before f ≠ 0 ↔ Valid f.insns) ↔
      ¬ StopsEarly f.insns.length 0 f.insns ∧ (Checked f.insns → Seen f.insns) := by
  have hsize := f.size_lt
  have hlast := List.getLast?_eq_some_getLast hnonempty
  by_cases hstops : StopsEarly f.insns.length 0 f.insns
  · refine iff_of_false (fun hexact ↦ ?_) fun h ↦ h.1 hstops
    have hresult : ∀ eax, bpfValidate eax before f = eax := by
      intro eax
      rw [bpfValidate, validateFrom_stops hstops eax]
    have hvalid := (hexact 1).mp (by
      rw [hresult]
      decide)
    exact (hexact 0).mpr hvalid (hresult 0)
  · rw [and_iff_right hstops]
    by_cases hrejected : ∃ (j : ℕ) (p : Insn), f.insns[j]? = some p ∧ p.Rejected f.insns.length j
    · obtain ⟨j, p, hp, hrejects⟩ := hrejected
      refine iff_of_true (fun eax ↦ iff_of_false (fun h ↦ h ?_) fun hvalid ↦ ?_) fun hchecked ↦ ?_
      · rw [bpfValidate, validateFrom_rejects hstops hp (by rwa [Int.zero_add]) eax]
      · exact hvalid.not_rejected hsize hp hrejects
      · rcases hrejects with hjumps | hstrays
        · rw [hchecked.jumps j p hp] at hjumps
          cases hjumps
        · rw [hchecked.memory p (List.mem_of_getElem? hp)] at hstrays
          cases hstrays
    · have haccepted : ∀ (j : ℕ) (p : Insn), f.insns[j]? = some p →
          ¬ p.Rejected f.insns.length (0 + j) := by
        intro j p hp hrejects
        rw [Int.zero_add] at hrejects
        exact hrejected ⟨j, p, hp, hrejects⟩
      have hpasses := fun eax ↦ validateFrom_passes hstops haccepted eax
      have hresult : ∀ eax, bpfValidate eax before f ≠ 0 ↔
          bpfClass (f.insns.getLast hnonempty).code = bpfRet := by
        intro eax
        rw [bpfValidate, (hpasses eax).1]
        dsimp only
        rw [hlast, Option.getD_some]
        split_ifs with hret
        · exact iff_of_true (by decide) hret
        · exact iff_of_false (by decide) hret
      have hchecked : bpfClass (f.insns.getLast hnonempty).code = bpfRet → Checked f.insns := by
        intro hret
        refine ⟨fun j p hp ↦ ?_, fun p hp ↦ ?_, _, hlast, hret⟩
        · have hnot := haccepted j p hp
          rw [Int.zero_add] at hnot
          exact Bool.eq_false_iff.mpr (not_or.mp hnot).1
        · obtain ⟨j, hj⟩ := List.getElem?_of_mem hp
          exact Bool.eq_false_iff.mpr (not_or.mp (haccepted j p hj)).2
      constructor
      · intro hexact hpassed
        obtain ⟨p, hp, hret⟩ := hpassed.last
        rw [hlast] at hp
        cases hp
        exact ((hexact 0).mp ((hresult 0).mpr hret)).seen hsize
      · intro hseen eax
        rw [hresult]
        constructor
        · intro hret
          exact (hchecked hret).valid hsize (hseen (hchecked hret)) (hpasses eax).2
        · intro hvalid
          obtain ⟨p, hp, hret⟩ := hvalid.last
          rw [hlast] at hp
          cases hp
          exact hret

/-- A jump over one instruction, to a return. -/
def jumpOver : Program :=
  ⟨[⟨bpfJmp ||| bpfJa, 0, 0, 1⟩, ⟨bpfRet ||| bpfK, 0, 0, 1⟩, ⟨bpfRet ||| bpfK, 0, 0, 2⟩], by decide⟩

/-- It is valid, and it is accepted. -/
theorem jumpOver_exact :
    bpfValidate 7 ⟨0, 0, 0, 0⟩ jumpOver ≠ 0 ↔ Valid jumpOver.insns := by
  have hk : ∀ p ∈ jumpOver.insns, p.k ≠ 0 := by decide
  refine (bpfValidate_exact ⟨0, 0, 0, 0⟩ jumpOver (by decide)).mpr
    ⟨not_stopsEarly hk, fun _ ↦ ⟨fun j p hp ↦ ?_, fun p hp ↦ ?_⟩⟩ 7
  · have hlt : j < 3 := (List.getElem?_eq_some_iff.mp hp).1
    have hsmall : ∀ p ∈ jumpOver.insns, 0 ≤ p.k.toInt ∧ p.k.toInt ≤ 2 := by decide
    have hp' := hsmall p (List.mem_of_getElem? hp)
    rintro ⟨-, -, hout⟩
    omega
  · have hclass : ∀ p ∈ jumpOver.insns, bpfClass p.code ≠ bpfStx ∧ bpfClass p.code ≠ bpfLdx := by
      decide
    rintro ⟨hstx | ⟨hldx, -⟩, -⟩
    · exact (hclass p hp).1 hstx
    · exact (hclass p hp).2 hldx

/-- The program that rejects every packet. -/
def retZero : Program := ⟨[⟨bpfRet ||| bpfK, 0, 0, 0⟩], by decide⟩

theorem retZero_valid : Valid retZero.insns where
  jumps j p hp hclass := by
    have hnot : ∀ p ∈ retZero.insns, bpfClass p.code ≠ bpfJmp := by decide
    exact absurd hclass (hnot p (List.mem_of_getElem? hp))
  scratch p hp huses := by
    have hret : ∀ p ∈ retZero.insns, bpfClass p.code = bpfRet := by decide
    rw [Insn.UsesScratch, hret p hp] at huses
    rcases huses with hst | hstx | ⟨hld | hldx, -⟩
    · exact absurd hst (by decide)
    · exact absurd hstx (by decide)
    · exact absurd hld (by decide)
    · exact absurd hldx (by decide)
  divides p hp hdivides := by
    have hret : ∀ p ∈ retZero.insns, bpfClass p.code ≠ bpfAlu := by decide
    exact hret p hp hdivides.1
  last := ⟨_, rfl, by decide⟩

/-- Whether it is accepted is arbitrary. -/
theorem retZero_arbitrary :
    ¬ ∀ (before : Insn) (f : Program), f.insns ≠ [] →
      ∀ eax, bpfValidate eax before f ≠ 0 ↔ Valid f.insns := by
  intro hexact
  exact (hexact ⟨0, 0, 0, 0⟩ retZero (by decide) 0).mpr retZero_valid rfl

end Bsd386.Bpf
