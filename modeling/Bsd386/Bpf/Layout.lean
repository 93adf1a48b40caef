import Bsd386.Bpf.Safety

/-!
# One packet in two layouts

`bpf_filter` has its loads twice, for a packet in one buffer and for a chain of buffers. A word of a
buffer is in the order of the processor and one of a chain in network order; a byte of a buffer is a
`char` and one of a chain is a `u_char` for `BPF_ABS`; the end of the packet is no error for a half
word of a chain; and an integer that two buffers share is right only where it starts the first one.
What follows is when a load is the same in both layouts, and that a filter whose loads are gives the
same result.
-/

namespace Bsd386.Bpf

open Kern.Socket (Mbuf)

/-- The bytes of a chain. -/
def chainBytes (chain : List Buffer) : List UInt8 := chain.flatMap fun m ↦ m.mData

variable {f : List Insn} {p : List UInt8} {m m0 : Buffer} {chain next : List Buffer} {i j : ℤ}
  {k : BitVec 32} {b b0 b1 b2 b3 : UInt8} {size : Size} {absolute : Bool}

theorem chainBytes_cons (m : Buffer) (next : List Buffer) :
    chainBytes (m :: next) = m.mData ++ chainBytes next := rfl

/-! ## Bytes of a chain -/

theorem byteAt_of_getElem? {n : ℕ} (hb : p[n]? = some b) (hi : i = n) : byteAt p i = .ok b := by
  subst hi
  change byteAt p (.ofNat n) = _
  rw [byteAt, hb]

theorem getElem?_of_byteAt (hb : byteAt p i = .ok b) : p[i.toNat]? = some b ∧ 0 ≤ i := by
  cases i with
  | ofNat n =>
    rw [byteAt] at hb
    cases hn : p[n]? with
    | none =>
      rw [hn] at hb
      cases hb
    | some b' =>
      rw [hn] at hb
      cases hb
      exact ⟨hn, Int.natCast_nonneg n⟩
  | negSucc n => cases hb

/-- A byte in front of the end of the first part. -/
theorem byteAt_append_left {q : List UInt8} (hi : i < p.length) :
    byteAt (p ++ q) i = byteAt p i := by
  cases i with
  | ofNat n =>
    have hn : n < p.length := by
      rw [Int.ofNat_eq_natCast] at hi
      omega
    rw [byteAt, byteAt, List.getElem?_append_left hn]
  | negSucc n => rfl

/-- A byte behind the end of the first part. -/
theorem byteAt_append_right {q : List UInt8} (hi : p.length ≤ i) :
    byteAt (p ++ q) i = byteAt q (i - p.length) := by
  obtain ⟨n, rfl⟩ : ∃ n : ℕ, i = n := ⟨i.toNat, by omega⟩
  have hsub : (n : ℤ) - p.length = ((n - p.length : ℕ) : ℤ) := by omega
  rw [hsub]
  change byteAt (p ++ q) (.ofNat n) = byteAt q (.ofNat (n - p.length))
  rw [byteAt, byteAt, List.getElem?_append_right (by omega)]

/-- What `MINDEX` finds: the bytes of the chain from its offset on. -/
theorem byteAt_found (hindex : mIndex chain i = some (m, next, j)) (hi : 0 ≤ i) {n : ℤ}
    (hn : 0 ≤ n) :
    byteAt (chainBytes chain) (i + n) = byteAt (m.mData ++ chainBytes next) (j + n) := by
  induction chain generalizing i with
  | nil => cases hindex
  | cons m' chain ih =>
    have hlen : (m'.mData.length : ℤ) = m'.mLen := rfl
    rw [mIndex] at hindex
    rw [chainBytes_cons]
    split_ifs at hindex with hle
    · rw [byteAt_append_right (by omega), hlen, ← ih hindex (by omega)]
      congr 1
      omega
    · cases hindex
      rfl

/-- The number of bytes from the offset on. -/
theorem length_found (hindex : mIndex chain i = some (m, next, j)) (hi : 0 ≤ i) :
    (chainBytes chain).length - i = m.mLen + (chainBytes next).length - j := by
  induction chain generalizing i with
  | nil => cases hindex
  | cons m' chain ih =>
    have hlen : (m'.mData.length : ℤ) = m'.mLen := rfl
    rw [mIndex] at hindex
    rw [chainBytes_cons, List.length_append, Int.natCast_add, hlen]
    split_ifs at hindex with hle
    · have hrest := ih hindex (by omega)
      omega
    · cases hindex
      rfl

/-- `MINDEX` finds nothing only behind the end. -/
theorem length_of_none (hindex : mIndex chain i = none) (hi : 0 ≤ i) :
    (chainBytes chain).length ≤ i := by
  induction chain generalizing i with
  | nil => exact hi
  | cons m' chain ih =>
    have hlen : (m'.mData.length : ℤ) = m'.mLen := rfl
    rw [mIndex] at hindex
    rw [chainBytes_cons, List.length_append, Int.natCast_add, hlen]
    split_ifs at hindex with hle
    have hrest := ih hindex (by omega)
    omega

/-- It leaves a negative offset as it was. -/
theorem nonneg_of_found (hindex : mIndex chain i = some (m, next, j)) (hj : 0 ≤ j) : 0 ≤ i := by
  cases chain with
  | nil => cases hindex
  | cons m' chain =>
    have hnonneg := m'.mLen_nonneg
    rw [mIndex] at hindex
    split_ifs at hindex with hle
    · omega
    · cases hindex
      exact hj

/-- A byte of the buffer that `MINDEX` found. -/
theorem byteAt_here (hindex : mIndex chain i = some (m, next, j)) (hi : 0 ≤ i) {n : ℤ}
    (hn : 0 ≤ n) (hlt : j + n < m.mLen) :
    byteAt m.mData (j + n) = byteAt (chainBytes chain) (i + n) := by
  rw [byteAt_found hindex hi hn, byteAt_append_left hlt]

/-- A byte of the buffer behind it. -/
theorem byteAt_there (hindex : mIndex chain i = some (m, m0 :: next, j)) (hi : 0 ≤ i) {n l : ℤ}
    (hl : 0 ≤ l) (hn : j + n = m.mLen + l) (hlt : l < m0.mLen) :
    byteAt m0.mData l = byteAt (chainBytes chain) (i + n) := by
  have hj := (mIndex_spec hindex).1
  have hlen : (m.mData.length : ℤ) = m.mLen := rfl
  rw [byteAt_found hindex hi (by omega), byteAt_append_right (by omega), chainBytes_cons, hlen,
    byteAt_append_left (by change _ < m0.mLen; omega)]
  congr 1
  omega

/-! ## Loads from a chain -/

/-- The word at `i` lies in one buffer, or in two. -/
def InTwo (chain : List Buffer) (i : ℤ) : Prop :=
  ∃ m next j, mIndex chain i = some (m, next, j) ∧
    (4 ≤ int (m.mLen - j) ∨ ∃ m0 ∈ next.head?, 4 ≤ int (m0.mLen + m.mLen - j))

/-- A word that `m_xword` reads is the word of the bytes, in network order. -/
theorem mXword_eq (hi : 0 ≤ i) (htwo : InTwo chain i)
    (hwithin : ∀ m next j, mIndex chain i = some (m, next, j) → WordWithin m next j) :
    mXword chain i = (do return some (← extractLong (chainBytes chain) i)) := by
  obtain ⟨m, next, j, hindex, hroom⟩ := htwo
  have hj := (mIndex_spec hindex).2 hi
  have hj' := (mIndex_spec hindex).1
  have hlt := m.mLen_lt
  have hint : int (m.mLen - j) = m.mLen - j := int_eq (by omega) (by omega)
  have hhere := fun n hn hlt ↦ byteAt_here (n := n) hindex hi hn hlt
  have hzero := hhere 0 (Int.le_refl 0)
  rw [Int.add_zero, Int.add_zero] at hzero
  rw [mXword, hindex]
  dsimp only
  rw [hint]
  rw [hint] at hroom
  by_cases hone : 4 ≤ m.mLen - j
  · rw [if_pos hone, extractLong, extractLong, hzero (by omega), hhere 1 (by decide) (by omega),
      hhere 2 (by decide) (by omega), hhere 3 (by decide) (by omega)]
  · rw [if_neg hone]
    obtain ⟨m0, hm0, hrest⟩ := hroom.resolve_left hone
    cases next with
    | nil => cases hm0
    | cons m' next =>
      cases hm0
      have hstart := (hwithin m (m0 :: next) j hindex).2 (by omega) m0 rfl hrest
      subst hstart
      have hthere := fun n l hl hn hlt ↦ byteAt_there (n := n) (l := l) hindex hi hl hn hlt
      have hlt0 := m0.mLen_lt
      have hnonneg0 := m0.mLen_nonneg
      rw [Int.sub_zero] at hrest
      have hlong : 4 ≤ m0.mLen + m.mLen := by
        by_cases hfits : m0.mLen + m.mLen < 2 ^ 31
        · rw [int_eq (by omega) hfits] at hrest
          exact hrest
        · omega
      rw [Int.sub_zero] at hone
      dsimp only
      rw [Int.sub_zero, Int.sub_zero, if_neg (by omega), extractLong, ← hzero hj']
      split_ifs with h1 h2
      · rw [hthere 1 0 (by decide) (by omega) (by omega),
          hthere 2 1 (by decide) (by omega) (by omega),
          hthere 3 2 (by decide) (by omega) (by omega)]
        simp only [bind_assoc, pure_bind, Int.add_zero]
      · have hnext := hhere 1 (by decide) (by omega)
        rw [hthere 2 0 (by decide) (by omega) (by omega),
          hthere 3 1 (by decide) (by omega) (by omega), ← hnext]
        simp only [bind_assoc, pure_bind, Int.add_zero, Int.zero_add]
      · have hnext := hhere 1 (by decide) (by omega)
        have hthird := hhere 2 (by decide) (by omega)
        rw [hthere 3 0 (by decide) (by omega) (by omega), ← hnext, ← hthird]
        simp only [bind_assoc, pure_bind, Int.add_zero, Int.zero_add]

/-- Elsewhere there is no word, if nothing is read outside of the buffers. -/
theorem mXword_none (htwo : ¬ (0 ≤ i ∧ InTwo chain i))
    (hwithin : ∀ m next j, mIndex chain i = some (m, next, j) → WordWithin m next j) :
    mXword chain i = .ok none := by
  rw [mXword]
  cases hindex : mIndex chain i with
  | none => rfl
  | some found =>
    obtain ⟨m, next, j⟩ := found
    have hword := hwithin m next j hindex
    have hroom : ¬ 4 ≤ int (m.mLen - j) := by
      intro hone
      exact htwo ⟨nonneg_of_found hindex (hword.1 hone), m, next, j, hindex, Or.inl hone⟩
    dsimp only
    rw [if_neg hroom]
    cases next with
    | nil => rfl
    | cons m0 next =>
      have hshort : int (m0.mLen + m.mLen - j) < 4 := by
        by_contra hshort
        have hlong : 4 ≤ int (m0.mLen + m.mLen - j) := by omega
        have hstart := hword.2 (by omega) m0 rfl hlong
        exact htwo ⟨nonneg_of_found hindex (Int.le_of_eq hstart.symm), m, m0 :: next, j, hindex,
          Or.inr ⟨m0, rfl, hlong⟩⟩
      dsimp only
      rw [if_pos hshort]

/-- A half word that `m_xhalf` reads is the half word of the bytes. -/
theorem mXhalf_eq (hi : 0 ≤ i) (hin : i + 2 ≤ (chainBytes chain).length)
    (hwithin : ∀ m next j, mIndex chain i = some (m, next, j) → HalfWithin m next j) :
    mXhalf chain i = (do return some (← extractShort (chainBytes chain) i)) := by
  cases hindex : mIndex chain i with
  | none =>
    have hout := length_of_none hindex hi
    omega
  | some found =>
    obtain ⟨m, next, j⟩ := found
    have hj := (mIndex_spec hindex).2 hi
    have hj' := (mIndex_spec hindex).1
    have hlt := m.mLen_lt
    have hint : int (m.mLen - j) = m.mLen - j := int_eq (by omega) (by omega)
    have hhalf := hwithin m next j hindex
    have hhere := fun n hn hlt ↦ byteAt_here (n := n) hindex hi hn hlt
    have hzero := hhere 0 (Int.le_refl 0)
    rw [Int.add_zero, Int.add_zero] at hzero
    rw [mXhalf, hindex]
    dsimp only
    rw [hint]
    by_cases htwo : 2 ≤ m.mLen - j
    · rw [if_pos htwo, extractShort, extractShort, hzero (by omega), hhere 1 (by decide) (by omega)]
    · rw [if_neg htwo]
      cases next with
      | nil =>
        have hlength := length_found hindex hi
        change _ = m.mLen + (0 : ℕ) - j at hlength
        omega
      | cons m0 next =>
        obtain ⟨hstart, hpos⟩ := hhalf.2 (by omega) m0 rfl
        subst hstart
        dsimp only
        rw [extractShort, ← hzero hj',
          byteAt_there (n := 1) hindex hi (Int.le_refl 0) (by omega) hpos]
        simp only [bind_assoc, pure_bind, Int.add_zero]

/-- Behind the end there is no half word, if nothing is read outside of the buffers. -/
theorem mXhalf_none (hout : ¬ (0 ≤ i ∧ i + 2 ≤ (chainBytes chain).length))
    (hwithin : ∀ m next j, mIndex chain i = some (m, next, j) → HalfWithin m next j) :
    mXhalf chain i = .ok none := by
  rw [mXhalf]
  cases hindex : mIndex chain i with
  | none => rfl
  | some found =>
    obtain ⟨m, next, j⟩ := found
    have hhalf := hwithin m next j hindex
    have hj := (mIndex_spec hindex).1
    have hlt := m.mLen_lt
    have hlength := length_found hindex
    have hroom : ¬ 2 ≤ int (m.mLen - j) := by
      intro htwo
      have hj' := hhalf.1 htwo
      have hi := nonneg_of_found hindex hj'
      rw [int_eq (by omega) (by omega)] at htwo
      have hrest := hlength hi
      omega
    dsimp only
    rw [if_neg hroom]
    cases next with
    | nil => rfl
    | cons m0 next =>
      obtain ⟨hstart, hpos⟩ := hhalf.2 (by omega) m0 rfl
      have hlen0 : (m0.mData.length : ℤ) = m0.mLen := rfl
      have hi := nonneg_of_found hindex (Int.le_of_eq hstart.symm)
      have hrest := hlength hi
      rw [chainBytes_cons, List.length_append, Int.natCast_add, hlen0] at hrest
      omega

/-! ## Words in both orders -/

/-- A word that is the same from both ends. -/
def Palindrome (p : List UInt8) (i : ℤ) : Prop :=
  p[i.toNat]? = p[i.toNat + 3]? ∧ p[i.toNat + 1]? = p[i.toNat + 2]?

theorem toNat_shift_or (v : BitVec 32) (b : UInt8) :
    (v <<< 8 ||| b.toBitVec.setWidth 32).toNat = (v.toNat * 256 + b.toNat) % 4294967296 := by
  have hdisjoint : v <<< 8 &&& b.toBitVec.setWidth 32 = 0 := by
    apply BitVec.eq_of_getLsbD_eq
    intro n hn
    by_cases hlow : n < 8
    · simp [hlow]
    · simp [hlow, BitVec.getLsbD_of_ge b.toBitVec n (by omega)]
  rw [← BitVec.add_eq_or_of_and_eq_zero _ _ hdisjoint]
  simp [BitVec.toNat_add, BitVec.toNat_shiftLeft, Nat.shiftLeft_eq]

theorem toNat_bigEndian (b0 b1 b2 b3 : UInt8) :
    (bigEndian [b0, b1, b2, b3]).toNat =
      b0.toNat * 16777216 + b1.toNat * 65536 + b2.toNat * 256 + b3.toNat := by
  have h0 := b0.toNat_lt
  have h1 := b1.toNat_lt
  have h2 := b2.toNat_lt
  have h3 := b3.toNat_lt
  have hzero : (0 : BitVec 32).toNat = 0 := rfl
  simp only [bigEndian, List.foldl_cons, List.foldl_nil, toNat_shift_or, hzero]
  omega

/-- A word is the same in both orders when its bytes are the same from both ends. -/
theorem bigEndian_reverse :
    bigEndian [b3, b2, b1, b0] = bigEndian [b0, b1, b2, b3] ↔ b0 = b3 ∧ b1 = b2 := by
  constructor
  · intro hsame
    have hnat := congrArg BitVec.toNat hsame
    rw [toNat_bigEndian, toNat_bigEndian] at hnat
    have h0 := b0.toNat_lt
    have h1 := b1.toNat_lt
    have h2 := b2.toNat_lt
    have h3 := b3.toNat_lt
    exact ⟨UInt8.toNat_inj.mp (by omega), UInt8.toNat_inj.mp (by omega)⟩
  · rintro ⟨rfl, rfl⟩
    rfl

/-- The word of a buffer and the word of the chain. -/
theorem hostLong_extractLong (hi : 0 ≤ i) (hin : i + 4 ≤ p.length) :
    ∃ v w, hostLong p i = .ok v ∧ extractLong p i = .ok w ∧ (v = w ↔ Palindrome p i) := by
  have hbyte : ∀ (n : ℕ) (j : ℤ), n < 4 → j = i + n →
      ∃ b, byteAt p j = .ok b ∧ p[i.toNat + n]? = some b := by
    intro n j hn hj
    have hlt : i.toNat + n < p.length := by omega
    have hb := List.getElem?_eq_getElem hlt
    exact ⟨p[i.toNat + n], byteAt_of_getElem? hb (by omega), hb⟩
  obtain ⟨b0, hb0, h0⟩ := hbyte 0 i (by decide) (Int.add_zero i).symm
  obtain ⟨b1, hb1, h1⟩ := hbyte 1 (i + 1) (by decide) rfl
  obtain ⟨b2, hb2, h2⟩ := hbyte 2 (i + 2) (by decide) rfl
  obtain ⟨b3, hb3, h3⟩ := hbyte 3 (i + 3) (by decide) rfl
  rw [Nat.add_zero] at h0
  refine ⟨bigEndian [b3, b2, b1, b0], bigEndian [b0, b1, b2, b3], ?_, ?_, ?_⟩
  · rw [hostLong, hb0, hb1, hb2, hb3]
    rfl
  · rw [extractLong, hb0, hb1, hb2, hb3]
    rfl
  · rw [bigEndian_reverse, Palindrome, h0, h1, h2, h3, Option.some.injEq, Option.some.injEq]

/-! ## One load -/

/-- The bytes of the load are in the packet. -/
def Within (size : Size) (k : BitVec 32) (p : List UInt8) : Prop :=
  0 ≤ k.toInt ∧ k.toInt + size.bytes.toNat ≤ p.length

/-- The load is the same from the bytes `p` in one buffer and from a chain: it stays in the packet
in both layouts; a word is the same from both ends and lies in at most two buffers; a half word for
`BPF_ABS` is not behind the end; and a byte for `BPF_ABS` has its high bit clear. -/
def SameLoad (size : Size) (absolute : Bool) (k : BitVec 32) (p : List UInt8)
    (hlen : p.length < 2 ^ 32) (m : Buffer) (next : List Buffer) : Prop :=
  (Packet.buffer p hlen).Readable size k ∧ (Packet.chain m next).Readable size k ∧
    match size with
    | .w => Within .w k p → Palindrome p k.toInt ∧ InTwo (m :: next) k.toInt
    | .h => absolute → Within .h k p
    | .b => absolute → ∀ b ∈ p[k.toInt.toNat]?, b < 128

/-- The outcome of a step that ends with a value for `A` or with the result 0. -/
def State.loaded (s : State) : Option (BitVec 32) → Outcome
  | some v => .next ⟨s.pc + 1, { s.regs with a := v }⟩
  | none => .ret 0

theorem loaded_inj {s : State} {v w : Option (BitVec 32)} : s.loaded v = s.loaded w ↔ v = w := by
  refine ⟨fun h ↦ ?_, congrArg s.loaded⟩
  cases v with
  | none =>
    cases w with
    | none => rfl
    | some w => cases h
  | some v =>
    cases w with
    | none => cases h
    | some w =>
      simp only [State.loaded, Outcome.next.injEq, State.mk.injEq, Regs.mk.injEq] at h
      exact congrArg some h.2.1

/-- The value that a load leaves in `A`, if it does not end the filter. -/
def Loaded.result (size : Size) (absolute : Bool) : Loaded → Option (BitVec 32)
  | .value v => some v
  | .reject => none
  | .merr => if size = .h ∧ absolute then some 0 else none

theorem load_eq (s : State) (pkt : Packet) (size : Size) (absolute : Bool) (k : BitVec 32) :
    s.load pkt size absolute k =
      (do return s.loaded ((← pkt.load size absolute k).result size absolute)) := by
  rw [State.load]
  congr 1
  funext loaded
  cases loaded with
  | value v => rfl
  | reject => rfl
  | merr =>
    dsimp only [Loaded.result]
    split_ifs <;> rfl

/-- Two loads end, with the same value in `A` or none. -/
def SameResult (size : Size) (absolute : Bool) (x y : Except Fault Loaded) : Prop :=
  ∃ v w, x = .ok v ∧ y = .ok w ∧ v.result size absolute = w.result size absolute

variable {hlen : p.length < 2 ^ 32}

/-- A load from the buffer whose bytes are not in the packet ends the filter. -/
theorem buffer_rejects {read : Except Fault Loaded} {last : ℕ}
    (hreadable : p ≠ [] ∧ (last ≤ p.length → 0 ≤ k.toInt))
    (hlast : 0 ≤ k.toInt → last = k.toNat + size.bytes.toNat) (hout : ¬ Within size k p) :
    (if p.length < last then if p.length ≠ 0 then .ok .reject else .error .packet else read) =
      .ok .reject := by
  have hnonempty : p.length ≠ 0 := fun h ↦ hreadable.1 (List.length_eq_zero_iff.mp h)
  have hlt : p.length < last := by
    by_contra hle
    have hnonneg := hreadable.2 (by omega)
    have hint := toInt_of_nonneg hnonneg
    have heq := hlast hnonneg
    exact hout ⟨hnonneg, by omega⟩
  rw [if_pos hlt, if_pos hnonempty]

/-- A load from the buffer whose bytes are in the packet. -/
theorem buffer_reads {read : Except Fault Loaded} {last : ℕ}
    (hlast : 0 ≤ k.toInt → last = k.toNat + size.bytes.toNat) (hin : Within size k p) :
    (if p.length < last then if p.length ≠ 0 then .ok .reject else .error .packet else read) =
      read := by
  have hint := toInt_of_nonneg hin.1
  have heq := hlast hin.1
  have hle := hin.2
  exact if_neg (by omega)

theorem last_word (hnonneg : 0 ≤ k.toInt) : (k + 4).toNat = k.toNat + Size.w.bytes.toNat := by
  have hint := toInt_of_nonneg hnonneg
  have hlt := k.toInt_lt
  have hadd := k.toNat_add 4
  simp only [Size.bytes] at hadd ⊢
  simp at hadd ⊢
  omega

theorem last_half (hnonneg : 0 ≤ k.toInt) : (k + 2).toNat = k.toNat + Size.h.bytes.toNat := by
  have hint := toInt_of_nonneg hnonneg
  have hlt := k.toInt_lt
  have hadd := k.toNat_add 2
  simp only [Size.bytes] at hadd ⊢
  simp at hadd ⊢
  omega

/-- The load of a word or a half word of a chain goes to its buffers. -/
theorem chain_reads {sum : BitVec 32} {read : Except Fault Loaded} (hsum : sum ≠ 0) :
    (if 0 < sum.toNat then read else .error .packet) = read :=
  if_pos (Nat.pos_of_ne_zero fun h ↦ hsum (BitVec.eq_of_toNat_eq h))

theorem loadWord_within (hin : Within .w k p) :
    (Packet.buffer p hlen).loadWord k = (do return .value (← hostLong p k.toInt)) :=
  buffer_reads last_word hin

theorem loadHalf_within (hin : Within .h k p) :
    (Packet.buffer p hlen).loadHalf k = (do return .value (← extractShort p k.toInt)) :=
  buffer_reads last_half hin

theorem loadWord_out (hreadable : (Packet.buffer p hlen).Readable .w k) (hout : ¬ Within .w k p) :
    (Packet.buffer p hlen).loadWord k = .ok .reject :=
  buffer_rejects hreadable last_word hout

theorem loadHalf_out (hreadable : (Packet.buffer p hlen).Readable .h k) (hout : ¬ Within .h k p) :
    (Packet.buffer p hlen).loadHalf k = .ok .reject :=
  buffer_rejects hreadable last_half hout

theorem loadWord_chain (hreadable : (Packet.chain m next).Readable .w k) :
    (Packet.chain m next).loadWord k = (do return .ofMbuf (← mXword (m :: next) k.toInt)) :=
  chain_reads (hreadable.1.resolve_left (by decide))

theorem loadHalf_chain (hreadable : (Packet.chain m next).Readable .h k) :
    (Packet.chain m next).loadHalf k = (do return .ofMbuf (← mXhalf (m :: next) k.toInt)) :=
  chain_reads (hreadable.1.resolve_left (by decide))

theorem sameResult_word (hbytes : p = chainBytes (m :: next)) :
    SameResult .w absolute ((Packet.buffer p hlen).loadWord k)
      ((Packet.chain m next).loadWord k) ↔ SameLoad .w absolute k p hlen m next := by
  constructor
  · rintro ⟨v, w, hv, hw, hsame⟩
    have hbuffer := succeeds_loadWord.mp ⟨v, hv⟩
    have hchain := succeeds_loadWord.mp ⟨w, hw⟩
    refine ⟨hbuffer, hchain, fun hin ↦ ?_⟩
    obtain ⟨v', w', hv', hw', hsame'⟩ := hostLong_extractLong hin.1 hin.2
    rw [loadWord_within hin, hv'] at hv
    cases hv
    rw [loadWord_chain hchain] at hw
    have htwo : InTwo (m :: next) k.toInt := by
      by_contra hnot
      rw [mXword_none (fun h ↦ hnot h.2) hchain.2] at hw
      cases hw
      cases hsame
    rw [mXword_eq hin.1 htwo hchain.2, ← hbytes, hw'] at hw
    cases hw
    cases hsame
    exact ⟨hsame'.mp rfl, htwo⟩
  · rintro ⟨hbuffer, hchain, hvalue⟩
    rw [loadWord_chain hchain]
    by_cases hin : Within .w k p
    · obtain ⟨hpalindrome, htwo⟩ := hvalue hin
      obtain ⟨v, w, hv, hw, hsame⟩ := hostLong_extractLong hin.1 hin.2
      rw [loadWord_within hin, hv, mXword_eq hin.1 htwo hchain.2, ← hbytes, hw,
        hsame.mpr hpalindrome]
      exact ⟨_, _, rfl, rfl, rfl⟩
    · have hnot : ¬ (0 ≤ k.toInt ∧ InTwo (m :: next) k.toInt) := by
        rintro ⟨hnonneg, htwo⟩
        have hlong : Succeeds (mXword (m :: next) k.toInt) := succeeds_mXword.mpr hchain.2
        rw [mXword_eq hnonneg htwo hchain.2, succeeds_bind_pure, succeeds_extractLong,
          ← hbytes] at hlong
        have hfour : (Size.w.bytes.toNat : ℤ) = 4 := rfl
        exact hin ⟨hnonneg, by omega⟩
      rw [loadWord_out hbuffer hin, mXword_none hnot hchain.2]
      exact ⟨_, _, rfl, rfl, rfl⟩

theorem sameResult_half (hbytes : p = chainBytes (m :: next)) :
    SameResult .h absolute ((Packet.buffer p hlen).loadHalf k)
      ((Packet.chain m next).loadHalf k) ↔ SameLoad .h absolute k p hlen m next := by
  have hend : Within .h k p ↔ 0 ≤ k.toInt ∧ k.toInt + 2 ≤ (chainBytes (m :: next)).length := by
    rw [← hbytes]
    exact Iff.rfl
  constructor
  · rintro ⟨v, w, hv, hw, hsame⟩
    have hbuffer := succeeds_loadHalf.mp ⟨v, hv⟩
    have hchain := succeeds_loadHalf.mp ⟨w, hw⟩
    refine ⟨hbuffer, hchain, fun habsolute ↦ ?_⟩
    by_contra hin
    rw [loadHalf_out hbuffer hin] at hv
    rw [loadHalf_chain hchain, mXhalf_none (mt hend.mpr hin) hchain.2] at hw
    cases hv
    cases hw
    subst habsolute
    cases hsame
  · rintro ⟨hbuffer, hchain, habsolute⟩
    rw [loadHalf_chain hchain]
    by_cases hin : Within .h k p
    · obtain ⟨v, hv⟩ : Succeeds (extractShort p k.toInt) := by
        have hlast := hin.2
        have htwo : (Size.h.bytes.toNat : ℤ) = 2 := rfl
        exact succeeds_extractShort.mpr ⟨hin.1, by omega⟩
      rw [loadHalf_within hin, mXhalf_eq hin.1 (hend.mp hin).2 hchain.2, ← hbytes, hv]
      exact ⟨_, _, rfl, rfl, rfl⟩
    · rw [loadHalf_out hbuffer hin, mXhalf_none (mt hend.mpr hin) hchain.2]
      refine ⟨_, _, rfl, rfl, ?_⟩
      exact (if_neg fun h ↦ hin (habsolute h.2)).symm

/-- The byte of a buffer. -/
theorem loadByte_buffer {extend : UInt8 → BitVec 32}
    (hreadable : (Packet.buffer p hlen).Readable .b k) (hnonneg : 0 ≤ k.toInt) :
    (Packet.buffer p hlen).loadByte extend k =
      .ok ((p[k.toInt.toNat]?.map fun b ↦ Loaded.value (b.toBitVec.signExtend 32)).getD
        .reject) := by
  have hint := toInt_of_nonneg hnonneg
  have hnonempty : p.length ≠ 0 := fun h ↦ hreadable.1 (List.length_eq_zero_iff.mp h)
  unfold Packet.loadByte
  change (if p.length ≤ k.toNat then _ else _) = _
  by_cases hlt : k.toInt.toNat < p.length
  · have hb := List.getElem?_eq_getElem hlt
    rw [if_neg (by omega), hb]
    dsimp only
    rw [byteAt_of_getElem? hb (by omega)]
    rfl
  · rw [if_pos (by omega), List.getElem?_eq_none_iff.mpr (by omega)]
    exact if_pos hnonempty

/-- The byte of a chain. -/
theorem loadByte_chain {extend : UInt8 → BitVec 32} (hbytes : p = chainBytes (m :: next))
    (hnonneg : 0 ≤ k.toInt) :
    (Packet.chain m next).loadByte extend k =
      .ok ((p[k.toInt.toNat]?.map fun b ↦ Loaded.value (extend b)).getD .reject) := by
  unfold Packet.loadByte
  have hbuflen : (Packet.chain m next).buflen = 0 := rfl
  rw [if_pos (hbuflen ▸ Nat.zero_le _), if_neg (not_not_intro hbuflen)]
  dsimp only
  cases hindex : mIndex (m :: next) k.toInt with
  | none =>
    have hout := length_of_none hindex hnonneg
    rw [hbytes, List.getElem?_eq_none_iff.mpr (by omega)]
    rfl
  | some found =>
    obtain ⟨m', next', j⟩ := found
    have hj := (mIndex_spec hindex).1
    have hhere := byteAt_here hindex hnonneg (Int.le_refl 0)
    rw [Int.add_zero, Int.add_zero, ← hbytes] at hhere
    have hj' := (mIndex_spec hindex).2 hnonneg
    obtain ⟨b, hb⟩ : Succeeds (byteAt m'.mData j) := succeeds_byteAt.mpr ⟨hj', hj⟩
    have hb' := getElem?_of_byteAt ((hhere hj).symm.trans hb)
    dsimp only
    rw [hb, hb'.1]
    rfl

/-- A byte at a negative offset is in front of the first buffer. -/
theorem nonneg_of_readable (hreadable : (Packet.chain m next).Readable .b k) : 0 ≤ k.toInt := by
  by_contra hneg
  have hnonneg := m.mLen_nonneg
  exact hneg (hreadable.2 m next k.toInt (by rw [mIndex, if_neg (by omega)]))

theorem sameResult_byte {extend : UInt8 → BitVec 32} (hbytes : p = chainBytes (m :: next)) :
    SameResult .b absolute ((Packet.buffer p hlen).loadByte extend k)
        ((Packet.chain m next).loadByte extend k) ↔
      (Packet.buffer p hlen).Readable .b k ∧ (Packet.chain m next).Readable .b k ∧
        ∀ b ∈ p[k.toInt.toNat]?, b.toBitVec.signExtend 32 = extend b := by
  constructor
  · rintro ⟨v, w, hv, hw, hsame⟩
    have hbuffer := succeeds_loadByte.mp ⟨v, hv⟩
    have hchain := succeeds_loadByte.mp ⟨w, hw⟩
    have hnonneg := nonneg_of_readable hchain
    refine ⟨hbuffer, hchain, fun b hb ↦ ?_⟩
    rw [Option.mem_def] at hb
    rw [loadByte_buffer hbuffer hnonneg, hb] at hv
    rw [loadByte_chain hbytes hnonneg, hb] at hw
    cases hv
    cases hw
    exact Option.some.inj hsame
  · rintro ⟨hbuffer, hchain, hvalue⟩
    have hnonneg := nonneg_of_readable hchain
    rw [loadByte_buffer hbuffer hnonneg, loadByte_chain hbytes hnonneg]
    refine ⟨_, _, rfl, rfl, ?_⟩
    cases hb : p[k.toInt.toNat]? with
    | none => rfl
    | some b =>
      rw [Option.map_some, Option.map_some, hvalue b hb]

/-- A `char` and a `u_char` with the same bits have the same value when the high bit is clear. -/
theorem signExtend_eq_setWidth (b : UInt8) :
    b.toBitVec.signExtend 32 = b.toBitVec.setWidth 32 ↔ b < 128 := by
  have hlt := b.toBitVec.isLt
  have hsmall : b < 128 ↔ b.toBitVec.toNat < 128 := UInt8.lt_iff_toNat_lt
  have hwide : (b.toBitVec.setWidth 32).toInt = b.toBitVec.toNat := by
    rw [BitVec.toInt_eq_toNat_cond, BitVec.toNat_setWidth]
    split <;> omega
  rw [hsmall, ← BitVec.toInt_inj, BitVec.toInt_signExtend_of_le (by decide), hwide,
    BitVec.toInt_eq_toNat_cond]
  split <;> omega

/-- When a load is the same in both layouts. -/
theorem sameResult_load (hbytes : p = chainBytes (m :: next)) :
    SameResult size absolute ((Packet.buffer p hlen).load size absolute k)
      ((Packet.chain m next).load size absolute k) ↔ SameLoad size absolute k p hlen m next := by
  cases size with
  | w => exact sameResult_word hbytes
  | h => exact sameResult_half hbytes
  | b =>
    refine (sameResult_byte hbytes).trans (and_congr_right fun _ ↦ and_congr_right fun _ ↦ ?_)
    cases absolute with
    | true => simp only [if_true, signExtend_eq_setWidth, true_implies]
    | false => simp

/-- A step that loads into `A` has the same outcome in both layouts exactly when the load is the
same. -/
theorem sameOutcome_load {s : State} (hbytes : p = chainBytes (m :: next)) :
    (∃ o, s.load (.buffer p hlen) size absolute k = .ok o ∧
        s.load (.chain m next) size absolute k = .ok o) ↔
      SameLoad size absolute k p hlen m next := by
  rw [← sameResult_load hbytes, load_eq, load_eq]
  constructor
  · rintro ⟨o, hbuffer, hchain⟩
    obtain ⟨v, hv, hvo⟩ := bind_ok hbuffer
    obtain ⟨w, hw, hwo⟩ := bind_ok hchain
    exact ⟨v, w, hv, hw, loaded_inj.mp (Except.ok.inj (hvo.trans hwo.symm))⟩
  · rintro ⟨v, w, hv, hw, hsame⟩
    rw [hv, hw]
    exact ⟨_, rfl, congrArg (fun v ↦ Except.ok (s.loaded v)) hsame.symm⟩

/-! ## Runs -/

/-- The loads of a case are the same in both layouts. -/
def Label.SameIn (p : List UInt8) (hlen : p.length < 2 ^ 32) (m : Buffer) (next : List Buffer)
    (s : State) (insn : Insn) : Label → Prop
  | .ldAbs size => SameLoad size true insn.k p hlen m next
  | .ldInd size => SameLoad size false (s.regs.x + insn.k) p hlen m next
  | .ldxMsh =>
    (Packet.buffer p hlen).Readable .b insn.k ∧ (Packet.chain m next).Readable .b insn.k
  | _ => True

/-- Every load that a run executes is the same in both layouts. -/
def AllSame (f : List Insn) (p : List UInt8) (hlen : p.length < 2 ^ 32) (m : Buffer)
    (next : List Buffer) (wirelen : BitVec 32) (regs : Regs) : Prop :=
  ∀ s insn l, Reached f (.buffer p hlen) wirelen regs s → fetch f s.pc = .ok insn →
    insn.label = some l → l.SameIn p hlen m next s insn

variable {s : State} {insn : Insn} {l : Label} {wirelen : BitVec 32} {regs : Regs}

/-- A case whose loads are the same does the same in both layouts. -/
theorem exec_same (hbytes : p = chainBytes (m :: next)) (hsame : l.SameIn p hlen m next s insn) :
    l.exec (.buffer p hlen) wirelen s insn = l.exec (.chain m next) wirelen s insn := by
  cases l with
  | ldAbs size =>
    obtain ⟨o, hbuffer, hchain⟩ := (sameOutcome_load (s := s) hbytes).mpr hsame
    exact hbuffer.trans hchain.symm
  | ldInd size =>
    obtain ⟨o, hbuffer, hchain⟩ := (sameOutcome_load (s := s) hbytes).mpr hsame
    exact hbuffer.trans hchain.symm
  | ldxMsh =>
    have hnonneg := nonneg_of_readable hsame.2
    change (Packet.loadByte _ _ _ >>= _) = (Packet.loadByte _ _ _ >>= _)
    rw [loadByte_buffer hsame.1 hnonneg, loadByte_chain hbytes hnonneg]
  | _ => rfl

theorem step_same (hbytes : p = chainBytes (m :: next))
    (hall : AllSame f p hlen m next wirelen regs)
    (hreached : Reached f (.buffer p hlen) wirelen regs s) :
    step f (.buffer p hlen) wirelen s = step f (.chain m next) wirelen s := by
  unfold step
  cases hfetch : fetch f s.pc with
  | error e => rfl
  | ok insn =>
    cases hlabel : insn.label with
    | none => simp only [bind, Except.bind, hlabel]
    | some l =>
      simp only [bind, Except.bind, hlabel]
      exact exec_same hbytes (hall s insn l hreached hfetch hlabel)

theorem run_same (hbytes : p = chainBytes (m :: next))
    (hall : AllSame f p hlen m next wirelen regs)
    (hreached : Reached f (.buffer p hlen) wirelen regs s) (fuel : ℕ) :
    run f (.buffer p hlen) wirelen fuel s = run f (.chain m next) wirelen fuel s := by
  induction fuel generalizing s with
  | zero => rfl
  | succ fuel ih =>
    rw [run_succ, run_succ, ← step_same hbytes hall hreached]
    cases hstep : step f (.buffer p hlen) wirelen s with
    | error e => rfl
    | ok o =>
      cases o with
      | ret result => rfl
      | next s' => exact ih (hreached.step hstep)

/-- The case of a load into `A`. -/
def loadLabel (size : Size) (absolute : Bool) : Label :=
  if absolute then .ldAbs size else .ldInd size

/-- The offset of a load into `A`. -/
def loadOffset (insn : Insn) (absolute : Bool) (x : BitVec 32) : BitVec 32 :=
  if absolute then insn.k else x + insn.k

/-- The returns of the constant 1 and of `A`. -/
def returns : List Insn := [⟨bpfRet ||| bpfK, 0, 0, 1⟩, ⟨bpfRet ||| bpfA, 0, 0, 1⟩]

/-- Two packets give a filter the same result. -/
def SameFilter (f : List Insn) (pkt pkt' : Packet) (wirelen : BitVec 32) (regs : Regs) : Prop :=
  ∃ result, run f pkt wirelen f.length ⟨0, regs⟩ = some (.ok result) ∧
    run f pkt' wirelen f.length ⟨0, regs⟩ = some (.ok result)

theorem step_load {pkt : Packet} {last : Insn}
    (hlabel : insn.label = some (loadLabel size absolute)) :
    step [insn, last] pkt wirelen ⟨0, regs⟩ =
      (do
        let loaded ← pkt.load size absolute (loadOffset insn absolute regs.x)
        return State.loaded ⟨0, regs⟩ (loaded.result size absolute)) := by
  rw [← load_eq]
  have hfetch : fetch [insn, last] 0 = .ok insn := rfl
  unfold step
  simp only [hfetch, bind, Except.bind, hlabel]
  cases absolute with
  | true => rfl
  | false => rfl

/-- What a program returns that loads, and then returns. -/
theorem run_load {pkt : Packet} (hlabel : insn.label = some (loadLabel size absolute))
    {last : Insn} {lastLabel : Label} (hlast : last.label = some lastLabel)
    {value : BitVec 32 → BitVec 32}
    (hvalue : ∀ v, lastLabel.exec pkt wirelen ⟨0 + 1, { regs with a := v }⟩ last =
      .ok (.ret (value v)))
    {loaded : Loaded}
    (hload : pkt.load size absolute (loadOffset insn absolute regs.x) = .ok loaded) :
    run [insn, last] pkt wirelen 2 ⟨0, regs⟩ =
      some (.ok (((loaded.result size absolute).map value).getD 0)) := by
  rw [run_succ, step_load hlabel, hload]
  simp only [bind, Except.bind, pure, Except.pure]
  cases loaded.result size absolute with
  | none => rfl
  | some v =>
    have hfetch : fetch [insn, last] (0 + 1) = .ok last := rfl
    have hstep : step [insn, last] pkt wirelen ⟨0 + 1, { regs with a := v }⟩ =
        .ok (.ret (value v)) := by
      unfold step
      simp only [hfetch, bind, Except.bind, hlast]
      exact hvalue v
    change run [insn, last] pkt wirelen 1 ⟨0 + 1, { regs with a := v }⟩ = _
    rw [run_succ, hstep]
    rfl

theorem load_of_run {pkt : Packet} {last : Insn} {result : BitVec 32}
    (hlabel : insn.label = some (loadLabel size absolute))
    (hrun : run [insn, last] pkt wirelen 2 ⟨0, regs⟩ = some (.ok result)) :
    Succeeds (pkt.load size absolute (loadOffset insn absolute regs.x)) := by
  rw [run_succ, step_load hlabel] at hrun
  cases hload : pkt.load size absolute (loadOffset insn absolute regs.x) with
  | error e =>
    rw [hload] at hrun
    cases hrun
  | ok loaded => exact succeeds_ok loaded

/-- A load is the same in both layouts when the programs that load and return are. -/
theorem sameFilter_load (hbytes : p = chainBytes (m :: next))
    (hlabel : insn.label = some (loadLabel size absolute)) :
    (∀ last ∈ returns, SameFilter [insn, last] (.buffer p hlen) (.chain m next) wirelen regs) ↔
      SameLoad size absolute (loadOffset insn absolute regs.x) p hlen m next := by
  rw [← sameResult_load hbytes]
  have hk : ∀ {pkt loaded}, pkt.load size absolute (loadOffset insn absolute regs.x) = .ok loaded →
      run [insn, ⟨bpfRet ||| bpfK, 0, 0, 1⟩] pkt wirelen 2 ⟨0, regs⟩ =
        some (.ok (((loaded.result size absolute).map fun _ ↦ 1).getD 0)) :=
    fun hload ↦ run_load hlabel rfl (fun _ ↦ rfl) hload
  have ha : ∀ {pkt loaded}, pkt.load size absolute (loadOffset insn absolute regs.x) = .ok loaded →
      run [insn, ⟨bpfRet ||| bpfA, 0, 0, 1⟩] pkt wirelen 2 ⟨0, regs⟩ =
        some (.ok (((loaded.result size absolute).map fun v ↦ v).getD 0)) :=
    fun hload ↦ run_load hlabel rfl (fun _ ↦ rfl) hload
  constructor
  · intro hsame
    obtain ⟨r, hbuffer, hchain⟩ := hsame _ List.mem_cons_self
    obtain ⟨r', hbuffer', hchain'⟩ := hsame _ (List.mem_cons_of_mem _ List.mem_cons_self)
    obtain ⟨v, hv⟩ := load_of_run hlabel hbuffer
    obtain ⟨w, hw⟩ := load_of_run hlabel hchain
    refine ⟨v, w, hv, hw, ?_⟩
    have hends := (hk hv).symm.trans (hbuffer.trans (hchain.symm.trans (hk hw)))
    have hvalues := (ha hv).symm.trans (hbuffer'.trans (hchain'.symm.trans (ha hw)))
    simp only [Option.some.injEq, Except.ok.injEq] at hends hvalues
    revert hends hvalues
    generalize v.result size absolute = x
    generalize w.result size absolute = y
    intro hends hvalues
    cases x with
    | none =>
      cases y with
      | none => rfl
      | some y => exact absurd hends (by simp)
    | some x =>
      cases y with
      | none => exact absurd hends (by simp)
      | some y => exact congrArg some hvalues
  · rintro ⟨v, w, hv, hw, hsame⟩ last hlast
    rcases List.mem_cons.mp hlast with rfl | hlast
    · exact ⟨_, hk hv, hsame ▸ hk hw⟩
    · rw [List.mem_singleton.mp hlast]
      exact ⟨_, ha hv, hsame ▸ ha hw⟩

/-- A filter gives the same result for the bytes of a chain in one buffer and for the chain if every
load it executes is the same in both layouts; and a load is the same exactly when the programs that
only load and return give the same results. -/
theorem bpfFilter_layout (f : Program) (m : Buffer) (next : List Buffer)
    (hlen : (chainBytes (m :: next)).length < 2 ^ 32) (wirelen : BitVec 32) (regs : Regs) :
    (AllSame f.insns (chainBytes (m :: next)) hlen m next wirelen regs → ∀ fuel,
      bpfFilter fuel f (.buffer _ hlen) wirelen regs =
        bpfFilter fuel f (.chain m next) wirelen regs) ∧
    ∀ insn size absolute, insn.label = some (loadLabel size absolute) →
      ((∀ last ∈ returns,
          SameFilter [insn, last] (.buffer _ hlen) (.chain m next) wirelen regs) ↔
        SameLoad size absolute (loadOffset insn absolute regs.x) _ hlen m next) :=
  ⟨fun hall fuel ↦ run_same rfl hall .start fuel, fun _ _ _ hlabel ↦ sameFilter_load rfl hlabel⟩

/-- A program that returns the byte at 1. -/
def loadByteOne : Program :=
  ⟨[⟨bpfLd ||| Size.b.code ||| bpfAbs, 0, 0, 1⟩, ⟨bpfRet ||| bpfA, 0, 0, 1⟩], by decide⟩

/-- A buffer with one byte. -/
def oneByte (b : UInt8) : Buffer := ⟨⟨[b], 1, false⟩, Nat.one_lt_two_pow (by decide)⟩

/-- It returns the same for two bytes in one buffer and in two. -/
theorem loadByteOne_layout :
    bpfFilter 3 loadByteOne (.buffer [5, 6] (by decide)) 2 ⟨0, 0, fun _ ↦ 0⟩ =
      bpfFilter 3 loadByteOne (.chain (oneByte 5) [oneByte 6]) 2 ⟨0, 0, fun _ ↦ 0⟩ := by
  refine (bpfFilter_layout loadByteOne (oneByte 5) [oneByte 6] (by decide) 2
    ⟨0, 0, fun _ ↦ 0⟩).1 (fun s insn l _ hfetch hlabel ↦ ?_) 3
  obtain ⟨i, -, -, hi⟩ := fetch_eq hfetch
  rcases List.mem_cons.mp (List.mem_of_getElem? hi) with rfl | hlast
  · cases hlabel
    refine ⟨⟨List.cons_ne_nil _ _, fun _ ↦ by decide⟩, ⟨Or.inl rfl, fun m' next' j hindex ↦ ?_⟩, ?_⟩
    · exact (mIndex_spec hindex).2 (by decide)
    · intro _ b hb
      cases hb
      decide
  · rw [List.mem_singleton.mp hlast] at hlabel
    cases hlabel
    trivial

/-- A program that returns the word at 1. -/
def loadWordOne : Program :=
  ⟨[⟨bpfLd ||| Size.w.code ||| bpfAbs, 0, 0, 1⟩, ⟨bpfRet ||| bpfA, 0, 0, 1⟩], by decide⟩

/-- It is accepted, and it returns the word in one order from a buffer and in the other from a
chain. -/
theorem loadWordOne_differs :
    ¬ ∀ (eax : BitVec 32) (before : Insn) (f : Program), bpfValidate eax before f ≠ 0 →
      ∀ (m : Buffer) (next : List Buffer) (hlen : (chainBytes (m :: next)).length < 2 ^ 32)
        (wirelen : BitVec 32) (regs : Regs) (fuel : ℕ),
        bpfFilter fuel f (.buffer _ hlen) wirelen regs =
          bpfFilter fuel f (.chain m next) wirelen regs := by
  intro hsame
  have hresult := hsame 0 ⟨0, 0, 0, 0⟩ loadWordOne (by decide)
    ⟨⟨[0, 1, 2, 3, 4], 5, false⟩, by decide⟩ [] (by decide) 5 ⟨0, 0, fun _ ↦ 0⟩ 2
  exact absurd hresult (by decide)

end Bsd386.Bpf
