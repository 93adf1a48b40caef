import Mathlib.Algebra.GroupWithZero.Nat
import Mathlib.Algebra.Ring.Int.Defs
import Mathlib.Data.Int.Order.Basic
import Bsd386.Kern.Socket.Mbuf

/-!
# Packets under a filter

A filter of `bpf/bpf_filter.c` looks at a packet that is one buffer, or at a chain of buffers, which
the caller tells it by a `buflen` of 0. The routines here are its ways to read an integer at an
offset of the packet. An access that leaves the bytes of the packet is a fault.
-/

namespace Bsd386.Bpf

/-- What a filter may not do: leave its program, its scratch memory or the packet, or stop the
processor by a division. -/
inductive Fault
  | pc
  | scratch
  | packet
  | divide
  deriving DecidableEq, Repr

/-- The value of an `int` of 32 bits that a sum or a difference leaves. -/
def int (i : ℤ) : ℤ := i.bmod (2 ^ 32)

theorem int_eq {i : ℤ} (hlow : -2 ^ 31 ≤ i) (hhigh : i < 2 ^ 31) : int i = i := by
  rw [int, Int.bmod_def]
  split <;> omega

/-- A buffer of a chain. Its `m_len` is an `int`. -/
structure Buffer extends Kern.Socket.Mbuf UInt8 where
  len_lt : mData.length < 2 ^ 31

/-- `m_len`. -/
def Buffer.mLen (m : Buffer) : ℤ := m.mData.length

theorem Buffer.mLen_nonneg (m : Buffer) : 0 ≤ m.mLen := Int.natCast_nonneg _

theorem Buffer.mLen_lt (m : Buffer) : m.mLen < 2 ^ 31 := by
  have hlt := m.len_lt
  rw [Buffer.mLen]
  omega

/-- The byte at `mtod(m)[k]`, or at `p[k]`. -/
def byteAt (data : List UInt8) : ℤ → Except Fault UInt8
  | .ofNat k =>
    match data[k]? with
    | some b => .ok b
    | none => .error .packet
  | .negSucc _ => .error .packet

/-- The bytes of an integer, the most significant one first, in network order. -/
def bigEndian (bytes : List UInt8) : BitVec 32 :=
  bytes.foldl (fun value b ↦ value <<< 8 ||| b.toBitVec.setWidth 32) 0

/-- `EXTRACT_LONG`. -/
def extractLong (data : List UInt8) (k : ℤ) : Except Fault (BitVec 32) := do
  let b0 ← byteAt data k
  let b1 ← byteAt data (k + 1)
  let b2 ← byteAt data (k + 2)
  let b3 ← byteAt data (k + 3)
  return bigEndian [b0, b1, b2, b3]

/-- `EXTRACT_SHORT`. -/
def extractShort (data : List UInt8) (k : ℤ) : Except Fault (BitVec 32) := do
  let b0 ← byteAt data k
  let b1 ← byteAt data (k + 1)
  return bigEndian [b0, b1]

/-- `*(long *)(p + k)`, in the order of the processor. -/
def hostLong (data : List UInt8) (k : ℤ) : Except Fault (BitVec 32) := do
  let b0 ← byteAt data k
  let b1 ← byteAt data (k + 1)
  let b2 ← byteAt data (k + 2)
  let b3 ← byteAt data (k + 3)
  return bigEndian [b3, b2, b1, b0]

/-- `MINDEX`: the buffer with the byte at `k`, those behind it, and the offset in that buffer. -/
def mIndex : List Buffer → ℤ → Option (Buffer × List Buffer × ℤ)
  | [], _ => none
  | m :: next, k => if m.mLen ≤ k then mIndex next (k - m.mLen) else some (m, next, k)

/-- `m_xword`, with no value where it sets `*err`. When the word starts at the end of one buffer,
`cp` is already at the offset `k` and the bytes are read at `cp[k]`. -/
def mXword (chain : List Buffer) (k : ℤ) : Except Fault (Option (BitVec 32)) :=
  match mIndex chain k with
  | none => .ok none
  | some (m, next, k) =>
    if 4 ≤ int (m.mLen - k) then do
      return some (← extractLong m.mData k)
    else
      match next with
      | [] => .ok none
      | m0 :: _ =>
        if int (m0.mLen + m.mLen - k) < 4 then .ok none
        else if int (m.mLen - k) = 1 then do
          let b0 ← byteAt m.mData (k + k)
          let b1 ← byteAt m0.mData 0
          let b2 ← byteAt m0.mData 1
          let b3 ← byteAt m0.mData 2
          return some (bigEndian [b0, b1, b2, b3])
        else if int (m.mLen - k) = 2 then do
          let b0 ← byteAt m.mData (k + k)
          let b1 ← byteAt m.mData (k + (k + 1))
          let b2 ← byteAt m0.mData 0
          let b3 ← byteAt m0.mData 1
          return some (bigEndian [b0, b1, b2, b3])
        else do
          let b0 ← byteAt m.mData (k + k)
          let b1 ← byteAt m.mData (k + (k + 1))
          let b2 ← byteAt m.mData (k + (k + 2))
          let b3 ← byteAt m0.mData 0
          return some (bigEndian [b0, b1, b2, b3])

/-- `m_xhalf`. -/
def mXhalf (chain : List Buffer) (k : ℤ) : Except Fault (Option (BitVec 32)) :=
  match mIndex chain k with
  | none => .ok none
  | some (m, next, k) =>
    if 2 ≤ int (m.mLen - k) then do
      return some (← extractShort m.mData k)
    else
      match next with
      | [] => .ok none
      | m0 :: _ => do
        let b0 ← byteAt m.mData (k + k)
        let b1 ← byteAt m0.mData 0
        return some (bigEndian [b0, b1])

/-- A packet, which is a buffer of `buflen` bytes or a chain of buffers. -/
inductive Packet
  | buffer (p : List UInt8) (hlen : p.length < 2 ^ 32)
  | chain (m : Buffer) (next : List Buffer)

/-- The argument `buflen`. -/
def Packet.buflen : Packet → ℕ
  | .buffer p _ => p.length
  | .chain _ _ => 0

/-- What a load gives: a value, the reason to return 0 from the filter, or `merr`. -/
inductive Loaded
  | value (v : BitVec 32)
  | reject
  | merr
  deriving DecidableEq, Repr

/-- The result of `m_xword` or `m_xhalf` and its `merr`. -/
def Loaded.ofMbuf : Option (BitVec 32) → Loaded
  | some v => .value v
  | none => .merr

/-- The load of a word at `k`. An empty buffer is taken for the first buffer of a chain. -/
def Packet.loadWord (pkt : Packet) (k : BitVec 32) : Except Fault Loaded :=
  if pkt.buflen < (k + 4).toNat then
    if pkt.buflen ≠ 0 then .ok .reject
    else
      match pkt with
      | .buffer _ _ => .error .packet
      | .chain m next => do
        return .ofMbuf (← mXword (m :: next) k.toInt)
  else
    match pkt with
    | .buffer p _ => do
      return .value (← hostLong p k.toInt)
    | .chain _ _ => .error .packet

/-- The load of a half word at `k`. -/
def Packet.loadHalf (pkt : Packet) (k : BitVec 32) : Except Fault Loaded :=
  if pkt.buflen < (k + 2).toNat then
    if pkt.buflen ≠ 0 then .ok .reject
    else
      match pkt with
      | .buffer _ _ => .error .packet
      | .chain m next => do
        return .ofMbuf (← mXhalf (m :: next) k.toInt)
  else
    match pkt with
    | .buffer p _ => do
      return .value (← extractShort p k.toInt)
    | .chain _ _ => .error .packet

/-- The load of a byte at `k`. A byte of a buffer is a `char`; one of a chain is a `char` or a
`u_char`, as `extend` tells. -/
def Packet.loadByte (pkt : Packet) (extend : UInt8 → BitVec 32) (k : BitVec 32) :
    Except Fault Loaded :=
  if pkt.buflen ≤ k.toNat then
    if pkt.buflen ≠ 0 then .ok .reject
    else
      match pkt with
      | .buffer _ _ => .error .packet
      | .chain m next =>
        match mIndex (m :: next) k.toInt with
        | none => .ok .reject
        | some (m, _, k) => do
          return .value (extend (← byteAt m.mData k))
  else
    match pkt with
    | .buffer p _ => do
      return .value ((← byteAt p k.toInt).toBitVec.signExtend 32)
    | .chain _ _ => .error .packet

/-! ### Loads that stay in the packet -/

/-- A computation ends without a fault. -/
def Succeeds {α : Type} (x : Except Fault α) : Prop := ∃ v, x = .ok v

@[simp]
theorem succeeds_ok {α : Type} (v : α) : Succeeds (.ok v) := ⟨v, rfl⟩

@[simp]
theorem succeeds_pure {α : Type} (v : α) : Succeeds (pure v) := ⟨v, rfl⟩

@[simp]
theorem not_succeeds_error {α : Type} (e : Fault) : ¬ Succeeds (.error e : Except Fault α) :=
  fun ⟨_, h⟩ ↦ nomatch h

/-- The computations after `x` succeed or fail whatever `x` gave. -/
theorem succeeds_bind {α β : Type} {x : Except Fault α} {f : α → Except Fault β} {P : Prop}
    (hrest : ∀ v, Succeeds (f v) ↔ P) : Succeeds (x >>= f) ↔ Succeeds x ∧ P := by
  cases x with
  | error e => exact ⟨fun ⟨_, h⟩ ↦ (nomatch h), fun ⟨⟨_, h⟩, _⟩ ↦ (nomatch h)⟩
  | ok v => exact (hrest v).trans ⟨fun h ↦ ⟨succeeds_ok v, h⟩, And.right⟩

/-- The computations after `x` succeed whatever `x` gave. -/
theorem succeeds_bind_left {α β : Type} {x : Except Fault α} {f : α → Except Fault β}
    (hrest : ∀ v, Succeeds (f v)) : Succeeds (x >>= f) ↔ Succeeds x :=
  (succeeds_bind (P := True) fun v ↦ iff_of_true (hrest v) trivial).trans (and_iff_left trivial)

theorem succeeds_bind_pure {α β : Type} {x : Except Fault α} {f : α → β} :
    Succeeds (x >>= fun v ↦ pure (f v)) ↔ Succeeds x :=
  succeeds_bind_left fun v ↦ succeeds_pure (f v)

theorem succeeds_byteAt {data : List UInt8} {k : ℤ} :
    Succeeds (byteAt data k) ↔ 0 ≤ k ∧ k < data.length := by
  cases k with
  | ofNat k =>
    rw [byteAt]
    cases hb : data[k]? with
    | some b =>
      have hlt := (List.getElem?_eq_some_iff.mp hb).1
      simp only [succeeds_ok, Int.ofNat_eq_natCast, true_iff]
      omega
    | none =>
      have hle := List.getElem?_eq_none_iff.mp hb
      simp only [not_succeeds_error, Int.ofNat_eq_natCast, false_iff]
      omega
  | negSucc k =>
    simp only [byteAt, not_succeeds_error, false_iff]
    omega

theorem succeeds_extractShort {data : List UInt8} {k : ℤ} :
    Succeeds (extractShort data k) ↔ 0 ≤ k ∧ k + 1 < data.length := by
  have hrest : ∀ b0, Succeeds (byteAt data (k + 1) >>= fun b1 ↦ pure (bigEndian [b0, b1])) ↔
      0 ≤ k + 1 ∧ k + 1 < data.length :=
    fun b0 ↦ succeeds_bind_pure.trans succeeds_byteAt
  rw [extractShort, succeeds_bind hrest, succeeds_byteAt]
  omega

/-- Four bytes, put together in any way. -/
theorem succeeds_four {d0 d1 d2 d3 : List UInt8} {k0 k1 k2 k3 : ℤ} {β : Type}
    (f : UInt8 → UInt8 → UInt8 → UInt8 → β) :
    Succeeds (do
      let b0 ← byteAt d0 k0
      let b1 ← byteAt d1 k1
      let b2 ← byteAt d2 k2
      let b3 ← byteAt d3 k3
      return f b0 b1 b2 b3) ↔
      (0 ≤ k0 ∧ k0 < d0.length) ∧ (0 ≤ k1 ∧ k1 < d1.length) ∧
        (0 ≤ k2 ∧ k2 < d2.length) ∧ 0 ≤ k3 ∧ k3 < d3.length := by
  rw [succeeds_bind fun b0 ↦ succeeds_bind fun b1 ↦ succeeds_bind fun b2 ↦
    succeeds_bind_pure (f := fun b3 ↦ f b0 b1 b2 b3)]
  simp only [succeeds_byteAt]

theorem succeeds_extractLong {data : List UInt8} {k : ℤ} :
    Succeeds (extractLong data k) ↔ 0 ≤ k ∧ k + 3 < data.length := by
  rw [extractLong, succeeds_four fun b0 b1 b2 b3 ↦ bigEndian [b0, b1, b2, b3]]
  omega

theorem succeeds_hostLong {data : List UInt8} {k : ℤ} :
    Succeeds (hostLong data k) ↔ 0 ≤ k ∧ k + 3 < data.length := by
  rw [hostLong, succeeds_four fun b0 b1 b2 b3 ↦ bigEndian [b3, b2, b1, b0]]
  omega

/-- `MINDEX` leaves an offset before the end of the buffer, and a negative one as it was. -/
theorem mIndex_spec {chain : List Buffer} {k : ℤ} {m : Buffer} {next : List Buffer} {j : ℤ}
    (hindex : mIndex chain k = some (m, next, j)) : j < m.mLen ∧ (0 ≤ k → 0 ≤ j) := by
  induction chain generalizing k with
  | nil => cases hindex
  | cons m' chain ih =>
    rw [mIndex] at hindex
    split_ifs at hindex with hle
    · have hspec := ih hindex
      exact ⟨hspec.1, fun _ ↦ hspec.2 (by omega)⟩
    · cases hindex
      exact ⟨by omega, id⟩

/-- A word at the offset `j` of a buffer is read from its bytes, or, where it starts at the end of
the buffer, it is the word that starts the buffer. -/
def WordWithin (m : Buffer) (next : List Buffer) (j : ℤ) : Prop :=
  (4 ≤ int (m.mLen - j) → 0 ≤ j) ∧
    (int (m.mLen - j) < 4 → ∀ m0 ∈ next.head?, 4 ≤ int (m0.mLen + m.mLen - j) → j = 0)

/-- A half word at the offset `j` of a buffer, likewise; its second byte is then in the next
buffer. -/
def HalfWithin (m : Buffer) (next : List Buffer) (j : ℤ) : Prop :=
  (2 ≤ int (m.mLen - j) → 0 ≤ j) ∧
    (int (m.mLen - j) < 2 → ∀ m0 ∈ next.head?, j = 0 ∧ 0 < m0.mLen)

/-- What `MINDEX` found decides whether the rest of a routine succeeds. -/
theorem succeeds_found {α : Type} {found : Option (Buffer × List Buffer × ℤ)}
    {f : Buffer → List Buffer → ℤ → Except Fault α} {v : α}
    {P : Buffer → List Buffer → ℤ → Prop}
    (hsome : ∀ m next j, found = some (m, next, j) → (Succeeds (f m next j) ↔ P m next j)) :
    Succeeds (match found with
      | none => .ok v
      | some (m, next, j) => f m next j) ↔
      ∀ m next j, found = some (m, next, j) → P m next j := by
  cases found with
  | none => exact iff_of_true (succeeds_ok _) fun _ _ _ h ↦ nomatch h
  | some found =>
    obtain ⟨m, next, j⟩ := found
    refine (hsome m next j rfl).trans ⟨fun h m' next' j' heq ↦ ?_, fun h ↦ h m next j rfl⟩
    cases heq
    exact h

theorem succeeds_mXword {chain : List Buffer} {k : ℤ} :
    Succeeds (mXword chain k) ↔
      ∀ m next j, mIndex chain k = some (m, next, j) → WordWithin m next j := by
  rw [mXword]
  apply succeeds_found
  intro m next j hindex
  have hj := (mIndex_spec hindex).1
  have hlt := m.mLen_lt
  have hnonneg := m.mLen_nonneg
  have hlen : (m.mData.length : ℤ) = m.mLen := rfl
  rw [WordWithin]
  by_cases hroom : 4 ≤ int (m.mLen - j)
  · rw [if_pos hroom, succeeds_bind_pure, succeeds_extractLong, hlen]
    refine ⟨fun h ↦ ⟨fun _ ↦ h.1, fun hno ↦ by omega⟩, fun h ↦ ⟨h.1 hroom, ?_⟩⟩
    have hzero := h.1 hroom
    rw [int_eq (by omega) (by omega)] at hroom
    omega
  · rw [if_neg hroom]
    have hsmall : int (m.mLen - j) < 4 := by omega
    simp only [hroom, false_implies, hsmall, true_implies, true_and]
    cases next with
    | nil => exact iff_of_true (succeeds_ok _) fun _ h ↦ nomatch h
    | cons m0 next =>
      have hlen0 : (m0.mData.length : ℤ) = m0.mLen := rfl
      have hlt0 := m0.mLen_lt
      have hnonneg0 := m0.mLen_nonneg
      simp only [List.head?_cons, Option.mem_def, Option.some.injEq, forall_eq']
      by_cases hshort : int (m0.mLen + m.mLen - j) < 4
      · rw [if_pos hshort]
        exact iff_of_true (succeeds_ok _) fun h ↦ by omega
      · rw [if_neg hshort]
        have hrest : 4 ≤ int (m0.mLen + m.mLen - j) := by omega
        simp only [hrest, true_implies]
        -- the offset counted twice leaves the buffer unless it is 0
        have hzero : 0 ≤ j → int (m.mLen - j) = m.mLen - j := fun h ↦ int_eq (by omega) (by omega)
        have hsum : j = 0 → m0.mLen + m.mLen < 2 ^ 31 →
            int (m0.mLen + m.mLen - j) = m0.mLen + m.mLen := by
          rintro rfl hfits
          rw [int_eq (by omega) (by omega), Int.sub_zero]
        split_ifs with hone htwo
        · rw [succeeds_four fun b0 b1 b2 b3 ↦ some (bigEndian [b0, b1, b2, b3]), hlen, hlen0]
          omega
        · rw [succeeds_four fun b0 b1 b2 b3 ↦ some (bigEndian [b0, b1, b2, b3]), hlen, hlen0]
          omega
        · rw [succeeds_four fun b0 b1 b2 b3 ↦ some (bigEndian [b0, b1, b2, b3]), hlen, hlen0]
          omega

theorem succeeds_mXhalf {chain : List Buffer} {k : ℤ} :
    Succeeds (mXhalf chain k) ↔
      ∀ m next j, mIndex chain k = some (m, next, j) → HalfWithin m next j := by
  rw [mXhalf]
  apply succeeds_found
  intro m next j hindex
  have hj := (mIndex_spec hindex).1
  have hlt := m.mLen_lt
  have hlen : (m.mData.length : ℤ) = m.mLen := rfl
  rw [HalfWithin]
  by_cases hroom : 2 ≤ int (m.mLen - j)
  · rw [if_pos hroom, succeeds_bind_pure, succeeds_extractShort, hlen]
    refine ⟨fun h ↦ ⟨fun _ ↦ h.1, fun hno ↦ by omega⟩, fun h ↦ ⟨h.1 hroom, ?_⟩⟩
    have hzero := h.1 hroom
    rw [int_eq (by omega) (by omega)] at hroom
    omega
  · rw [if_neg hroom]
    have hsmall : int (m.mLen - j) < 2 := by omega
    simp only [hroom, false_implies, hsmall, true_implies, true_and]
    cases next with
    | nil => exact iff_of_true (succeeds_ok _) fun _ h ↦ nomatch h
    | cons m0 next =>
      have hlen0 : (m0.mData.length : ℤ) = m0.mLen := rfl
      have hzero : 0 ≤ j → int (m.mLen - j) = m.mLen - j := fun h ↦ int_eq (by omega) (by omega)
      simp only [List.head?_cons, Option.mem_def, Option.some.injEq, forall_eq']
      rw [succeeds_bind fun b0 ↦ succeeds_bind_pure (f := fun b1 ↦ some (bigEndian [b0, b1])),
        succeeds_byteAt, succeeds_byteAt, hlen, hlen0]
      omega

/-- The sizes of a load. -/
inductive Size
  | w
  | h
  | b
  deriving DecidableEq, Repr

/-- The number of bytes of a load. -/
def Size.bytes : Size → BitVec 32
  | .w => 4
  | .h => 2
  | .b => 1

/-- The load of `size` bytes at the offset `k` stays in the packet. In a buffer, which is not empty,
the end of the load wraps around to pass the test only when the offset is negative. In a chain the
test must send the load to the chain, and the buffer that `MINDEX` finds must have the bytes. -/
def Packet.Readable (size : Size) (k : BitVec 32) : Packet → Prop
  | .buffer p _ =>
    p ≠ [] ∧ ((if size = .b then k.toNat + 1 else (k + size.bytes).toNat) ≤ p.length → 0 ≤ k.toInt)
  | .chain m next =>
    (size = .b ∨ k + size.bytes ≠ 0) ∧
      ∀ m' next' j, mIndex (m :: next) k.toInt = some (m', next', j) →
        match size with
        | .w => WordWithin m' next' j
        | .h => HalfWithin m' next' j
        | .b => 0 ≤ j

theorem toInt_of_nonneg {k : BitVec 32} (hnonneg : 0 ≤ k.toInt) : k.toInt = k.toNat := by
  have hlt := k.isLt
  rw [BitVec.toInt_eq_toNat_cond] at hnonneg ⊢
  split <;> omega

/-- A load from a buffer, whose bytes end before `last` unless that sum wrapped around. -/
theorem succeeds_buffer {p : List UInt8} {k : BitVec 32} {last n : ℕ} {read : Except Fault Loaded}
    (hread : Succeeds read ↔ 0 ≤ k.toInt ∧ k.toInt + n < p.length)
    (hlast : 0 ≤ k.toInt → last = k.toNat + n + 1) :
    Succeeds (if p.length < last then
        if p.length ≠ 0 then .ok .reject else .error .packet
      else read) ↔ p ≠ [] ∧ (last ≤ p.length → 0 ≤ k.toInt) := by
  by_cases hnil : p = []
  · subst hnil
    refine iff_of_false ?_ fun h ↦ h.1 rfl
    split_ifs with hlt hzero
    · exact absurd rfl hzero
    · exact not_succeeds_error _
    · rw [hread, List.length_nil]
      omega
  · have hpos : p.length ≠ 0 := fun h ↦ hnil (List.length_eq_zero_iff.mp h)
    rw [if_pos hpos, and_iff_right hnil]
    split_ifs with hlt
    · exact iff_of_true (succeeds_ok _) fun hle ↦ by omega
    · rw [hread]
      refine ⟨fun h _ ↦ h.1, fun h ↦ ?_⟩
      have hnonneg := h (by omega)
      have heq := hlast hnonneg
      have hint := toInt_of_nonneg hnonneg
      omega

/-- The load of a chain goes to its buffers unless the sum of the test wraps around to 0. -/
theorem succeeds_chain {sum : BitVec 32} {P : Prop} {read : Except Fault Loaded}
    (hread : Succeeds read ↔ P) :
    Succeeds (if 0 < sum.toNat then read else .error .packet) ↔ sum ≠ 0 ∧ P := by
  by_cases hsum : sum = 0
  · subst hsum
    exact iff_of_false (not_succeeds_error _) fun h ↦ h.1 rfl
  · have hpos : 0 < sum.toNat := Nat.pos_of_ne_zero fun h ↦ hsum (BitVec.eq_of_toNat_eq h)
    rw [if_pos hpos, hread, and_iff_right hsum]

theorem succeeds_loadWord {pkt : Packet} {k : BitVec 32} :
    Succeeds (pkt.loadWord k) ↔ pkt.Readable .w k := by
  cases pkt with
  | buffer p hlen =>
    refine succeeds_buffer (n := 3) (succeeds_bind_pure.trans succeeds_hostLong) fun hnonneg ↦ ?_
    have hint := toInt_of_nonneg hnonneg
    have hlt := k.toInt_lt
    have hadd := k.toNat_add 4
    simp at hadd ⊢
    omega
  | chain m next =>
    exact (succeeds_chain ((succeeds_bind_pure (f := Loaded.ofMbuf)).trans succeeds_mXword)).trans
      (and_congr_left fun _ ↦ (or_iff_right fun h ↦ nomatch h).symm)

theorem succeeds_loadHalf {pkt : Packet} {k : BitVec 32} :
    Succeeds (pkt.loadHalf k) ↔ pkt.Readable .h k := by
  cases pkt with
  | buffer p hlen =>
    refine succeeds_buffer (n := 1) (succeeds_bind_pure.trans succeeds_extractShort) fun hnonneg ↦
      ?_
    have hint := toInt_of_nonneg hnonneg
    have hlt := k.toInt_lt
    have hadd := k.toNat_add 2
    simp at hadd ⊢
    omega
  | chain m next =>
    exact (succeeds_chain ((succeeds_bind_pure (f := Loaded.ofMbuf)).trans succeeds_mXhalf)).trans
      (and_congr_left fun _ ↦ (or_iff_right fun h ↦ nomatch h).symm)

theorem succeeds_loadByte {pkt : Packet} {extend : UInt8 → BitVec 32} {k : BitVec 32} :
    Succeeds (pkt.loadByte extend k) ↔ pkt.Readable .b k := by
  cases pkt with
  | buffer p hlen =>
    have hread : Succeeds (do
        return Loaded.value ((← byteAt p k.toInt).toBitVec.signExtend 32)) ↔
          0 ≤ k.toInt ∧ k.toInt + (0 : ℕ) < p.length := by
      rw [succeeds_bind_pure, succeeds_byteAt, Int.natCast_zero, Int.add_zero]
    have hbuffer := succeeds_buffer hread fun _ ↦ rfl
    simp only [Nat.lt_add_one_iff] at hbuffer
    exact hbuffer
  | chain m next =>
    have hbuflen : (Packet.chain m next).buflen = 0 := rfl
    rw [Packet.loadByte, Packet.Readable, if_pos (hbuflen ▸ Nat.zero_le _),
      if_neg (not_not_intro hbuflen)]
    refine (succeeds_found (P := fun _ _ j ↦ 0 ≤ j) fun m' next' j hindex ↦ ?_).trans
      (and_iff_right (Or.inl rfl)).symm
    have hj : j < m'.mData.length := (mIndex_spec hindex).1
    rw [succeeds_bind_pure, succeeds_byteAt, and_iff_left hj]

end Bsd386.Bpf
