import Bsd386.Inet.InCksum

/-!
# The checksum routines agree

The checksum is the complement of the sum of the words in ones' complement, where a carry out of a
word is added at its low end. Such a sum is the sum of the words modulo 65535, and it is 0 only if
all words are. Sums that agree in both stay so when words are added, when they are folded, and when
they are shifted by a byte, by which the words at odd addresses get their place.
-/

namespace Bsd386.Inet

variable {s t w : ℕ} {v l : List UInt8}

/-! ## Sums in ones' complement -/

/-- The sum of two words in ones' complement. -/
def onesAdd (x y : ℕ) : ℕ := if x + y ≤ 65535 then x + y else x + y - 65535

/-- The sum of the words of a range in ones' complement, padded with zero. -/
def onesSum : List UInt8 → ℕ
  | [] => 0
  | [b] => word b 0
  | lo :: hi :: l => onesAdd (word lo hi) (onesSum l)

/-- The words of a range. -/
def wordSum : List UInt8 → ℕ
  | [] => 0
  | [b] => word b 0
  | lo :: hi :: l => word lo hi + wordSum l

/-- Two numbers with the same sum in ones' complement. -/
def Alike (s t : ℕ) : Prop := s % 65535 = t % 65535 ∧ (s = 0 ↔ t = 0)

theorem alike_refl (s : ℕ) : Alike s s := ⟨rfl, Iff.rfl⟩

theorem Alike.trans {u : ℕ} (h : Alike s t) (h' : Alike t u) : Alike s u :=
  ⟨h.1.trans h'.1, h.2.trans h'.2⟩

theorem Alike.symm (h : Alike s t) : Alike t s := ⟨h.1.symm, h.2.symm⟩

theorem Alike.add (h : Alike s t) (w : ℕ) : Alike (s + w) (t + w) := by
  obtain ⟨hmod, hzero⟩ := h
  constructor
  · omega
  · omega

/-- A shift by a byte. -/
theorem Alike.shift (h : Alike s t) : Alike (256 * s) (256 * t) := by
  obtain ⟨hmod, hzero⟩ := h
  constructor
  · omega
  · omega

/-- A shift by a word. -/
theorem alike_shift (s w : ℕ) : Alike (256 * (256 * s + w)) (s + 256 * w) :=
  ⟨by omega, by omega⟩

/-- Sums of one word that are alike are equal. -/
theorem Alike.eq (h : Alike s t) (hs : s ≤ 65535) (ht : t ≤ 65535) : s = t := by
  obtain ⟨hmod, hzero⟩ := h
  omega

theorem word_le (lo hi : UInt8) : word lo hi ≤ 65535 := by
  have hlo := UInt8.toNat_lt lo
  have hhi := UInt8.toNat_lt hi
  unfold word
  omega

theorem onesAdd_le (hs : s ≤ 65535) (ht : t ≤ 65535) : onesAdd s t ≤ 65535 := by
  unfold onesAdd
  split_ifs
  · assumption
  · omega

theorem alike_onesAdd (s t : ℕ) : Alike (onesAdd s t) (s + t) := by
  unfold onesAdd
  split_ifs
  · exact alike_refl _
  · exact ⟨by omega, by omega⟩

theorem onesSum_le : ∀ l : List UInt8, onesSum l ≤ 65535
  | [] => Nat.zero_le _
  | [b] => word_le b 0
  | lo :: hi :: l => onesAdd_le (word_le lo hi) (onesSum_le l)

theorem alike_onesSum : ∀ l : List UInt8, Alike (onesSum l) (wordSum l)
  | [] => alike_refl _
  | [_] => alike_refl _
  | lo :: hi :: l => by
    apply (alike_onesAdd (word lo hi) (onesSum l)).trans
    change Alike _ (word lo hi + wordSum l)
    rw [Nat.add_comm, Nat.add_comm (word lo hi)]
    exact (alike_onesSum l).add (word lo hi)

theorem wordSum_append : ∀ {v : List UInt8} (_ : v.length % 2 = 0) (l : List UInt8),
    wordSum (v ++ l) = wordSum v + wordSum l
  | [], _, l => (Nat.zero_add _).symm
  | [_], heven, _ => by cases heven
  | lo :: hi :: v, heven, l => by
    rw [List.length_cons, List.length_cons] at heven
    change word lo hi + wordSum (v ++ l) = word lo hi + wordSum v + wordSum l
    rw [wordSum_append (v := v) (by omega) l, Nat.add_assoc]

/-- The words of a range whose bytes have changed places. -/
def crossSum : List UInt8 → ℕ
  | [] => 0
  | [b] => 256 * b.toNat
  | hi :: lo :: l => 256 * hi.toNat + lo.toNat + crossSum l

theorem wordSum_cons : ∀ (b : UInt8) (l : List UInt8), wordSum (b :: l) = b.toNat + crossSum l
  | b, [] => by
    change b.toNat + 256 * 0 = b.toNat + 0
    omega
  | _, [_] => rfl
  | b, hi :: lo :: l => by
    change b.toNat + 256 * hi.toNat + wordSum (lo :: l) =
      b.toNat + (256 * hi.toNat + lo.toNat + crossSum l)
    rw [wordSum_cons lo l]
    omega

theorem crossSum_append : ∀ {v : List UInt8} (_ : v.length % 2 = 0) (l : List UInt8),
    crossSum (v ++ l) = crossSum v + crossSum l
  | [], _, l => (Nat.zero_add _).symm
  | [_], heven, _ => by cases heven
  | hi :: lo :: v, heven, l => by
    rw [List.length_cons, List.length_cons] at heven
    change 256 * hi.toNat + lo.toNat + crossSum (v ++ l) =
      256 * hi.toNat + lo.toNat + crossSum v + crossSum l
    rw [crossSum_append (v := v) (by omega) l]
    omega

/-- A shift by a byte puts the bytes in their places. -/
theorem alike_crossSum : ∀ {v : List UInt8} (_ : v.length % 2 = 0),
    Alike (256 * wordSum v) (crossSum v)
  | [], _ => alike_refl 0
  | [_], heven => by cases heven
  | hi :: lo :: v, heven => by
    rw [List.length_cons, List.length_cons] at heven
    obtain ⟨hmod, hzero⟩ := alike_crossSum (v := v) (by omega)
    change Alike (256 * (hi.toNat + 256 * lo.toNat + wordSum v))
      (256 * hi.toNat + lo.toNat + crossSum v)
    constructor
    · omega
    · omega

/-! ## The walk over the chain -/

/-- The byte that is left over is the low byte of a word. -/
def leftover : Option UInt8 → ℕ
  | none => 0
  | some b => b.toNat

/-- What the routines need of their sums: `inv` holds of the sum, of the number that it stands for
and of the number of bytes so far. -/
structure Summer.Sound (x : Summer) (inv : ℕ → ℕ → ℕ → Prop) : Prop where
  start : inv 0 0 0
  spanning : ∀ s t n w, w ≤ 65535 → n % 2 = 1 → n ≤ 65535 → inv s t n →
    inv (x.spanning s w) (t + w) (n + 1)
  piece : ∀ s t n odd l, n % 2 = 0 → n + l.length ≤ 65535 → inv s t n →
    ((x.piece s odd l).2.isSome = true ↔ l.length % 2 = 1) ∧
      ∃ t', t' + leftover (x.piece s odd l).2 = t + wordSum l ∧
        inv (x.piece s odd l).1 t' (n + l.length)
  result : ∀ s t n, n ≤ 65536 → inv s t n →
    ∃ r, x.result s = 65535 - r ∧ r ≤ 65535 ∧ Alike r t

/-- The sum and the byte that is left over stand for the words of a range. -/
def Carries (inv : ℕ → ℕ → ℕ → Prop) (s : ℕ) (left : Option UInt8) (v : List UInt8) : Prop :=
  (left.isSome = true ↔ v.length % 2 = 1) ∧
    ∃ t, t + leftover left = wordSum v ∧ inv s t v.length

variable {x : Summer} {inv : ℕ → ℕ → ℕ → Prop} {chain : List CksumMbuf} {len : ℕ}
  {left : Option UInt8}

theorem word_zero (b : UInt8) : word b 0 = b.toNat := Nat.add_zero _

theorem Summer.Sound.finish (h : x.Sound inv) (hcarries : Carries inv s left v)
    (hlen : v.length ≤ 65535) : x.finish s left = 65535 - onesSum v := by
  obtain ⟨hodd, t, ht, hinv⟩ := hcarries
  have hresult : ∀ s n, n ≤ 65536 → inv s (wordSum v) n → x.result s = 65535 - onesSum v := by
    intro s n hn hinv
    obtain ⟨r, heq, hr, halike⟩ := h.result s _ n hn hinv
    rw [heq, (halike.trans (alike_onesSum v).symm).eq hr (onesSum_le v)]
  cases left with
  | none =>
    have hsum : t = wordSum v := ht
    rw [hsum] at hinv
    exact hresult s v.length (by omega) hinv
  | some b =>
    have hsum : t + word b 0 = wordSum v := (congrArg (t + ·) (word_zero b)).trans ht
    have hspanning := h.spanning s t v.length _ (word_le b 0) (hodd.mp rfl) hlen hinv
    rw [hsum] at hspanning
    exact hresult _ (v.length + 1) (by omega) hspanning

/-- A byte that completes the word of the byte that was left over. -/
theorem Summer.Sound.complete (h : x.Sound inv) {c : UInt8} (hcarries : Carries inv s (some c) v)
    (hlen : v.length ≤ 65535) (b : UInt8) :
    Carries inv (x.spanning s (word c b)) none (v ++ [b]) := by
  obtain ⟨hodd, t, ht, hinv⟩ := hcarries
  have hv : v.length % 2 = 1 := hodd.mp rfl
  have hlength : (v ++ [b]).length = v.length + 1 := List.length_append
  refine ⟨?_, t + word c b, ?_, ?_⟩
  · rw [hlength]
    exact iff_of_false Bool.false_ne_true (by omega)
  · obtain ⟨v', last, rfl⟩ := List.eq_nil_or_concat' v |>.resolve_left (by
      intro hnil
      rw [hnil] at hv
      cases hv)
    rw [List.length_append, List.length_singleton] at hv
    have hlast : wordSum (v' ++ [last]) = wordSum v' + word last 0 := wordSum_append (by omega) _
    have hboth : wordSum (v' ++ [last] ++ [b]) = wordSum v' + word last b := by
      rw [List.append_assoc]
      exact wordSum_append (by omega) _
    rw [hlast] at ht
    rw [hboth]
    change t + c.toNat = _ at ht
    change t + word c b + 0 = _
    unfold word at ht ⊢
    have hzero : UInt8.toNat 0 = 0 := rfl
    omega
  · rw [hlength]
    exact h.spanning s t v.length _ (word_le c b) hv hlen hinv

/-- The bytes of an mbuf, when none was left over. -/
theorem Summer.Sound.advance (h : x.Sound inv) (hcarries : Carries inv s none v) (odd : Bool)
    (hlen : v.length + l.length ≤ 65535) :
    Carries inv (x.piece s odd l).1 (x.piece s odd l).2 (v ++ l) := by
  obtain ⟨hodd, t, ht, hinv⟩ := hcarries
  have heven : v.length % 2 = 0 := by
    have hnot := mt hodd.mpr Bool.false_ne_true
    omega
  obtain ⟨hleft, t', ht', hinv'⟩ := h.piece s t v.length odd l heven hlen hinv
  have hlength : (v ++ l).length = v.length + l.length := List.length_append
  refine ⟨?_, t', ?_, ?_⟩
  · rw [hleft, hlength]
    omega
  · rw [ht', wordSum_append heven]
    exact congrArg (· + wordSum l) ht
  · rw [hlength]
    exact hinv'

theorem bytes_cons (m : CksumMbuf) (chain : List CksumMbuf) :
    bytes (m :: chain) = m.data ++ bytes chain :=
  List.flatMap_cons

/-- The walk gives the checksum of the bytes so far and as many bytes of the chain as there are to
come. -/
theorem Summer.Sound.cksumLoop (h : x.Sound inv) (hcarries : Carries inv s left v)
    (hlen : v.length + len ≤ 65535) :
    cksumLoop x chain len s left = 65535 - onesSum (v ++ (bytes chain).take len) := by
  induction chain generalizing len s left v with
  | nil =>
    rw [Inet.cksumLoop, h.finish hcarries (by omega)]
    change _ = 65535 - onesSum (v ++ [].take len)
    rw [List.take_nil, List.append_nil]
  | cons m chain ih =>
    obtain ⟨odd, data⟩ := m
    have hfinish : len = 0 → x.finish s left =
        65535 - onesSum (v ++ (bytes (⟨odd, data⟩ :: chain)).take len) := by
      intro hzero
      rw [h.finish hcarries (by omega), hzero, List.take_zero, List.append_nil]
    cases data with
    | nil =>
      rw [Inet.cksumLoop]
      split_ifs with hzero
      · exact hfinish hzero
      · exact ih hcarries hlen
    | cons b l =>
      have htake : (bytes (⟨odd, b :: l⟩ :: chain)).take len =
          (b :: l).take len ++ (bytes chain).take (len - (l.length + 1)) := by
        rw [bytes_cons, List.take_append, List.length_cons]
      have hmin : ((b :: l).take len).length = min len (l.length + 1) := List.length_take
      cases left with
      | none =>
        rw [Inet.cksumLoop]
        split_ifs with hzero
        · exact hfinish hzero
        have hadvance := h.advance (l := (b :: l).take len) hcarries odd (by omega)
        have hlength : (v ++ (b :: l).take len).length = v.length + ((b :: l).take len).length :=
          List.length_append
        rw [htake, ← List.append_assoc]
        exact ih hadvance (by omega)
      | some c =>
        rw [Inet.cksumLoop]
        split_ifs with hzero
        · exact hfinish hzero
        obtain ⟨n, rfl⟩ := Nat.exists_eq_succ_of_ne_zero hzero
        have hcomplete := h.complete hcarries (by omega) b
        have hone : (v ++ [b]).length = v.length + 1 := List.length_append
        have hrest : (l.take n).length = min n l.length := List.length_take
        have hadvance := h.advance (l := l.take n) hcomplete (!odd) (by omega)
        have hlength : (v ++ [b] ++ l.take n).length = (v ++ [b]).length + (l.take n).length :=
          List.length_append
        have hsub : n + 1 - (l.length + 1) = n - l.length := Nat.add_sub_add_right n 1 l.length
        rw [htake, List.take_succ_cons, Nat.succ_eq_add_one, hsub]
        have hsplit : v ++ (b :: l.take n ++ (bytes chain).take (n - l.length)) =
            v ++ [b] ++ l.take n ++ (bytes chain).take (n - l.length) := by
          rw [List.append_assoc, List.append_assoc]
          rfl
        rw [hsplit]
        exact ih hadvance (by omega)

/-! ## The routine for the 386 -/

theorem alike_addCarry (hs : s ≤ 131070) : Alike (addCarry s) s := by
  unfold addCarry
  split_ifs
  · exact ⟨by omega, by omega⟩
  · exact alike_refl s

/-- The sum of the routine for the 386 is folded after each word. -/
def FoldedI386 (s t _ : ℕ) : Prop := Alike s t ∧ s ≤ 65535

theorem foldedI386_addCarry {n m : ℕ} (hw : w ≤ 65535) (h : FoldedI386 s t n) :
    FoldedI386 (addCarry (s + w)) (t + w) m := by
  obtain ⟨halike, hle⟩ := h
  constructor
  · exact (alike_addCarry (by omega)).trans (halike.add w)
  · unfold addCarry
    split_ifs <;> omega

theorem foldedI386_addWords : ∀ {s t n : ℕ} {l : List UInt8} (_ : FoldedI386 s t n) (m : ℕ),
    ((addWords s l).2.isSome = true ↔ l.length % 2 = 1) ∧
      ∃ t', t' + leftover (addWords s l).2 = t + wordSum l ∧ FoldedI386 (addWords s l).1 t' m
  | _, t, _, [], h, _ => ⟨iff_of_false Bool.false_ne_true (by decide), t, rfl, h⟩
  | _, t, _, [b], h, _ => ⟨iff_of_true rfl rfl, t, congrArg (t + ·) (word_zero b).symm, h⟩
  | s, t, n, lo :: hi :: l, h, m => by
    obtain ⟨hleft, t', ht', hfolded⟩ :=
      foldedI386_addWords (n := n) (l := l) (foldedI386_addCarry (word_le lo hi) h) m
    refine ⟨hleft.trans ?_, t', ht'.trans (Nat.add_assoc t (word lo hi) (wordSum l)), hfolded⟩
    rw [List.length_cons, List.length_cons]
    omega

theorem summerI386_sound : summerI386.Sound FoldedI386 where
  start := ⟨alike_refl 0, Nat.zero_le _⟩
  spanning _ _ _ _ hw _ _ h := foldedI386_addCarry hw h
  piece _ _ _ _ _ _ _ h := foldedI386_addWords h _
  result s _ _ _ h := ⟨s, rfl, h.2, h.1⟩

/-! ## The portable routine -/

theorem addWord_eq (h : s + w < 4294967296) : addWord s w = s + w := Nat.mod_eq_of_lt h

theorem alike_reduceHalves (hs : s < 4294967296) :
    Alike (reduceHalves s) s ∧ reduceHalves s ≤ 65535 := by
  unfold reduceHalves
  dsimp only
  split_ifs
  · exact ⟨⟨by omega, by omega⟩, by omega⟩
  · exact ⟨⟨by omega, by omega⟩, by omega⟩

theorem shiftUp_eq (hs : s < 4294967296) : shiftUp s = 256 * reduceHalves s := by
  have hle := (alike_reduceHalves hs).2
  unfold shiftUp
  omega

theorem wordSum_even : ∀ {l : List UInt8} (_ : l.length % 2 = 0),
    2 * wordSum l ≤ 65535 * l.length
  | [], _ => Nat.zero_le _
  | [_], heven => by cases heven
  | lo :: hi :: l, heven => by
    have hle := word_le lo hi
    rw [List.length_cons, List.length_cons] at heven ⊢
    have hrest := wordSum_even (l := l) (by omega)
    change 2 * (word lo hi + wordSum l) ≤ 65535 * (l.length + 1 + 1)
    omega

theorem addUnrolled_eq {n : ℕ} (hlen : 2 * n ≤ l.length) (hs : s + 65535 * n < 4294967296) :
    addUnrolled n s l = s + wordSum (l.take (2 * n)) := by
  induction n generalizing s l with
  | zero => exact (Nat.add_zero s).symm
  | succ n ih =>
    match l, hlen with
    | lo :: hi :: l, hlen =>
      have hle := word_le lo hi
      rw [List.length_cons, List.length_cons] at hlen
      rw [addUnrolled, addWord_eq (by omega), ih (by omega) (by omega)]
      have htake : (lo :: hi :: l).take (2 * (n + 1)) = lo :: hi :: l.take (2 * n) := rfl
      rw [htake, wordSum, Nat.add_assoc]

/-- A loop adds up an even number of bytes, and fewer than it takes at a time remain. -/
theorem blocks_spec {n fuel : ℕ} (hn : 0 < n) (hfuel : l.length ≤ fuel)
    (hs : 2 * s + 65535 * l.length < 2 * 4294967296) :
    ∃ u, l = u ++ (blocks n fuel s l).2 ∧ u.length % 2 = 0 ∧
      (blocks n fuel s l).1 = s + wordSum u ∧ (blocks n fuel s l).2.length < 2 * n := by
  induction fuel generalizing s l with
  | zero =>
    refine ⟨[], rfl, rfl, rfl, ?_⟩
    change l.length < 2 * n
    omega
  | succ fuel ih =>
    rw [blocks]
    split_ifs with hshort
    · exact ⟨[], rfl, rfl, rfl, hshort⟩
    · have htake : (l.take (2 * n)).length = 2 * n := by
        rw [List.length_take]
        omega
      have hdrop : (l.drop (2 * n)).length = l.length - 2 * n := List.length_drop
      have hword := wordSum_even (l := l.take (2 * n)) (by omega)
      rw [addUnrolled_eq (by omega) (by omega)]
      obtain ⟨u, heq, heven, hsum, hrest⟩ := ih (s := s + wordSum (l.take (2 * n)))
        (l := l.drop (2 * n)) (by omega) (by omega)
      refine ⟨l.take (2 * n) ++ u, ?_, ?_, ?_, hrest⟩
      · rw [List.append_assoc, ← heq, List.take_append_drop]
      · rw [List.length_append]
        omega
      · rw [hsum, wordSum_append (by omega), Nat.add_assoc]

theorem unrolled_spec (hs : 2 * s + 65535 * l.length < 2 * 4294967296) :
    ∃ u, l = u ++ (unrolled s l).2 ∧ u.length % 2 = 0 ∧ (unrolled s l).1 = s + wordSum u := by
  obtain ⟨u, heq, heven, hsum, -⟩ := blocks_spec (n := 16) (by decide) (Nat.le_refl l.length) hs
  have hword := wordSum_even heven
  have hlength := congrArg List.length heq
  rw [List.length_append] at hlength
  obtain ⟨u', heq', heven', hsum', -⟩ := blocks_spec (n := 4)
    (s := (blocks 16 l.length s l).1) (l := (blocks 16 l.length s l).2) (by decide) (Nat.le_refl _)
    (by omega)
  refine ⟨u ++ u', ?_, ?_, ?_⟩
  · change l = u ++ u' ++ (blocks 4 _ _ _).2
    rw [List.append_assoc, ← heq', ← heq]
  · rw [List.length_append]
    omega
  · change (blocks 4 _ _ _).1 = _
    rw [hsum', hsum, wordSum_append heven, Nat.add_assoc]

theorem addRest_spec (hs : s < 4294967296) (hlen : l.length ≤ 65535) :
    ∃ u, l = u ++ (addRest s l).2 ∧ u.length % 2 = 0 ∧
      (addRest s l).1 = reduceHalves s + wordSum u ∧ (addRest s l).2.length < 2 := by
  have hle := (alike_reduceHalves hs).2
  exact blocks_spec (by decide) (Nat.le_refl _) (by omega)

/-- The sum of the portable routine is folded now and then. -/
def FoldedPortable (s t n : ℕ) : Prop := Alike s t ∧ s ≤ 65535 * (256 + n / 2)

theorem FoldedPortable.lt {n : ℕ} (h : FoldedPortable s t n) (hn : n ≤ 65536) :
    s < 4294967296 := by
  have hle := h.2
  omega

theorem foldedPortable_evenPiece {n : ℕ} (heven : n % 2 = 0) (hlen : n + l.length ≤ 65535)
    (h : FoldedPortable s t n) :
    ((evenPiece s l).2.isSome = true ↔ l.length % 2 = 1) ∧
      ∃ t', t' + leftover (evenPiece s l).2 = t + wordSum l ∧
        FoldedPortable (evenPiece s l).1 t' (n + l.length) := by
  obtain ⟨halike, hle⟩ := h
  obtain ⟨u, heq, hu, hsum⟩ := unrolled_spec (s := s) (l := l) (by omega)
  have hword := wordSum_even hu
  have hlength := congrArg List.length heq
  rw [List.length_append] at hlength
  unfold evenPiece
  dsimp only
  by_cases hnil : (unrolled s l).2 = []
  · rw [if_pos hnil]
    rw [hnil, List.append_nil] at heq
    subst heq
    refine ⟨iff_of_false Bool.false_ne_true (by omega), t + wordSum l, rfl, ?_, ?_⟩
    · dsimp only
      rw [hsum]
      exact halike.add _
    · dsimp only
      rw [hsum]
      omega
  · rw [if_neg hnil]
    obtain ⟨u', heq', hu', hsum', hshort⟩ := addRest_spec (s := (unrolled s l).1)
      (l := (unrolled s l).2) (by omega) (by omega)
    have hword' := wordSum_even hu'
    have hfold := alike_reduceHalves (s := (unrolled s l).1) (by omega)
    have hlength' := congrArg List.length heq'
    rw [List.length_append] at hlength'
    dsimp only
    generalize addRest (unrolled s l).1 (unrolled s l).2 = r at *
    obtain ⟨sum, rest⟩ := r
    have htotal : l = u ++ u' ++ rest := by
      rw [List.append_assoc, ← heq', ← heq]
    have halike' : Alike sum (t + wordSum (u ++ u')) := by
      change sum = _ at hsum'
      rw [hsum', wordSum_append hu, ← Nat.add_assoc]
      refine (hfold.1.add _).trans (Alike.add ?_ _)
      rw [hsum]
      exact halike.add _
    have huu : (u ++ u').length % 2 = 0 := by
      rw [List.length_append]
      omega
    have hbound : sum ≤ 65535 * (256 + (n + l.length) / 2) := by
      change sum = _ at hsum'
      omega
    change rest.length < 2 at hshort
    match rest, hshort with
    | [], _ =>
      rw [List.append_nil] at htotal
      rw [htotal] at hbound ⊢
      exact ⟨iff_of_false Bool.false_ne_true (by omega), t + wordSum (u ++ u'), rfl, halike',
        hbound⟩
    | [b], _ =>
      have hodd : l.length % 2 = 1 := by
        rw [htotal, List.length_append, List.length_singleton]
        omega
      refine ⟨iff_of_true rfl hodd, t + wordSum (u ++ u'), ?_, halike', hbound⟩
      rw [htotal, wordSum_append huu, ← Nat.add_assoc]
      exact congrArg (_ + ·) (word_zero b).symm

/-- Between the two shifts the words that are added have their bytes in each other's places. -/
theorem foldedPortable_oddPiece {n : ℕ} {b : UInt8} (heven : n % 2 = 0)
    (hlen : n + (l.length + 1) ≤ 65535) (h : FoldedPortable s t n) :
    ((oddPiece s b l).2.isSome = true ↔ (l.length + 1) % 2 = 1) ∧
      ∃ t', t' + leftover (oddPiece s b l).2 = t + wordSum (b :: l) ∧
        FoldedPortable (oddPiece s b l).1 t' (n + (l.length + 1)) := by
  have hs := h.lt (by omega)
  obtain ⟨halike, -⟩ := h
  obtain ⟨hfold, hle⟩ := alike_reduceHalves hs
  have hshift := shiftUp_eq hs
  obtain ⟨u, heq, hu, hsum⟩ := unrolled_spec (s := shiftUp s) (l := l) (by omega)
  have hword := wordSum_even hu
  have hlength := congrArg List.length heq
  rw [List.length_append] at hlength
  obtain ⟨u', heq', hu', hsum', hshort⟩ := addRest_spec (s := (unrolled (shiftUp s) l).1)
    (l := (unrolled (shiftUp s) l).2) (by omega) (by omega)
  have hword' := wordSum_even hu'
  obtain ⟨hfold₁, hle₁⟩ := alike_reduceHalves (s := (unrolled (shiftUp s) l).1) (by omega)
  have hlength' := congrArg List.length heq'
  rw [List.length_append] at hlength'
  unfold oddPiece
  dsimp only
  generalize addRest (unrolled (shiftUp s) l).1 (unrolled (shiftUp s) l).2 = r at *
  obtain ⟨sum, rest⟩ := r
  change sum = _ at hsum'
  change rest.length < 2 at hshort
  obtain ⟨hfold₂, hle₂⟩ := alike_reduceHalves (s := sum) (by omega)
  have hshift₂ := shiftUp_eq (s := sum) (by omega)
  have htotal : l = u ++ u' ++ rest := by
    rw [List.append_assoc, ← heq', ← heq]
  have huu : (u ++ u').length % 2 = 0 := by
    rw [List.length_append]
    omega
  -- the shifts turn the words into those with their bytes in place
  have hcross : Alike (shiftUp sum) (t + crossSum (u ++ u')) := by
    have hadded : Alike (reduceHalves sum) (256 * reduceHalves s + wordSum (u ++ u')) := by
      apply hfold₂.trans
      rw [hsum', wordSum_append hu, ← Nat.add_assoc, ← hshift, ← hsum]
      exact hfold₁.add _
    have hswap := (alike_crossSum huu).add (reduceHalves s)
    rw [Nat.add_comm, Nat.add_comm _ (reduceHalves s)] at hswap
    rw [hshift₂]
    apply hadded.shift.trans
    apply (alike_shift _ _).trans
    exact hswap.trans ((hfold.trans halike).add _)
  have hwords := wordSum_cons b l
  match rest, hshort with
  | [], _ =>
    rw [List.append_nil] at htotal
    dsimp only
    refine ⟨iff_of_true rfl ?_, t + crossSum (u ++ u'), ?_, hcross, ?_⟩
    · rw [htotal]
      omega
    · rw [hwords, htotal]
      change t + crossSum (u ++ u') + b.toNat = _
      omega
    · omega
  | [last], _ =>
    have hlast : crossSum l = crossSum (u ++ u') + 256 * last.toNat := by
      rw [htotal, crossSum_append huu]
      rfl
    have hlastWord : word b last = b.toNat + 256 * last.toNat := rfl
    have hle₃ := word_le b last
    have hodd : (l.length + 1) % 2 = 0 := by
      rw [htotal, List.length_append, List.length_singleton]
      omega
    dsimp only
    rw [addWord_eq (by omega)]
    refine ⟨iff_of_false Bool.false_ne_true (by omega), t + wordSum (b :: l), rfl, ?_, ?_⟩
    · have hadd := hcross.add (word b last)
      have hnum : t + crossSum (u ++ u') + word b last = t + wordSum (b :: l) := by omega
      rw [hnum] at hadd
      exact hadd
    · omega

theorem summerPortable_sound : summerPortable.Sound FoldedPortable where
  start := ⟨alike_refl 0, Nat.zero_le _⟩
  spanning s t n w hw hodd hn h := by
    have hle := h.2
    have heq : summerPortable.spanning s w = s + w := addWord_eq (by omega)
    rw [heq]
    exact ⟨h.1.add w, by omega⟩
  piece s t n odd l heven hlen h := by
    cases odd with
    | false => exact foldedPortable_evenPiece heven hlen h
    | true =>
      cases l with
      | nil => exact foldedPortable_evenPiece heven hlen h
      | cons b l => exact foldedPortable_oddPiece heven hlen h
  result s t n hn h :=
    have hfold := alike_reduceHalves (h.lt hn)
    ⟨_, rfl, hfold.2, hfold.1.trans h.1⟩

/-! ## The inline routine -/

/-- What `adcl` has added up, with the carry, is a sum of longs in ones' complement. -/
def FoldedLong (y : ℕ × ℕ) (t : ℕ) : Prop :=
  (y.1 + y.2) % 4294967295 = t % 4294967295 ∧ (y.1 + y.2 = 0 ↔ t = 0) ∧ y.1 + y.2 ≤ 4294967295

theorem foldedLong_adcl {y : ℕ × ℕ} {a : ℕ} (h : FoldedLong y t) (ha : a < 4294967296) :
    FoldedLong (adcl y a) (t + a) := by
  obtain ⟨hmod, hzero, hle⟩ := h
  unfold FoldedLong adcl
  dsimp only
  have hcarry : (y.1 + a + y.2) / 4294967296 ≤ 1 := by omega
  refine ⟨?_, ?_, ?_⟩
  · omega
  · omega
  · omega

theorem long_lt (ip : List UInt8) (i : ℕ) : long ip i < 4294967296 := by
  have hlow := word_le (ip.getD (4 * i) 0) (ip.getD (4 * i + 1) 0)
  have hhigh := word_le (ip.getD (4 * i + 2) 0) (ip.getD (4 * i + 3) 0)
  unfold long
  omega

/-- The sum of the first longs of a header. -/
def longSum : ℕ → List UInt8 → ℕ
  | 0, _ => 0
  | n + 1, ip => longSum n ip + long ip n

theorem long_drop (ip : List UInt8) (i : ℕ) : long (ip.drop 4) i = long ip (i + 1) := by
  have hget : ∀ k, (ip.drop 4).getD k 0 = ip.getD (4 + k) 0 := by
    intro k
    rw [List.getD_eq_getElem?_getD, List.getD_eq_getElem?_getD, List.getElem?_drop]
  have hindex : ∀ k, 4 + (4 * i + k) = 4 * (i + 1) + k := by
    intro k
    omega
  unfold long
  rw [hget, hget, hget, hget, hindex, hindex, hindex]
  exact congrArg (fun k ↦ word (ip.getD k 0) _ + _) (hindex 0)

theorem longSum_succ (n : ℕ) (ip : List UInt8) :
    longSum (n + 1) ip = long ip 0 + longSum n (ip.drop 4) := by
  induction n with
  | zero => exact Nat.add_comm _ _
  | succ n ih => rw [longSum, ih, longSum, long_drop, Nat.add_assoc]

theorem alike_longSum {n : ℕ} {ip : List UInt8} (hlen : ip.length = 4 * n) :
    Alike (longSum n ip) (wordSum ip) := by
  induction n generalizing ip with
  | zero =>
    rw [List.length_eq_zero_iff.mp hlen]
    exact alike_refl 0
  | succ n ih =>
    match ip, hlen with
    | a :: b :: c :: d :: ip, hlen =>
      have hrest : ip.length = 4 * n := by
        rw [List.length_cons, List.length_cons, List.length_cons, List.length_cons] at hlen
        omega
      obtain ⟨hmod, hzero⟩ := ih hrest
      have hfirst : long (a :: b :: c :: d :: ip) 0 = word a b + 65536 * word c d := rfl
      have hdrop : (a :: b :: c :: d :: ip).drop 4 = ip := rfl
      rw [longSum_succ, hdrop, hfirst, wordSum, wordSum]
      constructor
      · omega
      · omega

theorem inCksumiphdr_eq {ip : List UInt8} (hlen : ip.length = 20) :
    inCksumiphdr ip = 65535 - onesSum ip := by
  have hstart : FoldedLong (long ip 0, 0) (longSum 1 ip) := by
    have hlt := long_lt ip 0
    have hone : longSum 1 ip = long ip 0 := Nat.zero_add _
    rw [hone]
    exact ⟨rfl, Iff.rfl, by omega⟩
  have hfolded := foldedLong_adcl (foldedLong_adcl (foldedLong_adcl (foldedLong_adcl hstart
    (long_lt ip 1)) (long_lt ip 2)) (long_lt ip 3)) (long_lt ip 4)
  change FoldedLong _ (longSum 5 ip) at hfolded
  have hsum := (alike_longSum (n := 5) hlen).trans (alike_onesSum ip).symm
  have hle := onesSum_le ip
  unfold inCksumiphdr
  generalize adcl (adcl (adcl (adcl (long ip 0, 0) (long ip 1)) (long ip 2)) (long ip 3))
    (long ip 4) = y at hfolded
  obtain ⟨hmod, hzero, hlong⟩ := hfolded
  have hacc : (adcl y 0).1 = y.1 + y.2 := by
    unfold adcl
    dsimp only
    omega
  have halike : Alike (y.1 + y.2) (onesSum ip) := by
    refine Alike.trans ⟨?_, hzero⟩ hsum
    omega
  dsimp only
  rw [hacc]
  generalize y.1 + y.2 = acc at halike hlong
  have hfold : (adcw (adcw (acc % 65536, 0) (acc / 65536)) 0).1 = reduceHalves acc := by
    unfold adcw reduceHalves
    dsimp only
    have hsmall : acc % 65536 + acc / 65536 ≤ 131070 := by omega
    generalize acc % 65536 + acc / 65536 = halves at hsmall
    split_ifs
    · omega
    · omega
  have hreduce := alike_reduceHalves (s := acc) (by omega)
  rw [hfold, (hreduce.1.trans halike).eq hreduce.2 hle]

/-! ## Agreement -/

/-- On every chain, and for every length within it, both routines give the complement of the sum of
the first bytes in ones' complement; the inline one does on every header without options. -/
theorem checksums_agree (chain : List CksumMbuf) (len : ℕ) (hlen : len ≤ 65535)
    (_ : len ≤ (bytes chain).length) :
    inCksum chain len = 65535 - onesSum ((bytes chain).take len) ∧
      inCksumI386 chain len = 65535 - onesSum ((bytes chain).take len) ∧
      ∀ ip, ip.length = 20 → inCksumiphdr ip = 65535 - onesSum ip := by
  have hodd : (none : Option UInt8).isSome = true ↔ ([] : List UInt8).length % 2 = 1 :=
    iff_of_false Bool.false_ne_true Nat.zero_ne_one
  have hportable : Carries FoldedPortable 0 none [] := ⟨hodd, 0, rfl, summerPortable_sound.start⟩
  have hi386 : Carries FoldedI386 0 none [] := ⟨hodd, 0, rfl, summerI386_sound.start⟩
  have hwithin : ([] : List UInt8).length + len ≤ 65535 := by
    rw [List.length_nil]
    omega
  refine ⟨?_, ?_, fun ip hip ↦ inCksumiphdr_eq hip⟩
  · exact summerPortable_sound.cksumLoop hportable hwithin
  · exact summerI386_sound.cksumLoop hi386 hwithin

/-- Seven bytes in four mbufs, at even and odd addresses, and a header. -/
theorem checksums_agree_seven :
    inCksum [⟨true, [1, 2, 3]⟩, ⟨false, []⟩, ⟨true, [4]⟩, ⟨false, [5, 6, 7]⟩] 7 = 62447 ∧
      inCksumI386 [⟨true, [1, 2, 3]⟩, ⟨false, []⟩, ⟨true, [4]⟩, ⟨false, [5, 6, 7]⟩] 7 = 62447 :=
  have hagree := checksums_agree
    [⟨true, [1, 2, 3]⟩, ⟨false, []⟩, ⟨true, [4]⟩, ⟨false, [5, 6, 7]⟩] 7 (by decide) (by decide)
  ⟨hagree.1.trans (by decide), hagree.2.1.trans (by decide)⟩

end Bsd386.Inet
