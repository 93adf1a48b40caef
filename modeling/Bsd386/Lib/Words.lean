import Mathlib.Algebra.Ring.Nat
import Mathlib.Data.Nat.Notation

/-!
# Words in memory

Memory as bytes, with words of four bytes of which the first one is the lowest.
-/

namespace Bsd386

/-- The bytes at all addresses. -/
abbrev Memory := ℕ → BitVec 8

namespace Memory

variable {m m' : Memory} {a x v n : ℕ} {c : BitVec 8}

/-- Write a byte. -/
def set (m : Memory) (a : ℕ) (c : BitVec 8) : Memory := fun x ↦ if x = a then c else m x

/-- Read a word. -/
def word (m : Memory) (a : ℕ) : ℕ :=
  (m a).toNat + 2 ^ 8 * (m (a + 1)).toNat + 2 ^ 16 * (m (a + 2)).toNat + 2 ^ 24 * (m (a + 3)).toNat

/-- Write a word. -/
def setWord (m : Memory) (a v : ℕ) : Memory := fun x ↦
  if a ≤ x ∧ x < a + 4 then BitVec.ofNat 8 (v >>> (8 * (x - a))) else m x

/-- Copy bytes, of which the old and the new places may overlap. -/
def copy (m : Memory) (src dst n : ℕ) : Memory := fun x ↦
  if dst ≤ x ∧ x < dst + n then m (x - dst + src) else m x

theorem set_self : m.set a c a = c := if_pos rfl

theorem set_of_ne (hx : x ≠ a) : m.set a c x = m x := if_neg hx

theorem setWord_of_lt (hx : x < a) : m.setWord a v x = m x := if_neg fun h ↦ Nat.not_le.mpr hx h.1

theorem setWord_of_le (hx : a + 4 ≤ x) : m.setWord a v x = m x :=
  if_neg fun h ↦ Nat.not_lt.mpr hx h.2

theorem setWord_add {i : ℕ} (hi : i < 4) :
    m.setWord a v (a + i) = BitVec.ofNat 8 (v >>> (8 * i)) := by
  rw [setWord, if_pos (by omega), Nat.add_sub_cancel_left]

theorem copy_add {src dst i : ℕ} (hi : i < n) : m.copy src dst n (dst + i) = m (src + i) := by
  rw [copy, if_pos (by omega), Nat.add_sub_cancel_left, Nat.add_comm]

theorem copy_of_outside {src dst : ℕ} (hx : x < dst ∨ dst + n ≤ x) : m.copy src dst n x = m x :=
  if_neg (by omega)

/-- A word depends on its bytes only. -/
theorem word_congr (h : ∀ x, a ≤ x → x < a + 4 → m' x = m x) : m'.word a = m.word a := by
  rw [word, word, h a (by omega) (by omega), h (a + 1) (by omega) (by omega),
    h (a + 2) (by omega) (by omega), h (a + 3) (by omega) (by omega)]

/-- A word that was written is read again. -/
theorem word_setWord (hv : v < 2 ^ 32) : (m.setWord a v).word a = v := by
  have hfirst : m.setWord a v a = BitVec.ofNat 8 (v >>> (8 * 0)) := setWord_add (i := 0) (by decide)
  rw [word, hfirst, setWord_add (i := 1) (by decide), setWord_add (i := 2) (by decide),
    setWord_add (i := 3) (by decide)]
  simp only [BitVec.toNat_ofNat, Nat.shiftRight_eq_div_pow]
  omega

/-- Cleared bytes are the word 0. -/
theorem word_eq_zero (h : ∀ x, a ≤ x → x < a + 4 → m x = 0) : m.word a = 0 := by
  rw [word, h a (by omega) (by omega), h (a + 1) (by omega) (by omega),
    h (a + 2) (by omega) (by omega), h (a + 3) (by omega) (by omega)]
  rfl

end Memory

end Bsd386
