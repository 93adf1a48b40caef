import Mathlib.Data.Int.Init

/-!
# Sequence numbers

Numbers of 32 bits whose differences are taken with a sign. Differences add up as long as they stay
below half of the numbers.
-/

namespace Bsd386.Sequence

/-- The difference of two numbers. -/
def diff (a b : BitVec 32) : ℤ := (a - b).toInt

/-- A difference that 32 bits with a sign can hold. -/
def InRange (i : ℤ) : Prop := -2147483648 ≤ i ∧ i < 2147483648

variable {a b c : BitVec 32} {i : ℤ} {n : ℕ}

theorem toInt_ofInt (hi : InRange i) : (BitVec.ofInt 32 i).toInt = i := by
  rw [BitVec.toInt_ofInt]
  unfold InRange at hi
  exact Int.bmod_eq_of_le (by omega) (by omega)

theorem inRange_diff : InRange (diff a b) := by
  have hlow := BitVec.le_toInt (a - b)
  have hhigh := BitVec.toInt_lt (x := a - b)
  unfold InRange diff
  omega

/-- A number is what its difference says. -/
theorem eq_add_diff (a b : BitVec 32) : a = b + BitVec.ofInt 32 (diff a b) := by
  rw [diff, BitVec.ofInt_toInt]
  bv_omega

theorem diff_add_ofInt (hi : InRange i) : diff (a + BitVec.ofInt 32 i) a = i := by
  have hsub : a + BitVec.ofInt 32 i - a = BitVec.ofInt 32 i := by bv_omega
  rw [diff, hsub, toInt_ofInt hi]

/-- Both numbers are compared with a third one. -/
theorem diff_sub_diff (hrange : InRange (diff a c - diff b c)) :
    diff a b = diff a c - diff b c := by
  have hsum : a - b = BitVec.ofInt 32 (diff a c - diff b c) := by
    rw [Int.sub_eq_add_neg, BitVec.ofInt_add, BitVec.ofInt_neg, diff, diff, BitVec.ofInt_toInt,
      BitVec.ofInt_toInt]
    bv_omega
  rw [diff, hsum, toInt_ofInt hrange]

theorem diff_add_left (hrange : InRange (diff a b + i)) :
    diff (a + BitVec.ofInt 32 i) b = diff a b + i := by
  have hsum : a + BitVec.ofInt 32 i - b = BitVec.ofInt 32 (diff a b + i) := by
    rw [BitVec.ofInt_add, diff, BitVec.ofInt_toInt]
    bv_omega
  rw [diff, hsum, toInt_ofInt hrange]

theorem diff_add_right (hrange : InRange (diff a b - i)) :
    diff a (b + BitVec.ofInt 32 i) = diff a b - i := by
  have hsum : a - (b + BitVec.ofInt 32 i) = BitVec.ofInt 32 (diff a b - i) := by
    rw [Int.sub_eq_add_neg, BitVec.ofInt_add, BitVec.ofInt_neg, diff, BitVec.ofInt_toInt]
    bv_omega
  rw [diff, hsum, toInt_ofInt hrange]

theorem diff_add_nat (hrange : InRange (diff a b + n)) :
    diff (a + BitVec.ofNat 32 n) b = diff a b + n := by
  rw [← BitVec.ofInt_natCast]
  exact diff_add_left hrange

theorem diff_nat_right (hrange : InRange (diff a b - n)) :
    diff a (b + BitVec.ofNat 32 n) = diff a b - n := by
  rw [← BitVec.ofInt_natCast]
  exact diff_add_right hrange

theorem diff_self : diff a a = 0 := by
  have hsub : a - a = 0#32 := by bv_omega
  rw [diff, hsub]
  rfl

theorem diff_eq_zero_iff : diff a b = 0 ↔ a = b := by
  constructor
  · intro hzero
    have hsplit := eq_add_diff a b
    rw [hzero] at hsplit
    simpa using hsplit
  · rintro rfl
    exact diff_self

end Bsd386.Sequence
