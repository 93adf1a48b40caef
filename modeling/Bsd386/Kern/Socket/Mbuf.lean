import Mathlib.Data.List.Basic

/-!
# Chains of buffers

`kern/socket/mbuf.c` keeps the bytes of a packet in a chain of buffers. What matters here is the
bytes that a buffer holds, how many more fit behind them, and whether they are kept outside of the
buffer itself.
-/

namespace Bsd386.Kern.Socket

variable {B : Type}

/-- `struct mbuf`: the bytes at `m_data`, the room behind them, and `M_EXT`. -/
structure Mbuf (B : Type) where
  mData : List B
  room : ℕ
  ext : Bool
  deriving DecidableEq

namespace Mbuf

/-- The bytes of a chain. -/
def bytes (chain : List (Mbuf B)) : List B := chain.flatMap mData

@[simp]
theorem bytes_nil : bytes ([] : List (Mbuf B)) = [] := rfl

@[simp]
theorem bytes_cons (m : Mbuf B) (chain : List (Mbuf B)) :
    bytes (m :: chain) = m.mData ++ bytes chain :=
  List.flatMap_cons

/-- The loop of `m_adj` that trims bytes from the front. -/
def mAdj : List (Mbuf B) → ℕ → List (Mbuf B)
  | [], _ => []
  | m :: chain, len =>
    if len = 0 then m :: chain
    else if m.mData.length ≤ len then
      { m with mData := [], room := m.room + m.mData.length } :: mAdj chain (len - m.mData.length)
    else { m with mData := m.mData.drop len } :: chain

theorem bytes_mAdj (chain : List (Mbuf B)) (len : ℕ) :
    bytes (mAdj chain len) = (bytes chain).drop len := by
  induction chain generalizing len with
  | nil => rw [mAdj, bytes_nil, List.drop_nil]
  | cons m chain ih =>
    rw [mAdj, bytes_cons, List.drop_append]
    split_ifs with hzero hle
    · rw [hzero, Nat.zero_sub, List.drop_zero, List.drop_zero, bytes_cons]
    · rw [bytes_cons, ih, List.drop_eq_nil_of_le hle]
    · rw [bytes_cons, Nat.sub_eq_zero_of_le (Nat.le_of_lt (Nat.lt_of_not_le hle)), List.drop_zero]

/-- The loop of `m_cat`: copy the next buffer into the last one while there is room. -/
def splat (m : Mbuf B) : List (Mbuf B) → List (Mbuf B)
  | [] => [m]
  | n :: chain =>
    if m.ext ∨ m.room ≤ n.mData.length then m :: n :: chain
    else splat { m with mData := m.mData ++ n.mData, room := m.room - n.mData.length } chain

theorem bytes_splat (m : Mbuf B) (chain : List (Mbuf B)) :
    bytes (splat m chain) = m.mData ++ bytes chain := by
  induction chain generalizing m with
  | nil => rw [splat, bytes_cons]
  | cons n chain ih =>
    rw [splat]
    split_ifs
    · rw [bytes_cons]
    · rw [ih, bytes_cons, List.append_assoc]

/-- `m_cat` -/
def mCat : List (Mbuf B) → List (Mbuf B) → List (Mbuf B)
  | [], n => n
  | [m], n => splat m n
  | m :: m' :: chain, n => m :: mCat (m' :: chain) n

theorem bytes_mCat (chain n : List (Mbuf B)) : bytes (mCat chain n) = bytes chain ++ bytes n := by
  induction chain with
  | nil => rw [mCat, bytes_nil, List.nil_append]
  | cons m chain ih =>
    cases chain with
    | nil => rw [mCat, bytes_splat, bytes_cons, bytes_nil, List.append_nil]
    | cons m' chain => rw [mCat, bytes_cons, ih, bytes_cons m, List.append_assoc]

end Mbuf

end Bsd386.Kern.Socket
