import Mathlib.Data.Nat.Sqrt
import Mathlib.Tactic.Ring
import Mathlib.Tactic.Linarith

/-!
# The square root, digit by digit

The binary digits of a root are found from the highest down.  At each place the number is split
into the square of the digits so far and a rest too small for those digits to be one larger.
-/

namespace KairosEngine.Library

theorem four_pow (place : Nat) : 4 ^ place = (2 ^ place) ^ 2 := by
  rw [← pow_mul, mul_comm, pow_mul]
  norm_num

/-- The digits above a place, and what their square leaves of the number. -/
structure PartialRoot (whole place root rest : Nat) : Prop where
  split : whole = root ^ 2 * 4 ^ place + rest
  below : rest < (2 * root + 1) * 4 ^ place

namespace PartialRoot

variable {whole place root rest : Nat}

theorem start (small : whole < 4 ^ place) : PartialRoot whole place 0 whole where
  split := by simp
  below := by simpa using small

/-- The next digit is one when its square fits the rest. -/
theorem one (partialRoot : PartialRoot whole (place + 1) root rest)
    (fits : (4 * root + 1) * 4 ^ place ≤ rest) :
    PartialRoot whole place (2 * root + 1) (rest - (4 * root + 1) * 4 ^ place) where
  split := by
    have square : (2 * root + 1) ^ 2 * 4 ^ place
        = root ^ 2 * 4 ^ (place + 1) + (4 * root + 1) * 4 ^ place := by ring
    have split := partialRoot.split
    omega
  below := by
    have wide : (2 * root + 1) * 4 ^ (place + 1)
        = (2 * (2 * root + 1) + 1) * 4 ^ place + (4 * root + 1) * 4 ^ place := by ring
    have below := partialRoot.below
    omega

theorem zero (partialRoot : PartialRoot whole (place + 1) root rest)
    (small : rest < (4 * root + 1) * 4 ^ place) :
    PartialRoot whole place (2 * root) rest where
  split := by
    rw [partialRoot.split]
    ring
  below := by
    calc rest < (4 * root + 1) * 4 ^ place := small
      _ = (2 * (2 * root) + 1) * 4 ^ place := by ring

/-- With every digit found the root is the floor of the square root. -/
theorem sqrt_eq (partialRoot : PartialRoot whole 0 root rest) : Nat.sqrt whole = root := by
  have split := partialRoot.split
  have below := partialRoot.below
  rw [pow_zero, mul_one] at split below
  rw [split, pow_two]
  exact Nat.sqrt_add_eq root (by omega)

/-- The digits and a one more are within the square root of a power that bounds the number. -/
theorem succ_mul_le {high : Nat} (partialRoot : PartialRoot whole place root rest)
    (bounded : whole < 4 ^ high) (inside : place ≤ high) : (root + 1) * 2 ^ place ≤ 2 ^ high := by
  have square : (root * 2 ^ place) ^ 2 < (2 ^ high) ^ 2 := by
    calc (root * 2 ^ place) ^ 2
        = root ^ 2 * 4 ^ place := by rw [mul_pow, four_pow]
      _ ≤ whole := by rw [partialRoot.split]; exact Nat.le_add_right _ _
      _ < 4 ^ high := bounded
      _ = (2 ^ high) ^ 2 := four_pow high
  have less : root * 2 ^ place < 2 ^ (high - place) * 2 ^ place := by
    rw [← pow_add, Nat.sub_add_cancel inside]
    exact lt_of_pow_lt_pow_left₀ 2 (Nat.zero_le _) square
  have digits : root + 1 ≤ 2 ^ (high - place) := Nat.lt_of_mul_lt_mul_right less
  calc (root + 1) * 2 ^ place ≤ 2 ^ (high - place) * 2 ^ place := Nat.mul_le_mul_right _ digits
    _ = 2 ^ high := by rw [← pow_add, Nat.sub_add_cancel inside]

end PartialRoot

end KairosEngine.Library
