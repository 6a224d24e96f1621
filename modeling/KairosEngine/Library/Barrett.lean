import Mathlib.Algebra.Order.Ring.Nat
import Mathlib.Tactic.Ring

/-!
# Barrett reduction

A quotient estimated by two shifts and one multiplication with a reciprocal.  Both shifts round
down and so does the reciprocal, which costs at most two of the quotient.
-/

namespace KairosEngine.Library

/-- The quotient estimate, with `2 ^ low` dropped before and `2 ^ high` after the product. -/
def barrettQuotient (low high mu x : Nat) : Nat := x / 2 ^ low * mu / 2 ^ high

/-- A subtraction that is made where it does not go below zero. -/
def condSub (modulus value : Nat) : Nat := if modulus ≤ value then value - modulus else value

section Bounds

variable {low high modulus x : Nat}

theorem barrettQuotient_mul_le :
    barrettQuotient low high (2 ^ (low + high) / modulus) x * modulus ≤ x := by
  apply Nat.le_of_mul_le_mul_right _ (Nat.two_pow_pos high)
  calc barrettQuotient low high (2 ^ (low + high) / modulus) x * modulus * 2 ^ high
      = barrettQuotient low high (2 ^ (low + high) / modulus) x * 2 ^ high * modulus := by ring
    _ ≤ x / 2 ^ low * (2 ^ (low + high) / modulus) * modulus :=
        Nat.mul_le_mul_right _ (Nat.div_mul_le_self _ _)
    _ = x / 2 ^ low * (2 ^ (low + high) / modulus * modulus) := by ring
    _ ≤ x / 2 ^ low * 2 ^ (low + high) := Nat.mul_le_mul_left _ (Nat.div_mul_le_self _ _)
    _ = x / 2 ^ low * 2 ^ low * 2 ^ high := by ring
    _ ≤ x * 2 ^ high := Nat.mul_le_mul_right _ (Nat.div_mul_le_self _ _)

/-- The three roundings leave less than three times the modulus. -/
theorem lt_barrettQuotient (positive : 0 < modulus) (large : 2 ^ low ≤ modulus)
    (small : x < 2 ^ (low + high)) :
    x < barrettQuotient low high (2 ^ (low + high) / modulus) x * modulus + 3 * modulus := by
  have dropped : x < x / 2 ^ low * 2 ^ low + 2 ^ low := Nat.lt_div_mul_add (Nat.two_pow_pos low)
  have reciprocal : 2 ^ (low + high) ≤ 2 ^ (low + high) / modulus * modulus + modulus :=
    (Nat.lt_div_mul_add positive).le
  have estimate : x / 2 ^ low * (2 ^ (low + high) / modulus) ≤
      barrettQuotient low high (2 ^ (low + high) / modulus) x * 2 ^ high + 2 ^ high :=
    (Nat.lt_div_mul_add (Nat.two_pow_pos high)).le
  have front : x / 2 ^ low ≤ 2 ^ high := by
    apply (Nat.div_lt_of_lt_mul _).le
    rwa [← pow_add]
  generalize barrettQuotient low high (2 ^ (low + high) / modulus) x = quotient at *
  generalize 2 ^ (low + high) / modulus = mu at *
  generalize x / 2 ^ low = shifted at *
  apply Nat.lt_of_mul_lt_mul_right (a := 2 ^ high)
  calc x * 2 ^ high
      < (shifted * 2 ^ low + 2 ^ low) * 2 ^ high :=
        Nat.mul_lt_mul_of_pos_right dropped (Nat.two_pow_pos high)
    _ = shifted * 2 ^ (low + high) + 2 ^ low * 2 ^ high := by ring
    _ ≤ shifted * (mu * modulus + modulus) + modulus * 2 ^ high :=
        Nat.add_le_add (Nat.mul_le_mul_left _ reciprocal) (Nat.mul_le_mul_right _ large)
    _ = shifted * mu * modulus + shifted * modulus + modulus * 2 ^ high := by ring
    _ ≤ (quotient * 2 ^ high + 2 ^ high) * modulus + 2 ^ high * modulus + modulus * 2 ^ high := by
        apply Nat.add_le_add_right
        exact Nat.add_le_add (Nat.mul_le_mul_right _ estimate) (Nat.mul_le_mul_right _ front)
    _ = (quotient * modulus + 3 * modulus) * 2 ^ high := by ring

/-- One subtraction brings a sum below the modulus. -/
theorem condSub_mod {remainder : Nat} (below : remainder < 2 * modulus) :
    condSub modulus remainder = remainder % modulus := by
  rw [condSub]
  split
  next once =>
    have rest : remainder - modulus < modulus := by omega
    rw [Nat.mod_eq_sub_mod once, Nat.mod_eq_of_lt rest]
  next settled => exact (Nat.mod_eq_of_lt (Nat.lt_of_not_le settled)).symm

theorem condSub_condSub {remainder : Nat} (below : remainder < 3 * modulus) :
    condSub modulus (condSub modulus remainder) = remainder % modulus := by
  by_cases once : modulus ≤ remainder
  · have rest : remainder - modulus < 2 * modulus := by omega
    rw [condSub.eq_def modulus remainder, if_pos once, condSub_mod rest, Nat.mod_eq_sub_mod once]
  · have settled : remainder < 2 * modulus := by omega
    rw [condSub.eq_def modulus remainder, if_neg once, condSub_mod settled]

/-- The remainder of the estimate, brought down by two subtractions, is the remainder. -/
theorem barrett_mod (positive : 0 < modulus) (large : 2 ^ low ≤ modulus)
    (small : x < 2 ^ (low + high)) :
    condSub modulus (condSub modulus
      (x - barrettQuotient low high (2 ^ (low + high) / modulus) x * modulus)) = x % modulus := by
  have within := @barrettQuotient_mul_le low high modulus x
  have close := lt_barrettQuotient positive large small
  have below : x - barrettQuotient low high (2 ^ (low + high) / modulus) x * modulus <
      3 * modulus := by omega
  rw [condSub_condSub below, Nat.mul_comm, Nat.sub_mul_mod]
  rwa [Nat.mul_comm]

end Bounds

end KairosEngine.Library
