import Mathlib.Data.Int.ModEq
import Mathlib.RingTheory.Coprime.Lemmas
import Mathlib.Tactic.Ring
import Mathlib.Tactic.Linarith

/-!
# Garner's recombination of two residues

Of two coprime moduli and an inverse of the first modulo the second.  The recombined number is the
one below the product with these residues, and its centered form the one nearest to zero.
-/

namespace KairosEngine.Library

/-- The mixed-radix digits of a pair of residues, put together. -/
def garner (q1 q2 inverse r1 r2 : Int) : Int := r1 + q1 * ((r2 - r1) * inverse % q2)

/-- The representative nearest to zero of a number below the modulus. -/
def centered (modulus x : Int) : Int := if x > modulus / 2 then x - modulus else x

section Garner

variable {q1 q2 inverse : Int}

theorem garner_bounds (second : 0 < q2) {r1 : Int} (low : 0 ≤ r1) (high : r1 < q1) (r2 : Int) :
    0 ≤ garner q1 q2 inverse r1 r2 ∧ garner q1 q2 inverse r1 r2 < q1 * q2 := by
  have digit := Int.emod_nonneg ((r2 - r1) * inverse) second.ne'
  have below := Int.emod_lt_of_pos ((r2 - r1) * inverse) second
  have first : 0 ≤ q1 := by omega
  have times : 0 ≤ q1 * ((r2 - r1) * inverse % q2) := mul_nonneg first digit
  have top : q1 * ((r2 - r1) * inverse % q2) ≤ q1 * (q2 - 1) :=
    mul_le_mul_of_nonneg_left (by omega) first
  rw [mul_sub, mul_one] at top
  constructor
  · unfold garner
    omega
  · unfold garner
    omega

theorem garner_modEq_left (r1 r2 : Int) : garner q1 q2 inverse r1 r2 ≡ r1 [ZMOD q1] := by
  unfold garner
  exact Int.modEq_iff_dvd.mpr ⟨-((r2 - r1) * inverse % q2), by ring⟩

variable (inverts : q1 * inverse ≡ 1 [ZMOD q2])

include inverts

theorem garner_modEq_right (r1 r2 : Int) : garner q1 q2 inverse r1 r2 ≡ r2 [ZMOD q2] := by
  have digit : (r2 - r1) * inverse % q2 ≡ (r2 - r1) * inverse [ZMOD q2] := Int.mod_modEq _ _
  calc garner q1 q2 inverse r1 r2
      ≡ r1 + q1 * ((r2 - r1) * inverse) [ZMOD q2] := (digit.mul_left q1).add_left r1
    _ = r1 + (r2 - r1) * (q1 * inverse) := by ring
    _ ≡ r1 + (r2 - r1) * 1 [ZMOD q2] := (inverts.mul_left (r2 - r1)).add_left r1
    _ = r2 := by ring

/-- The residues determine the number below the product. -/
theorem garner_eq_emod {x r1 r2 : Int} (second : 0 < q2) (low : 0 ≤ r1)
    (high : r1 < q1) (left : x ≡ r1 [ZMOD q1]) (right : x ≡ r2 [ZMOD q2]) :
    garner q1 q2 inverse r1 r2 = x % (q1 * q2) := by
  have coprime : q1.natAbs.Coprime q2.natAbs := by
    apply Int.isCoprime_iff_gcd_eq_one.mp
    obtain ⟨factor, apart⟩ := inverts.dvd
    exact ⟨inverse, factor, by linarith⟩
  have same : garner q1 q2 inverse r1 r2 ≡ x [ZMOD q1 * q2] :=
    (Int.modEq_and_modEq_iff_modEq_mul coprime).mp
      ⟨(garner_modEq_left r1 r2).trans left.symm,
        (garner_modEq_right inverts r1 r2).trans right.symm⟩
  obtain ⟨nonneg, below⟩ := @garner_bounds q1 q2 inverse second r1 low high r2
  rw [← same, Int.emod_eq_of_lt nonneg below]

end Garner

theorem centered_modEq (modulus x : Int) : centered modulus x ≡ x [ZMOD modulus] := by
  unfold centered
  split
  · exact Int.modEq_iff_dvd.mpr ⟨1, by ring⟩
  · exact Int.ModEq.refl x

theorem centered_bounds {modulus x : Int} (odd : modulus % 2 = 1) (low : 0 ≤ x)
    (high : x < modulus) : 2 * |centered modulus x| ≤ modulus - 1 := by
  unfold centered
  split
  · rw [abs_of_neg (by omega)]
    omega
  · rw [abs_of_nonneg low]
    omega

/-- A number in the centered range is the centered form of its residue. -/
theorem centered_emod {modulus x : Int} (odd : modulus % 2 = 1)
    (range : 2 * |x| ≤ modulus - 1) : centered modulus (x % modulus) = x := by
  unfold centered
  rcases le_or_gt 0 x with nonneg | negative
  · rw [abs_of_nonneg nonneg] at range
    rw [Int.emod_eq_of_lt nonneg (by omega), if_neg (by omega)]
  · rw [abs_of_neg negative] at range
    have up : x % modulus = x + modulus := by
      rw [← Int.add_emod_right, Int.emod_eq_of_lt (by omega) (by omega)]
    rw [up, if_pos (by omega)]
    omega

end KairosEngine.Library
