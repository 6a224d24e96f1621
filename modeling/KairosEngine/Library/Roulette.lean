import Mathlib.Algebra.Order.Field.Basic
import Mathlib.Tactic.Positivity
import KairosEngine.Library.Ieee

/-!
# Drawing by weight

A share of the sum of some weights is held against their running sums, and the first that exceeds
it is drawn.  Rounding neither draws an entry without a weight nor runs past the last one.
-/

namespace KairosEngine.Library

namespace Format

/-- A format with a significand of 53 bits. -/
structure Double (format : Format) : Prop where
  whole : ∀ n : Nat, n ≤ 2 ^ 53 → format.round n = .finite n
  grid : ∀ k : Nat, k ≤ 2 ^ 53 → format.round (k / 2 ^ 53) = .finite (k / 2 ^ 53)
  stable : ∀ {exact result : ℚ}, format.round exact = .finite result →
    format.round result = .finite result
  /-- Not even the largest share rounds up to the whole. -/
  share : ∀ {k : Nat} {whole : ℚ}, k < 2 ^ 53 → 1 / 2 ^ 53 ≤ whole →
    format.round whole = .finite whole →
    ∃ part < whole, format.round (k / 2 ^ 53 * whole) = .finite part

theorem Double.exact : Double .exact where
  whole _ _ := rfl
  grid _ _ := rfl
  stable _ := rfl
  share {k whole} small positive _ := by
    refine ⟨_, ?_, rfl⟩
    have below : (k : ℚ) / 2 ^ 53 < 1 := by
      rw [div_lt_one (by positivity)]
      exact_mod_cast small
    have above : 0 < whole := lt_of_lt_of_le (by positivity) positive
    exact mul_lt_of_lt_one_left above below

variable (format : Format)

def total (weights : List Ieee) : Ieee := weights.foldl format.add (.finite 0)

/-- The first running sum above `r`. -/
def landing (r : Ieee) : Ieee → List (Ieee × Nat) → Option Nat
  | _, [] => none
  | acc, (p, index) :: rest =>
      if r.lt (format.add acc p) then some index else landing r (format.add acc p) rest

/-- A result of the format from 0 up to this bound. -/
def Within (bound : Nat) (number : Ieee) : Prop :=
  ∃ value, number = .finite value ∧ 0 ≤ value ∧ value ≤ bound ∧
    format.round value = .finite value

end Format

/-- From 0 up to 1. -/
def Fraction (number : Ieee) : Prop := ∃ value, number = .finite value ∧ 0 ≤ value ∧ value ≤ 1

theorem Format.Within.fraction {format : Format} {number : Ieee} (within : format.Within 1 number) :
    Fraction number := by
  obtain ⟨value, isValue, low, high, _⟩ := within
  exact ⟨value, isValue, low, by simpa using high⟩

namespace Format.Double

variable {format : Format} (double : format.Double)
include double

theorem round_zero : format.round 0 = .finite 0 := by
  simpa using double.whole 0 (Nat.zero_le _)

theorem round_within {bound : Nat} (small : bound ≤ 2 ^ 53) {value : ℚ} (low : 0 ≤ value)
    (high : value ≤ bound) : format.Within bound (format.round value) := by
  have above := format.round_mono low
  have below := format.round_mono high
  rw [double.round_zero] at above
  rw [double.whole bound small] at below
  cases rounded : format.round value with
  | finite result =>
      rw [rounded] at above below
      exact ⟨result, rfl, by simpa using above, by simpa using below, double.stable rounded⟩
  | nan => rw [rounded] at above; cases above
  | negInf => rw [rounded] at above; cases above
  | posInf => rw [rounded] at below; cases below

theorem within_zero : format.Within 0 (.finite 0) :=
  ⟨0, rfl, le_rfl, by simp, double.round_zero⟩

theorem add_within {bound : Nat} (small : bound + 1 ≤ 2 ^ 53) {acc p : Ieee}
    (start : format.Within bound acc) (fraction : Fraction p) :
    format.Within (bound + 1) (format.add acc p) ∧ acc.le (format.add acc p) = true := by
  obtain ⟨sum, rfl, low, high, fixed⟩ := start
  obtain ⟨weight, rfl, positive, one⟩ := fraction
  constructor
  · apply double.round_within small (add_nonneg low positive)
    rw [Nat.cast_add, Nat.cast_one]
    exact add_le_add high one
  · have grows := format.round_mono (le_add_of_nonneg_right positive : sum ≤ sum + weight)
    rwa [fixed] at grows

theorem foldl_within {weights : List Ieee} (fractions : ∀ p ∈ weights, Fraction p) {bound : Nat}
    (small : bound + weights.length ≤ 2 ^ 53) {acc : Ieee} (start : format.Within bound acc) :
    format.Within (bound + weights.length) (weights.foldl format.add acc) ∧
      acc.le (weights.foldl format.add acc) = true := by
  induction weights generalizing bound acc with
  | nil =>
      obtain ⟨sum, rfl, _⟩ := id start
      exact ⟨start, by simp⟩
  | cons p rest inductionHypothesis =>
      rw [List.length_cons] at small ⊢
      obtain ⟨within, grows⟩ := double.add_within (by omega) start (fractions p List.mem_cons_self)
      obtain ⟨behind, rises⟩ := inductionHypothesis
        (fun other member => fractions other (List.mem_cons_of_mem _ member)) (by omega) within
      rw [show bound + (rest.length + 1) = bound + 1 + rest.length by omega]
      exact ⟨behind, Ieee.le_trans grows rises⟩

/-- An entry that is drawn has a weight. -/
theorem landing_positive {r : Ieee} {weights : List (Ieee × Nat)}
    (fractions : ∀ entry ∈ weights, Fraction entry.1) {bound : Nat}
    (small : bound + weights.length ≤ 2 ^ 53) {acc : Ieee} (start : format.Within bound acc)
    (reached : r.lt acc = false) {index : Nat} (drawn : format.landing r acc weights = some index) :
    ∃ p, (p, index) ∈ weights ∧ p ≠ .finite 0 := by
  induction weights generalizing bound acc with
  | nil => cases drawn
  | cons entry rest inductionHypothesis =>
      obtain ⟨p, here⟩ := entry
      rw [List.length_cons] at small
      rw [landing] at drawn
      by_cases lands : r.lt (format.add acc p) = true
      · rw [if_pos lands, Option.some.injEq] at drawn
        refine ⟨p, drawn ▸ List.mem_cons_self, ?_⟩
        rintro rfl
        obtain ⟨sum, rfl, _, _, fixed⟩ := start
        rw [add, add_zero, fixed, reached] at lands
        cases lands
      · rw [if_neg lands] at drawn
        obtain ⟨within, _⟩ := double.add_within (by omega) start
          (fractions (p, here) List.mem_cons_self)
        obtain ⟨weight, member, positive⟩ := inductionHypothesis
          (fun other member => fractions other (List.mem_cons_of_mem _ member)) (by omega) within
          (by simpa using lands) drawn
        exact ⟨weight, List.mem_cons_of_mem _ member, positive⟩

end Format.Double

variable {format : Format}

theorem Format.landing_none {r : Ieee} {weights : List (Ieee × Nat)} {acc : Ieee}
    (reached : r.lt acc = false) (passed : format.landing r acc weights = none) :
    r.lt ((weights.map Prod.fst).foldl format.add acc) = false := by
  induction weights generalizing acc with
  | nil => exact reached
  | cons entry rest inductionHypothesis =>
      obtain ⟨p, here⟩ := entry
      rw [landing] at passed
      by_cases lands : r.lt (format.add acc p) = true
      · rw [if_pos lands] at passed
        cases passed
      · rw [if_neg lands] at passed
        exact inductionHypothesis (by simpa using lands) passed

/-- A share of the sum of the weights draws an entry with a weight. -/
theorem Format.Double.draw_positive (double : format.Double) {weights : List (Ieee × Nat)}
    (fractions : ∀ entry ∈ weights, Fraction entry.1) (small : weights.length ≤ 2 ^ 53)
    (enough : (Ieee.finite (1 / 2 ^ 53)).le (format.total (weights.map Prod.fst)) = true) {k : Nat}
    (share : k < 2 ^ 53) :
    ∃ index p, format.landing
        (format.mul (.finite (k / 2 ^ 53)) (format.total (weights.map Prod.fst))) (.finite 0)
          weights = some index ∧
      (p, index) ∈ weights ∧ p ≠ .finite 0 := by
  have fractions' : ∀ p ∈ weights.map Prod.fst, Fraction p := by
    intro p member
    obtain ⟨entry, inside, rfl⟩ := List.mem_map.mp member
    exact fractions entry inside
  obtain ⟨⟨sum, isSum, low, _, fixed⟩, _⟩ := double.foldl_within fractions'
    (by rw [List.length_map]; omega) double.within_zero
  have isTotal : format.total (weights.map Prod.fst) = .finite sum := isSum
  rw [isTotal] at enough ⊢
  rw [Ieee.le_finite, decide_eq_true_eq] at enough
  obtain ⟨part, below, rounds⟩ := double.share share enough fixed
  have product : format.mul (.finite (k / 2 ^ 53)) (.finite sum) = .finite part := rounds
  have nonneg : 0 ≤ part := by
    have above := format.round_mono
      (mul_nonneg (by positivity) low : (0 : ℚ) ≤ (k : ℚ) / 2 ^ 53 * sum)
    rw [double.round_zero, rounds] at above
    simpa using above
  have start : (Ieee.finite part).lt (.finite 0) = false := by simpa using nonneg
  rw [product]
  cases drawn : format.landing (.finite part) (.finite 0) weights with
  | none =>
      have past := landing_none start drawn
      rw [isSum] at past
      rw [Ieee.lt_finite, decide_eq_false_iff_not] at past
      exact absurd below past
  | some index =>
      obtain ⟨p, member, positive⟩ := double.landing_positive fractions
        (by omega) double.within_zero start drawn
      exact ⟨index, p, rfl, member, positive⟩

end KairosEngine.Library
