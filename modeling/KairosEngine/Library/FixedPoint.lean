import KairosEngine.Library.Checked
import Mathlib.Algebra.Order.BigOperators.Group.List
import Mathlib.Algebra.Order.Ring.Int
import Mathlib.Tactic.Ring
import Mathlib.Tactic.Linarith

/-!
# Truncating fixed-point evaluation

A polynomial with nonnegative coefficients by Horner's rule, every product truncated, and a
mantissa shifted down by the octave.  Both are monotone in spite of the truncation.
-/

namespace KairosEngine.Library

/-! ## Horner's rule -/

section Horner

variable {bits : Nat}

/-- Coefficients are folded in from the highest down. -/
def fixedFold (bits : Nat) (x : Int) : List Int → Int → Int
  | [], acc => acc
  | c :: cs, acc => fixedFold bits x cs (acc * x / 2 ^ bits + c)

/-- The same with a signed word for every result. -/
def fixedFoldChecked (bits : Nat) (x : Int) : List Int → Int → Option Int
  | [], acc => some acc
  | c :: cs, acc => do
    let product ← i64 (acc * x)
    let shifted ← shr64 product bits
    let acc ← i64 (shifted + c)
    fixedFoldChecked bits x cs acc

theorem scaled_nonneg {acc x : Int} (acc_nonneg : 0 ≤ acc) (nonneg : 0 ≤ x) :
    0 ≤ acc * x / 2 ^ bits :=
  Int.ediv_nonneg (mul_nonneg acc_nonneg nonneg) (by positivity)

/-- A factor of at most one makes nothing larger. -/
theorem scaled_le {acc x : Int} (acc_nonneg : 0 ≤ acc) (le_one : x ≤ 2 ^ bits) :
    acc * x / 2 ^ bits ≤ acc := by
  have positive : (0 : Int) < 2 ^ bits := by positivity
  calc acc * x / 2 ^ bits ≤ acc * 2 ^ bits / 2 ^ bits :=
        Int.ediv_le_ediv positive (mul_le_mul_of_nonneg_left le_one acc_nonneg)
    _ = acc := Int.mul_ediv_cancel _ positive.ne'

theorem fixedFold_mono {x y : Int} (nonneg : 0 ≤ x) (le : x ≤ y) :
    ∀ {coefficients : List Int} {acc acc' : Int}, (∀ c ∈ coefficients, 0 ≤ c) →
      0 ≤ acc → acc ≤ acc' →
      fixedFold bits x coefficients acc ≤ fixedFold bits y coefficients acc'
  | [], _, _, _, _, acc_le => acc_le
  | c :: cs, acc, acc', positive, acc_nonneg, acc_le => by
    have c_nonneg := positive c List.mem_cons_self
    have scaled : acc * x / 2 ^ bits ≤ acc' * y / 2 ^ bits := by
      apply Int.ediv_le_ediv (by positivity)
      exact mul_le_mul acc_le le nonneg (acc_nonneg.trans acc_le)
    have next := @scaled_nonneg bits acc x acc_nonneg nonneg
    apply fixedFold_mono nonneg le (fun c' mem => positive c' (List.mem_cons_of_mem _ mem))
    · omega
    · omega

/-- Up to one the value is at most the sum of the coefficients. -/
theorem fixedFold_le_sum {x : Int} (nonneg : 0 ≤ x) (le_one : x ≤ 2 ^ bits) :
    ∀ {coefficients : List Int} {acc : Int}, (∀ c ∈ coefficients, 0 ≤ c) → 0 ≤ acc →
      fixedFold bits x coefficients acc ≤ acc + coefficients.sum
  | [], _, _, _ => by simp [fixedFold]
  | c :: cs, acc, positive, acc_nonneg => by
    have c_nonneg := positive c List.mem_cons_self
    have next := @scaled_nonneg bits acc x acc_nonneg nonneg
    have less := @scaled_le bits acc x acc_nonneg le_one
    have rest := @fixedFold_le_sum x nonneg le_one cs (acc * x / 2 ^ bits + c)
      (fun c' mem => positive c' (List.mem_cons_of_mem _ mem)) (by omega)
    rw [fixedFold, List.sum_cons]
    omega

/-- The constant term is a lower bound. -/
theorem le_fixedFold {x : Int} (nonneg : 0 ≤ x) {constant : Int} :
    ∀ {higher : List Int} {acc : Int}, (∀ c ∈ higher, 0 ≤ c) → 0 ≤ acc →
      constant ≤ fixedFold bits x (higher ++ [constant]) acc
  | [], acc, _, acc_nonneg => by
    have scaled := @scaled_nonneg bits acc x acc_nonneg nonneg
    simp only [List.nil_append, fixedFold]
    omega
  | c :: cs, acc, positive, acc_nonneg => by
    have c_nonneg := positive c List.mem_cons_self
    have scaled := @scaled_nonneg bits acc x acc_nonneg nonneg
    rw [List.cons_append, fixedFold]
    exact le_fixedFold nonneg (fun c' mem => positive c' (List.mem_cons_of_mem _ mem)) (by omega)

/-- No result leaves the word when one times the sum of the coefficients is in it. -/
theorem fixedFoldChecked_eq {x : Int} (nonneg : 0 ≤ x) (le_one : x ≤ 2 ^ bits)
    (shift : bits < 64) :
    ∀ {coefficients : List Int} {acc : Int}, (∀ c ∈ coefficients, 0 ≤ c) → 0 ≤ acc →
      (acc + coefficients.sum) * 2 ^ bits < 2 ^ 63 →
      fixedFoldChecked bits x coefficients acc = some (fixedFold bits x coefficients acc)
  | [], _, _, _, _ => rfl
  | c :: cs, acc, positive, acc_nonneg, room => by
    have one : (1 : Int) ≤ 2 ^ bits := one_le_pow₀ (by decide)
    have c_nonneg := positive c List.mem_cons_self
    have tail_positive : ∀ c' ∈ cs, 0 ≤ c' :=
      fun c' mem => positive c' (List.mem_cons_of_mem _ mem)
    have sum_nonneg : 0 ≤ cs.sum := List.sum_nonneg tail_positive
    have scaled := @scaled_nonneg bits acc x acc_nonneg nonneg
    have less := @scaled_le bits acc x acc_nonneg le_one
    have product_nonneg : 0 ≤ acc * x := mul_nonneg acc_nonneg nonneg
    rw [List.sum_cons] at room
    have product : acc * x < 2 ^ 63 := by
      calc acc * x ≤ acc * 2 ^ bits := mul_le_mul_of_nonneg_left le_one acc_nonneg
        _ ≤ (acc + (c + cs.sum)) * 2 ^ bits := by
          apply mul_le_mul_of_nonneg_right _ (by omega)
          omega
        _ < 2 ^ 63 := room
    have total : acc + (c + cs.sum) < 2 ^ 63 := by
      calc acc + (c + cs.sum) ≤ (acc + (c + cs.sum)) * 2 ^ bits :=
            le_mul_of_one_le_right (by omega) one
        _ < 2 ^ 63 := room
    have rest : (acc * x / 2 ^ bits + c + cs.sum) * 2 ^ bits < 2 ^ 63 := by
      calc (acc * x / 2 ^ bits + c + cs.sum) * 2 ^ bits ≤ (acc + (c + cs.sum)) * 2 ^ bits := by
            apply mul_le_mul_of_nonneg_right _ (by omega)
            omega
        _ < 2 ^ 63 := room
    rw [fixedFoldChecked, fixedFold, i64_eq (by omega) product]
    simp only [Option.bind_eq_bind, Option.bind_some]
    rw [shr64_eq shift]
    simp only [Option.bind_some]
    rw [i64_eq (by omega) (by omega)]
    simp only [Option.bind_some]
    exact fixedFoldChecked_eq nonneg le_one shift tail_positive (by omega) rest

end Horner

/-! ## Octaves -/

section Octave

variable {width : Nat} {mantissa : Nat → Int} {unit : Int}

/-- The mantissa of the place in the octave, halved once an octave. -/
def octaveValue (width : Nat) (mantissa : Nat → Int) (position : Nat) : Int :=
  mantissa (position % width) / 2 ^ (position / width + 1)

/-- A mantissa that falls from two units to one falls across the octaves too. -/
theorem octaveValue_anti (positive : 0 < width)
    (falls : ∀ r s, r ≤ s → s < width → mantissa s ≤ mantissa r)
    (low : ∀ r < width, unit ≤ mantissa r) (high : ∀ r < width, mantissa r ≤ 2 * unit)
    (unit_nonneg : 0 ≤ unit) {position later : Nat} (le : position ≤ later) :
    octaveValue width mantissa later ≤ octaveValue width mantissa position := by
  have place := Nat.mod_lt position positive
  have place' := Nat.mod_lt later positive
  have power (count : Nat) : (0 : Int) < 2 ^ count := by positivity
  unfold octaveValue
  rcases Nat.lt_or_ge (position / width) (later / width) with across | within
  · calc mantissa (later % width) / 2 ^ (later / width + 1)
        ≤ 2 * unit / 2 ^ (later / width + 1) := Int.ediv_le_ediv (power _) (high _ place')
      _ = unit / 2 ^ (later / width) := by
        rw [pow_succ', Int.mul_ediv_mul_of_pos _ _ (by decide)]
      _ ≤ unit / 2 ^ (position / width + 1) := by
        apply (Int.le_ediv_iff_mul_le (power _)).mpr
        calc unit / 2 ^ (later / width) * 2 ^ (position / width + 1)
            ≤ unit / 2 ^ (later / width) * 2 ^ (later / width) := by
              apply mul_le_mul_of_nonneg_left (pow_le_pow_right₀ (by decide) across)
              exact Int.ediv_nonneg unit_nonneg (power _).le
          _ ≤ unit := Int.ediv_mul_le _ (power _).ne'
      _ ≤ mantissa (position % width) / 2 ^ (position / width + 1) :=
        Int.ediv_le_ediv (power _) (low _ place)
  · have same : later / width = position / width :=
      Nat.le_antisymm within (Nat.div_le_div_right le)
    have order : position % width ≤ later % width := by
      have split := Nat.div_add_mod position width
      have split' := Nat.div_add_mod later width
      rw [same] at split'
      omega
    rw [same]
    exact Int.ediv_le_ediv (power _) (falls _ _ order place')

end Octave

end KairosEngine.Library
