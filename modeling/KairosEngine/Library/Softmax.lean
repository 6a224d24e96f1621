import Mathlib.Algebra.BigOperators.Group.List.Basic
import Mathlib.Algebra.BigOperators.Ring.List
import Mathlib.Algebra.Order.Field.Basic
import Mathlib.Tactic.Ring

/-!
# Softmax by parts

The exponentials of scores, taken against a reference that keeps them in range.  The reference
cancels in the normalised sum, so parts that were summed against different ones can be put
together.
-/

namespace KairosEngine.Library

universe u v w

variable {F : Type u} [Field F]

/-- Positive, and it turns sums into products. -/
structure Exponential [LinearOrder F] (exp : F → F) : Prop where
  positive : ∀ a, 0 < exp a
  add : ∀ a b, exp (a + b) = exp a * exp b

/-- The values, weighed by the exponentials of their scores. -/
def weighed {Index : Type v} (exp : F → F) (score value : Index → F) (reference : F)
    (indices : List Index) : F :=
  (indices.map fun index => exp (score index - reference) * value index).sum

variable {Index : Type v} {Channel : Type w} {exp : F → F} {score value : Index → F}
variable {values : Channel → Index → F} {seen part : List Index} {reference other : F}

theorem weighed_append :
    weighed exp score value reference (seen ++ part) =
      weighed exp score value reference seen + weighed exp score value reference part := by
  rw [weighed, List.map_append, List.sum_append, weighed, weighed]

variable [LinearOrder F]

theorem Exponential.shift (exponential : Exponential exp) (a b c : F) :
    exp (a - c) = exp (b - c) * exp (a - b) := by
  rw [← exponential.add]
  congr 1
  ring

/-- Another reference scales the sum. -/
theorem Exponential.rebase (exponential : Exponential exp) (indices : List Index) :
    weighed exp score value other indices =
      exp (reference - other) * weighed exp score value reference indices := by
  rw [weighed, weighed, ← List.sum_map_mul_left]
  congr 1
  apply List.map_congr_left
  intro index _
  rw [exponential.shift (score index) reference other, mul_assoc]

/-- The normalised sum does not depend on the reference. -/
theorem Exponential.normalized (exponential : Exponential exp) (indices : List Index) :
    weighed exp score value other indices * (1 / weighed exp score 1 other indices) =
      weighed exp score value reference indices * (1 / weighed exp score 1 reference indices) := by
  have scale := (exponential.positive (reference - other)).ne'
  rw [@Exponential.rebase _ _ _ exp score value reference other _ exponential indices,
    @Exponential.rebase _ _ _ exp score 1 reference other _ exponential indices, mul_one_div,
    mul_one_div, mul_div_mul_left _ _ scale]

/-- The denominator and the sums of the channels, over what was seen so far. -/
structure Running (exp : F → F) (score : Index → F) (values : Channel → Index → F)
    (seen : List Index) (reference denominator : F) (sums : Channel → F) : Prop where
  denominator_eq : denominator = weighed exp score 1 reference seen
  sums_eq : ∀ channel, sums channel = weighed exp score (values channel) reference seen

omit [LinearOrder F] in
theorem running_nil : Running exp score values [] reference 0 fun _ => 0 where
  denominator_eq := rfl
  sums_eq := fun _ => rfl

/-- A part summed against its own reference joins what was seen, against a third one. -/
theorem Running.absorb (exponential : Exponential exp) {denominator : F} {sums : Channel → F}
    (running : Running exp score values seen reference denominator sums) (part : List Index)
    (tile next : F) :
    Running exp score values (seen ++ part) next
      (denominator * exp (reference - next) + exp (tile - next) * weighed exp score 1 tile part)
      (fun channel => sums channel * exp (reference - next) +
        exp (tile - next) * weighed exp score (values channel) tile part) := by
  have joins : ∀ value : Index → F,
      weighed exp score value reference seen * exp (reference - next) +
        exp (tile - next) * weighed exp score value tile part =
          weighed exp score value next (seen ++ part) := by
    intro value
    rw [weighed_append, mul_comm, ← exponential.rebase seen, ← exponential.rebase part]
  constructor
  · rw [running.denominator_eq]
    exact joins 1
  · intro channel
    rw [running.sums_eq channel]
    exact joins (values channel)

theorem Exponential.zero (exponential : Exponential exp) : exp 0 = 1 := by
  have twice := exponential.add 0 0
  rw [add_zero] at twice
  exact (mul_eq_left₀ (exponential.positive 0).ne').mp twice.symm

/-- A part that is summed against the new reference at once. -/
theorem Running.join (exponential : Exponential exp) {denominator : F} {sums : Channel → F}
    (running : Running exp score values seen reference denominator sums) (part : List Index)
    (next : F) :
    Running exp score values (seen ++ part) next
      (denominator * exp (reference - next) + weighed exp score 1 next part)
      (fun channel => sums channel * exp (reference - next) +
        weighed exp score (values channel) next part) := by
  have absorbed := running.absorb exponential part next next
  rw [sub_self, exponential.zero] at absorbed
  simpa only [one_mul] using absorbed

/-- Parts that were summed apart, each against its own reference, put together. -/
theorem Exponential.merge (exponential : Exponential exp) {Part : Type v}
    (reference : Part → F) (indices : Part → List Index) (parts : List Part) :
    (parts.map fun part =>
        exp (reference part - other) * weighed exp score value (reference part) (indices part)).sum =
      weighed exp score value other (parts.flatMap indices) := by
  induction parts with
  | nil => rfl
  | cons part rest inductionHypothesis =>
      rw [List.map_cons, List.sum_cons, inductionHypothesis, ← exponential.rebase,
        List.flatMap_cons, weighed_append]

end KairosEngine.Library
