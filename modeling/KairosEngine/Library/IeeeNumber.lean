import Mathlib.Order.WithBot
import KairosEngine.Library.Ieee

/-!
# The values that are not NaN are linearly ordered

The order is that of the comparisons: between the infinities lie the rational numbers.
-/

namespace KairosEngine.Library.Ieee

/-- A value that is not a NaN. -/
def Number := { number : Ieee // number.isNan = false }

namespace Number

def extended (number : Number) : WithBot (WithTop ℚ) :=
  match number.val with
  | .negInf => ⊥
  | .finite value => ((value : WithTop ℚ) : WithBot (WithTop ℚ))
  | .posInf => ((⊤ : WithTop ℚ) : WithBot (WithTop ℚ))
  | .nan => ⊥

theorem extended_injective : Function.Injective extended := by
  rintro ⟨left, leftNumber⟩ ⟨right, rightNumber⟩ same
  apply Subtype.ext
  cases left <;> cases right <;> first
    | exact absurd leftNumber (by decide)
    | exact absurd rightNumber (by decide)
    | simp_all [extended]

instance : LinearOrder Number := LinearOrder.lift' extended extended_injective

theorem lt_iff {left right : Number} : left < right ↔ left.val.lt right.val = true := by
  obtain ⟨left, leftNumber⟩ := left
  obtain ⟨right, rightNumber⟩ := right
  change extended _ < extended _ ↔ _
  cases left <;> cases right <;> first
    | exact absurd leftNumber (by decide)
    | exact absurd rightNumber (by decide)
    | exact iff_of_true (WithBot.coe_lt_coe.mpr (WithTop.coe_lt_top _)) rfl
    | simp [extended, lt]

theorem le_iff {left right : Number} : left ≤ right ↔ left.val.le right.val = true := by
  rw [← not_lt, lt_iff]
  obtain ⟨left, leftNumber⟩ := left
  obtain ⟨right, rightNumber⟩ := right
  cases left <;> cases right <;> first
    | exact absurd leftNumber (by decide)
    | exact absurd rightNumber (by decide)
    | simp [le, lt]

theorem val_inj {left right : Number} : left.val = right.val ↔ left = right := Subtype.ext_iff.symm

/-- The number that a value is; a NaN counts as the smallest. -/
def of (value : Ieee) : Number :=
  ⟨if value.isNan then .negInf else value, by cases value <;> rfl⟩

theorem val_of {value : Ieee} (number : value.isNan = false) : (of value).val = value := by
  have kept : (if value.isNan then Ieee.negInf else value) = value := by rw [number]; rfl
  exact kept

end Number

end KairosEngine.Library.Ieee
