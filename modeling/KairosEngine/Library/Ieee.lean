import Mathlib.Algebra.Order.Field.Rat
import Mathlib.Data.Nat.Sqrt
import Mathlib.Tactic.Linarith

/-!
# Values and arithmetic of the IEEE-754 binary formats

A value is a rational number, an infinity or a NaN; the sign of a zero is not
kept, since no comparison distinguishes it.  A format is its rounding function,
and an operation is the exact operation followed by one rounding.
-/

namespace KairosEngine.Library

inductive Ieee where
  | nan
  | negInf
  | finite (value : ℚ)
  | posInf
  deriving DecidableEq

namespace Ieee

instance : Inhabited Ieee := ⟨.finite 0⟩

/-- The ordered comparison `<`, false on an unordered pair. -/
def lt : Ieee → Ieee → Bool
  | .finite left, .finite right => decide (left < right)
  | .negInf, .finite _ => true
  | .negInf, .posInf => true
  | .finite _, .posInf => true
  | _, _ => false

/-- The ordered comparison `<=`, false on an unordered pair. -/
def le : Ieee → Ieee → Bool
  | .finite left, .finite right => decide (left ≤ right)
  | .negInf, .negInf => true
  | .negInf, .finite _ => true
  | .negInf, .posInf => true
  | .finite _, .posInf => true
  | .posInf, .posInf => true
  | _, _ => false

def isFinite : Ieee → Bool
  | .finite _ => true
  | _ => false

def isNan : Ieee → Bool
  | .nan => true
  | _ => false

def neg : Ieee → Ieee
  | .finite value => .finite (-value)
  | .negInf => .posInf
  | .posInf => .negInf
  | .nan => .nan

/-- The rational value of a finite number. -/
def value : Ieee → ℚ
  | .finite value => value
  | _ => 0

@[simp]
theorem lt_finite (left right : ℚ) : lt (.finite left) (.finite right) = decide (left < right) :=
  rfl

@[simp]
theorem le_finite (left right : ℚ) : le (.finite left) (.finite right) = decide (left ≤ right) :=
  rfl

@[simp]
theorem value_finite (number : ℚ) : (Ieee.finite number).value = number := rfl

theorem eq_finite_of_isFinite {number : Ieee} (finite : number.isFinite = true) :
    number = .finite number.value := by
  cases number with
  | finite => rfl
  | nan => simp [isFinite] at finite
  | negInf => simp [isFinite] at finite
  | posInf => simp [isFinite] at finite

theorem lt_iff_value {left right : Ieee} (finiteLeft : left.isFinite = true)
    (finiteRight : right.isFinite = true) :
    left.lt right = true ↔ left.value < right.value := by
  rw [eq_finite_of_isFinite finiteLeft, eq_finite_of_isFinite finiteRight]
  simp

theorem le_iff_value {left right : Ieee} (finiteLeft : left.isFinite = true)
    (finiteRight : right.isFinite = true) :
    left.le right = true ↔ left.value ≤ right.value := by
  rw [eq_finite_of_isFinite finiteLeft, eq_finite_of_isFinite finiteRight]
  simp

theorem lt_of_le_of_lt {first second third : Ieee} (below : first.le second = true)
    (above : second.lt third = true) : first.lt third = true := by
  cases first <;> cases second <;> cases third <;> simp_all [le, lt]; linarith

theorem le_trans {first second third : Ieee} (below : first.le second = true)
    (above : second.le third = true) : first.le third = true := by
  cases first <;> cases second <;> cases third <;> simp_all [le]; linarith

theorem lt_eq_false_of_le {left right : Ieee} (ordered : left.le right = true) :
    right.lt left = false := by
  cases left <;> cases right <;> simp_all [le, lt]

/-- A `u32` cast: toward zero, saturating, a NaN as zero. -/
def toU32 : Ieee → Nat
  | .nan => 0
  | .negInf => 0
  | .posInf => 4294967295
  | .finite value => min value.floor.toNat 4294967295

/-- The single-precision value of a little-endian bit pattern. -/
def ofLeBytes (b₀ b₁ b₂ b₃ : UInt8) : Ieee :=
  let bits : Nat := b₀.toNat + 2 ^ 8 * b₁.toNat + 2 ^ 16 * b₂.toNat + 2 ^ 24 * b₃.toNat
  let exponent : Nat := bits / 2 ^ 23 % 2 ^ 8
  let mantissa : Nat := bits % 2 ^ 23
  let magnitude : Ieee :=
    if exponent = 255 then
      if mantissa = 0 then .posInf else .nan
    else if exponent = 0 then
      .finite ((mantissa : ℚ) / 2 ^ 149)
    else
      .finite ((2 ^ 23 + mantissa : ℚ) * 2 ^ exponent / 2 ^ 150)
  if bits / 2 ^ 31 = 0 then magnitude else magnitude.neg

end Ieee

/-- A binary format: how it rounds the exact result of an operation. -/
structure Format where
  round : ℚ → Ieee
  round_mono : ∀ {left right : ℚ}, left ≤ right → (round left).le (round right) = true

namespace Format

/-- The format with unbounded precision and range. -/
def exact : Format where
  round := Ieee.finite
  round_mono := by
    intro left right ordered
    simpa using ordered

/-- The sign of a product or quotient with an infinite operand. -/
def signedInf (negative : Bool) : Ieee := if negative then .negInf else .posInf

def isNegative : Ieee → Bool
  | .finite value => decide (value < 0)
  | .negInf => true
  | _ => false

variable (format : Format)

def add : Ieee → Ieee → Ieee
  | .finite left, .finite right => format.round (left + right)
  | .nan, _ => .nan
  | _, .nan => .nan
  | .posInf, .negInf => .nan
  | .negInf, .posInf => .nan
  | .posInf, _ => .posInf
  | _, .posInf => .posInf
  | .negInf, _ => .negInf
  | _, .negInf => .negInf

def sub (left right : Ieee) : Ieee := format.add left right.neg

def mul : Ieee → Ieee → Ieee
  | .finite left, .finite right => format.round (left * right)
  | .nan, _ => .nan
  | _, .nan => .nan
  | left, right =>
      if left = .finite 0 ∨ right = .finite 0 then .nan
      else signedInf (isNegative left != isNegative right)

def div : Ieee → Ieee → Ieee
  | .nan, _ => .nan
  | _, .nan => .nan
  | .finite left, .finite right =>
      if right = 0 then
        if left = 0 then .nan else signedInf (decide (left < 0))
      else format.round (left / right)
  | .finite _, _ => .finite 0
  | left, .finite right => signedInf (isNegative left != decide (right < 0))
  | _, _ => .nan

/-- The conversion of a value of a wider format. -/
def convert : Ieee → Ieee
  | .finite value => format.round value
  | other => other

/-- A larger subtrahend leaves a smaller difference. -/
theorem sub_antitone {minuend left right : Ieee} (finiteMinuend : minuend.isFinite = true)
    (finiteLeft : left.isFinite = true) (finiteRight : right.isFinite = true)
    (ordered : left.le right = true) :
    (format.sub minuend right).le (format.sub minuend left) = true := by
  rw [Ieee.le_iff_value finiteLeft finiteRight] at ordered
  rw [Ieee.eq_finite_of_isFinite finiteMinuend, Ieee.eq_finite_of_isFinite finiteLeft,
    Ieee.eq_finite_of_isFinite finiteRight]
  apply format.round_mono
  linarith

end Format

/-- The arithmetic of a target: its two formats and the library functions it calls. -/
structure Arithmetic where
  single : Format
  double : Format
  sqrt : Ieee → Ieee
  exp : Ieee → Ieee
  ln : Ieee → Ieee

/-- Unbounded formats, with square roots of squares and the exponential at zero. -/
def Arithmetic.exact : Arithmetic where
  single := .exact
  double := .exact
  sqrt
    | .finite value => .finite ((value.num.toNat.sqrt : ℚ) / value.den.sqrt)
    | other => other
  exp _ := .finite 1
  ln _ := .finite 0

end KairosEngine.Library
