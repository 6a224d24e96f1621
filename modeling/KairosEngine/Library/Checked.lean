import Mathlib.Algebra.Order.Ring.Int
import Mathlib.Tactic.Ring

/-!
# Integer arithmetic of C that is watched

A signed result that does not fit its type is undefined, and so is a shift by a count that is none
of the type.  An unsigned result wraps; whether any does is seen by running the same code with a
fit that refuses it.
-/

namespace KairosEngine.Library

/-! ## Signed -/

/-- A result of type `long long`. -/
def i64 (x : Int) : Option Int := if -2 ^ 63 ≤ x ∧ x < 2 ^ 63 then some x else none

def shl64 (x count : Int) : Option Int :=
  if 0 ≤ x ∧ 0 ≤ count ∧ count < 64 then i64 (x * 2 ^ count.toNat) else none

/-- An arithmetic shift. -/
def shr64 (x count : Int) : Option Int :=
  if 0 ≤ count ∧ count < 64 then some (x / 2 ^ count.toNat) else none

theorem i64_eq {x : Int} (low : -2 ^ 63 ≤ x) (high : x < 2 ^ 63) : i64 x = some x :=
  if_pos ⟨low, high⟩

theorem shl64_eq {x : Int} {count : Nat} (nonneg : 0 ≤ x) (below : count < 64)
    (fits : x * 2 ^ count < 2 ^ 63) : shl64 x count = some (x * 2 ^ count) := by
  have low : 0 ≤ x * 2 ^ count := mul_nonneg nonneg (pow_nonneg (by decide) count)
  rw [shl64, if_pos ⟨nonneg, by omega, by omega⟩, Int.toNat_natCast]
  exact i64_eq (by omega) fits

theorem shr64_eq {x : Int} {count : Nat} (below : count < 64) :
    shr64 x count = some (x / 2 ^ count) := by
  rw [shr64, if_pos ⟨by omega, by omega⟩, Int.toNat_natCast]

/-- The remainder of C, made nonnegative. -/
theorem tmod_lifted {x modulus : Int} (positive : 0 < modulus) :
    (x.tmod modulus + modulus).tmod modulus = x % modulus := by
  have low := Int.lt_tmod_of_pos x positive
  have same : (x.tmod modulus + modulus) % modulus = x % modulus := by
    rw [Int.add_emod_right, Int.tmod_def, Int.sub_mul_emod_self_left]
  rw [Int.tmod_eq_emod_of_nonneg (by omega), same]

/-- An unsigned word read as signed. -/
def asSigned (word : Nat) : Int := if word < 2 ^ 63 then word else (word : Int) - 2 ^ 64

theorem asSigned_eq {word : Nat} (small : word < 2 ^ 63) : asSigned word = word := if_pos small

/-! ## Unsigned -/

/-- What becomes of an unsigned result. -/
abbrev Fit := Nat → Option Nat

def wrapping : Fit := fun x => some (x % 2 ^ 64)

/-- Refuses what would wrap. -/
def watching : Fit := fun x => if x < 2 ^ 64 then some x else none

theorem wrapping_eq {x : Nat} (fits : x < 2 ^ 64) : wrapping x = some x := by
  rw [wrapping, Nat.mod_eq_of_lt fits]

theorem watching_eq {x : Nat} (fits : x < 2 ^ 64) : watching x = some x := if_pos fits

/-- A fit that keeps every number that is one of the type. -/
def Keeps (fit : Fit) : Prop := ∀ x < 2 ^ 64, fit x = some x

theorem keeps_wrapping : Keeps wrapping := fun _ => wrapping_eq

theorem keeps_watching : Keeps watching := fun _ => watching_eq

end KairosEngine.Library
