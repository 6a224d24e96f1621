import Mathlib.Data.Nat.Basic
import Mathlib.Tactic.Ring

/-!
# Little-endian fields

Fixed-width unsigned numbers in byte strings, the least significant byte first.
-/

namespace KairosEngine.Library

def toLe : Nat → Nat → List UInt8
  | 0, _ => []
  | width + 1, value => UInt8.ofNat (value % 256) :: toLe width (value / 256)

def ofLe : List UInt8 → Nat
  | [] => 0
  | byte :: rest => byte.toNat + 256 * ofLe rest

/-- The field of `width` bytes at `offset`. -/
def leField (offset width : Nat) (bytes : List UInt8) : Nat :=
  ofLe ((bytes.drop offset).take width)

@[simp]
theorem length_toLe (width value : Nat) : (toLe width value).length = width := by
  induction width generalizing value with
  | zero => rfl
  | succ width inductionHypothesis => rw [toLe, List.length_cons, inductionHypothesis]

theorem ofLe_lt (bytes : List UInt8) : ofLe bytes < 256 ^ bytes.length := by
  induction bytes with
  | nil => simp [ofLe]
  | cons byte rest inductionHypothesis =>
      have small : byte.toNat < 256 := byte.toNat_lt
      calc byte.toNat + 256 * ofLe rest < 256 * (ofLe rest + 1) := by omega
        _ ≤ 256 * 256 ^ rest.length := Nat.mul_le_mul_left _ inductionHypothesis
        _ = 256 ^ (rest.length + 1) := by ring

theorem ofLe_toLe {width value : Nat} (fits : value < 256 ^ width) :
    ofLe (toLe width value) = value := by
  induction width generalizing value with
  | zero =>
      have none : value = 0 := by simpa using fits
      rw [none]
      rfl
  | succ width inductionHypothesis =>
      have upper : value / 256 < 256 ^ width := by
        rw [pow_succ] at fits
        exact Nat.div_lt_of_lt_mul (by rwa [Nat.mul_comm])
      have lower : (UInt8.ofNat (value % 256)).toNat = value % 256 :=
        UInt8.toNat_ofNat_of_lt' (Nat.mod_lt _ (by decide))
      rw [toLe, ofLe, inductionHypothesis upper, lower, Nat.mod_add_div]

/-- Each byte by a division of its own. -/
theorem toLe_eq_map (width value : Nat) :
    toLe width value = (List.range width).map fun index => UInt8.ofNat (value / 256 ^ index) := by
  induction width generalizing value with
  | zero => rfl
  | succ width inductionHypothesis =>
      have low : UInt8.ofNat (value % 256) = UInt8.ofNat value := by
        apply UInt8.toNat_inj.mp
        simp
      have later : ∀ index, value / 256 / 256 ^ index = value / 256 ^ (index + 1) := by
        intro index
        rw [Nat.div_div_eq_div_mul, pow_succ, Nat.mul_comm]
      rw [toLe, inductionHypothesis, List.range_succ_eq_map, List.map_cons, List.map_map, low]
      simp only [later, pow_zero, Nat.div_one]
      rfl

theorem toLe_ofLe (bytes : List UInt8) : toLe bytes.length (ofLe bytes) = bytes := by
  induction bytes with
  | nil => rfl
  | cons byte rest inductionHypothesis =>
      have small : byte.toNat < 256 := byte.toNat_lt
      have low : (byte.toNat + 256 * ofLe rest) % 256 = byte.toNat := by omega
      have high : (byte.toNat + 256 * ofLe rest) / 256 = ofLe rest := by omega
      rw [List.length_cons, toLe, ofLe, low, high, inductionHypothesis, UInt8.ofNat_toNat]

theorem leField_lt (offset width : Nat) (bytes : List UInt8) :
    leField offset width bytes < 256 ^ width :=
  (ofLe_lt _).trans_le (Nat.pow_le_pow_right (by decide) (List.length_take_le _ _))

/-- A field that was written behind `before`. -/
theorem leField_append {before after : List UInt8} {offset width value : Nat}
    (placed : before.length = offset) (fits : value < 256 ^ width) :
    leField offset width (before ++ (toLe width value ++ after)) = value := by
  subst placed
  rw [leField, List.drop_left, List.take_left' (length_toLe width value), ofLe_toLe fits]

end KairosEngine.Library
