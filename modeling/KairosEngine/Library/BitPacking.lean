import Mathlib.Data.List.GetD
import Mathlib.Data.Nat.Bits
import KairosEngine.Library.LittleEndian

/-!
# Numbers and their bits

A number as the list of its bits, the lowest first, and the bits of the bytes that spell a
little-endian number.
-/

namespace KairosEngine.Library

def packBits : List Bool → Nat
  | [] => 0
  | bit :: rest => bit.toNat + 2 * packBits rest

theorem packBits_append (first second : List Bool) :
    packBits (first ++ second) = packBits first + 2 ^ first.length * packBits second := by
  induction first with
  | nil => simp [packBits]
  | cons bit rest inductionHypothesis =>
      rw [List.cons_append, packBits, packBits, inductionHypothesis, List.length_cons, pow_succ]
      ring

theorem testBit_packBits (bits : List Bool) (index : Nat) :
    (packBits bits).testBit index = bits.getD index false := by
  induction bits generalizing index with
  | nil => simp [packBits]
  | cons bit rest inductionHypothesis =>
      have whole : packBits (bit :: rest) = Nat.bit bit (packBits rest) := by
        rw [packBits, Nat.bit_val, Nat.add_comm]
      cases index with
      | zero => rw [whole, Nat.testBit_bit_zero, List.getD_cons_zero]
      | succ index => rw [whole, Nat.testBit_bit_succ, inductionHypothesis, List.getD_cons_succ]

def byteBits (byte : UInt8) : List Bool := (List.range 8).map byte.toNat.testBit

theorem length_byteBits (byte : UInt8) : (byteBits byte).length = 8 := by
  rw [byteBits, List.length_map, List.length_range]

theorem packBits_byteBits (byte : UInt8) : packBits (byteBits byte) = byte.toNat := by
  apply Nat.eq_of_testBit_eq
  intro index
  rw [testBit_packBits, byteBits]
  by_cases within : index < 8
  · rw [List.getD_eq_getElem _ _ (by simpa using within), List.getElem_map, List.getElem_range]
  · have small : byte.toNat < 2 ^ index :=
      byte.toNat_lt.trans_le (Nat.pow_le_pow_right (by decide) (Nat.le_of_not_lt within))
    rw [List.getD_eq_default _ _ (by simpa using within), Nat.testBit_lt_two_pow small]

/-- The bits of the bytes, one behind the other, are those of the number they spell. -/
theorem packBits_bytes (bytes : List UInt8) : packBits (bytes.flatMap byteBits) = ofLe bytes := by
  induction bytes with
  | nil => rfl
  | cons byte rest inductionHypothesis =>
      rw [List.flatMap_cons, packBits_append, packBits_byteBits, length_byteBits,
        inductionHypothesis, ofLe, show 2 ^ 8 = 256 from rfl]

theorem length_bytes_bits (bytes : List UInt8) :
    (bytes.flatMap byteBits).length = 8 * bytes.length := by
  induction bytes with
  | nil => rfl
  | cons byte rest inductionHypothesis =>
      rw [List.flatMap_cons, List.length_append, length_byteBits, inductionHypothesis,
        List.length_cons]
      ring

/-! ## Differing bits -/

/-- In how many places two lists of bits differ. -/
def differing (first second : List Bool) : Nat :=
  (first.zip second).countP fun pair => pair.1 != pair.2

theorem differing_append {first second : List Bool} (same : first.length = second.length)
    (more others : List Bool) :
    differing (first ++ more) (second ++ others) = differing first second + differing more others := by
  rw [differing, List.zip_append same, List.countP_append]
  rfl

/-- The bits set in an exclusive or are the places where the two numbers differ. -/
theorem countP_xor {first second : List Bool} {width : Nat} (sizeFirst : first.length = width)
    (sizeSecond : second.length = width) :
    (List.range width).countP (packBits first ^^^ packBits second).testBit =
      differing first second := by
  have places : ∀ index, (packBits first ^^^ packBits second).testBit index =
      (first.getD index false != second.getD index false) := by
    intro index
    rw [Nat.testBit_xor, testBit_packBits, testBit_packBits]
  rw [List.countP_congr fun index _ => Bool.eq_iff_iff.mp (places index)]
  clear places
  induction width generalizing first second with
  | zero =>
      rw [List.length_eq_zero_iff] at sizeFirst
      rw [sizeFirst]
      rfl
  | succ width inductionHypothesis =>
      obtain ⟨bit, rest, rfl⟩ := List.exists_cons_of_length_eq_add_one sizeFirst
      obtain ⟨other, others, rfl⟩ := List.exists_cons_of_length_eq_add_one sizeSecond
      rw [List.range_succ_eq_map, List.countP_cons, List.countP_map, differing, List.zip_cons_cons,
        List.countP_cons]
      congr 1
      exact inductionHypothesis (Nat.succ.inj sizeFirst) (Nat.succ.inj sizeSecond)

/-- The places where two byte strings differ, byte by byte. -/
theorem differing_bytes {first second : List UInt8} (same : first.length = second.length) :
    differing (first.flatMap byteBits) (second.flatMap byteBits) =
      ((first.zip second).map fun pair => differing (byteBits pair.1) (byteBits pair.2)).sum := by
  induction first generalizing second with
  | nil => rfl
  | cons byte rest inductionHypothesis =>
      obtain ⟨other, others, rfl⟩ := List.exists_cons_of_length_eq_add_one same.symm
      rw [List.flatMap_cons, List.flatMap_cons,
        differing_append ((length_byteBits byte).trans (length_byteBits other).symm),
        inductionHypothesis (Nat.succ.inj same), List.zip_cons_cons, List.map_cons, List.sum_cons]

/-- Turning both byte strings round leaves as many places different. -/
theorem differing_reverse {first second : List UInt8} (same : first.length = second.length) :
    differing (first.reverse.flatMap byteBits) (second.reverse.flatMap byteBits) =
      differing (first.flatMap byteBits) (second.flatMap byteBits) := by
  have turned : first.reverse.length = second.reverse.length := by
    rw [List.length_reverse, List.length_reverse, same]
  have zips : first.reverse.zip second.reverse = (first.zip second).reverse :=
    (List.reverse_zipWith same).symm
  rw [differing_bytes turned, differing_bytes same, zips, List.map_reverse, List.sum_reverse]

end KairosEngine.Library
