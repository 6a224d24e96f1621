import Mathlib.Data.List.Nodup
import Mathlib.Data.List.Perm.Basic

/-!
# Bitmaps of 64 places

A set of places below 64 as the bits of a word.
-/

namespace KairosEngine.Library

/-- How many bits of the word are set. -/
def onesIn (word : UInt64) : Nat := (List.range 64).countP word.toNat.testBit

def setBit (bits : UInt64) (place : Nat) : UInt64 := bits ||| 1 <<< UInt64.ofNat place

theorem testBit_setBit {place : Nat} (inside : place < 64) (bits : UInt64) (index : Nat) :
    (setBit bits place).toNat.testBit index =
      (bits.toNat.testBit index || decide (index = place)) := by
  have amount : (UInt64.ofNat place).toNat % 64 = place := by
    rw [UInt64.toNat_ofNat_of_lt' (Nat.lt_trans inside (by decide)), Nat.mod_eq_of_lt inside]
  have small : 2 ^ place < 2 ^ 64 := Nat.pow_lt_pow_right (by decide) inside
  have single : (1 <<< UInt64.ofNat place : UInt64).toNat = 2 ^ place := by
    rw [UInt64.toNat_shiftLeft, amount]
    calc 1 <<< place % 2 ^ 64 = 2 ^ place % 2 ^ 64 := by rw [Nat.one_shiftLeft]
      _ = 2 ^ place := Nat.mod_eq_of_lt small
  rw [setBit, UInt64.toNat_or, single, Nat.testBit_or, Nat.testBit_two_pow]
  simp only [eq_comm]

theorem testBit_foldl_setBit {places : List Nat} (inside : ∀ place ∈ places, place < 64)
    (bits : UInt64) (index : Nat) :
    (places.foldl setBit bits).toNat.testBit index =
      (bits.toNat.testBit index || decide (index ∈ places)) := by
  induction places generalizing bits with
  | nil => simp
  | cons place rest inductionHypothesis =>
      have later := fun other member => inside other (List.mem_cons_of_mem place member)
      rw [List.foldl_cons, inductionHypothesis later,
        testBit_setBit (inside place List.mem_cons_self), Bool.or_assoc]
      simp only [List.mem_cons, Bool.decide_or]

/-- The bits set are the places, and no others. -/
theorem testBit_places {places : List Nat} (inside : ∀ place ∈ places, place < 64) (index : Nat) :
    (places.foldl setBit 0).toNat.testBit index = decide (index ∈ places) := by
  rw [testBit_foldl_setBit inside]
  simp

/-- Distinct places are counted one by one. -/
theorem onesIn_places {places : List Nat} (inside : ∀ place ∈ places, place < 64)
    (distinct : places.Nodup) : onesIn (places.foldl setBit 0) = places.length := by
  have counted : onesIn (places.foldl setBit 0) =
      ((List.range 64).filter fun index => decide (index ∈ places)).length := by
    rw [onesIn, List.countP_eq_length_filter]
    congr 1
    exact List.filter_congr fun index _ => testBit_places inside index
  have same : ((List.range 64).filter fun index => decide (index ∈ places)).Perm places := by
    apply (List.perm_ext_iff_of_nodup (List.nodup_range.filter _) distinct).mpr
    intro index
    rw [List.mem_filter, List.mem_range, decide_eq_true_eq]
    exact ⟨And.right, fun member => ⟨inside index member, member⟩⟩
  rw [counted, same.length_eq]

end KairosEngine.Library
