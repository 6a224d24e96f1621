import Mathlib.Data.List.Basic
import Mathlib.Tactic.Common

/-!
# Four bytes in a word

A word of 32 bits, the bytes it packs with the lowest first, and the sum of products of two words'
signed bytes.
-/

namespace KairosEngine.Library

/-- The little-endian word of four bytes. -/
def wordOf (first second third fourth : BitVec 8) : BitVec 32 := fourth ++ third ++ second ++ first

def byteOf (word : BitVec 32) (index : Nat) : BitVec 8 := word.extractLsb' (8 * index) 8

theorem getLsbD_byteOf {word : BitVec 32} {index bit : Nat} (inside : bit < 8) :
    (byteOf word index).getLsbD bit = word.getLsbD (8 * index + bit) := by
  rw [byteOf, BitVec.getLsbD_extractLsb', decide_eq_true inside, Bool.true_and]

theorem byteOf_wordOf (first second third fourth : BitVec 8) :
    byteOf (wordOf first second third fourth) 0 = first ∧
      byteOf (wordOf first second third fourth) 1 = second ∧
      byteOf (wordOf first second third fourth) 2 = third ∧
      byteOf (wordOf first second third fourth) 3 = fourth := by
  refine ⟨?_, ?_, ?_, ?_⟩ <;>
  · apply BitVec.eq_of_getLsbD_eq
    intro bit inside
    rw [getLsbD_byteOf inside]
    unfold wordOf
    simp (disch := omega) only [BitVec.getLsbD_append, if_pos, if_neg]
    congr 1
    omega

theorem byteOf_or (left right : BitVec 32) (index : Nat) :
    byteOf (left ||| right) index = byteOf left index ||| byteOf right index := by
  apply BitVec.eq_of_getLsbD_eq
  intro bit inside
  rw [BitVec.getLsbD_or, getLsbD_byteOf inside, getLsbD_byteOf inside, getLsbD_byteOf inside,
    BitVec.getLsbD_or]

theorem byteOf_shiftLeft (byte : BitVec 8) {count place index : Nat} (whole : count = 8 * place)
    (inPlace : place < 4) (inside : index < 4) :
    byteOf (byte.setWidth 32 <<< count) index = if index = place then byte else 0 := by
  subst whole
  apply BitVec.eq_of_getLsbD_eq
  intro bit below
  rw [getLsbD_byteOf below, BitVec.getLsbD_shiftLeft, BitVec.getLsbD_setWidth,
    decide_eq_true (by omega : 8 * index + bit < 32),
    decide_eq_true (by omega : 8 * index + bit - 8 * place < 32), Bool.true_and, Bool.true_and]
  rcases Nat.lt_trichotomy index place with before | rfl | after
  · rw [decide_eq_true (by omega : 8 * index + bit < 8 * place), if_neg (Nat.ne_of_lt before)]
    exact (BitVec.getLsbD_zero).symm
  · rw [if_pos rfl, Nat.add_sub_cancel_left, decide_eq_false (by omega)]
    rfl
  · rw [if_neg (Nat.ne_of_gt after), BitVec.getLsbD_of_ge _ _ (by omega), Bool.and_false]
    exact (BitVec.getLsbD_zero).symm

theorem word_ext {left right : BitVec 32} (same : ∀ index < 4, byteOf left index = byteOf right index) :
    left = right := by
  apply BitVec.eq_of_getLsbD_eq
  intro bit inside
  have bytes := same (bit / 8) (by omega)
  have bits := congrArg (fun byte => byte.getLsbD (bit % 8)) bytes
  rwa [getLsbD_byteOf (Nat.mod_lt _ (by decide)), getLsbD_byteOf (Nat.mod_lt _ (by decide)),
    Nat.div_add_mod] at bits

/-- Bytes shifted to their places and joined are the word. -/
theorem join_eq_wordOf (first second third fourth : BitVec 8) :
    first.setWidth 32 ||| second.setWidth 32 <<< 8 ||| third.setWidth 32 <<< 16 |||
        fourth.setWidth 32 <<< 24 = wordOf first second third fourth := by
  obtain ⟨atZero, atOne, atTwo, atThree⟩ := byteOf_wordOf first second third fourth
  apply word_ext
  intro index inside
  have byFirst : byteOf (first.setWidth 32) index = if index = 0 then first else 0 := by
    rw [← byteOf_shiftLeft first (Nat.mul_zero 8).symm (by decide) inside]
    congr 1
    exact (BitVec.shiftLeft_zero _).symm
  have bySecond : byteOf (second.setWidth 32 <<< 8) index = if index = 1 then second else 0 :=
    @byteOf_shiftLeft second _ 1 index rfl (by decide) inside
  have byThird : byteOf (third.setWidth 32 <<< 16) index = if index = 2 then third else 0 :=
    @byteOf_shiftLeft third _ 2 index rfl (by decide) inside
  have byFourth : byteOf (fourth.setWidth 32 <<< 24) index = if index = 3 then fourth else 0 :=
    @byteOf_shiftLeft fourth _ 3 index rfl (by decide) inside
  rw [byteOf_or, byteOf_or, byteOf_or, byFirst, bySecond, byThird, byFourth]
  rcases (by omega : index = 0 ∨ index = 1 ∨ index = 2 ∨ index = 3) with rfl | rfl | rfl | rfl
  · rw [atZero]
    simp
  · rw [atOne]
    simp
  · rw [atTwo]
    simp
  · rw [atThree]
    simp

theorem getLsbD_255 (bit : Nat) : (255#32).getLsbD bit = decide (bit < 8) := by
  by_cases inside : bit < 32
  · have all : ∀ bit < 32, (255#32).getLsbD bit = decide (bit < 8) := by decide
    exact all bit inside
  · rw [BitVec.getLsbD_of_ge _ _ (Nat.le_of_not_lt inside), decide_eq_false (by omega)]

/-- A word shifted to a byte and masked is that byte. -/
theorem sshiftRight_mask (word : BitVec 32) {index : Nat} (inside : index < 4) :
    word.sshiftRight (8 * index) &&& 255#32 = (byteOf word index).setWidth 32 := by
  apply BitVec.eq_of_getLsbD_eq
  intro bit below
  rw [BitVec.getLsbD_and, getLsbD_255, BitVec.getLsbD_setWidth, decide_eq_true below, Bool.true_and]
  by_cases low : bit < 8
  · rw [getLsbD_byteOf low, decide_eq_true low, Bool.and_true, BitVec.getLsbD_sshiftRight]
    simp (disch := omega) only [if_pos, decide_eq_false, Bool.not_false, Bool.true_and]
  · rw [BitVec.getLsbD_of_ge _ _ (Nat.le_of_not_lt low), decide_eq_false low, Bool.and_false]

theorem ushiftRight_mask (word : BitVec 32) (index : Nat) :
    word >>> (8 * index) &&& 255#32 = (byteOf word index).setWidth 32 := by
  apply BitVec.eq_of_getLsbD_eq
  intro bit below
  rw [BitVec.getLsbD_and, getLsbD_255, BitVec.getLsbD_setWidth, decide_eq_true below, Bool.true_and]
  by_cases low : bit < 8
  · rw [getLsbD_byteOf low, decide_eq_true low, Bool.and_true, BitVec.getLsbD_ushiftRight]
  · rw [BitVec.getLsbD_of_ge _ _ (Nat.le_of_not_lt low), decide_eq_false low, Bool.and_false]

end KairosEngine.Library
