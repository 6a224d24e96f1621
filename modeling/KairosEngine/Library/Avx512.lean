import Mathlib.Data.List.Basic
import Mathlib.Tactic.Ring

/-!
# Integer instructions on registers of 512 bits

A register is a function of the lane: 64 bytes, or 16 signed numbers of 32 bits.  Lanes beyond the
register carry nothing.  What a lane of 32 bits cannot hold wraps round.
-/

namespace KairosEngine.Library

abbrev ByteLanes := Nat → UInt8

abbrev SignedByteLanes := Nat → Int8

abbrev IntLanes := Nat → Int

def wrap32 (value : Int) : Int := value.bmod (2 ^ 32)

theorem wrap32_of_bounds {value : Int} (low : -2 ^ 31 ≤ value) (high : value < 2 ^ 31) :
    wrap32 value = value := by
  apply Int.bmod_eq_of_le
  · exact low
  · exact high

/-- `maskz_loadu_epi8`. -/
def maskzLoaduEpi8 (mask : UInt64) (memory : Nat → UInt8) : ByteLanes := fun lane =>
  if mask.toNat.testBit lane then memory lane else 0

def set1Epi8 (value : UInt8) : ByteLanes := fun _ => value

def andSi512 (first second : ByteLanes) : ByteLanes := fun lane => first lane &&& second lane

def xorSi512 (first second : ByteLanes) : ByteLanes := fun lane => first lane ^^^ second lane

/-- `srli_epi16`: two neighbouring bytes are one word, the even one the low one. -/
def srliEpi16 (value : ByteLanes) (count : Nat) : ByteLanes := fun lane =>
  let word := (value (2 * (lane / 2))).toNat + 256 * (value (2 * (lane / 2) + 1)).toNat
  UInt8.ofNat (word / 2 ^ count / 256 ^ (lane % 2))

/-- `dpbusd_epi32`: four products of an unsigned and a signed byte on top of each lane. -/
def dpbusdEpi32 (acc : IntLanes) (unsigned : ByteLanes) (signed : SignedByteLanes) : IntLanes :=
  fun lane => wrap32 (acc lane + ((List.range 4).map fun byte =>
    ((unsigned (4 * lane + byte)).toNat : Int) * (signed (4 * lane + byte)).toInt).sum)

def setzeroSi512 : IntLanes := fun _ => 0

def subEpi32 (first second : IntLanes) : IntLanes := fun lane => wrap32 (first lane - second lane)

def addEpi32 (first second : IntLanes) : IntLanes := fun lane => wrap32 (first lane + second lane)

/-- `shuffle_epi32`: two bits of the immediate for each lane of a quarter. -/
def shuffleEpi32 (value : IntLanes) (imm : Nat) : IntLanes := fun lane =>
  value (4 * (lane / 4) + imm / 4 ^ (lane % 4) % 4)

def permutexvarEpi32 (index : Nat → Nat) (value : IntLanes) : IntLanes := fun lane =>
  value (index lane % 16)

/-- The low quarter of a register stored at a place of an array. -/
def storeSi128 (memory : Nat → Int) (place : Nat) (value : IntLanes) : Nat → Int := fun index =>
  if place ≤ index ∧ index < place + 4 then value (index - place) else memory index

/-- The high half of every byte, shifted down within its word and cut off. -/
theorem srliEpi16_and (value : ByteLanes) (lane : Nat) :
    (andSi512 (srliEpi16 value 4) (set1Epi8 0x0F) lane).toNat = (value lane).toNat / 16 := by
  have byte : (value lane).toNat < 256 := (value lane).toNat_lt
  have mask : (0x0F : UInt8).toNat = 2 ^ 4 - 1 := rfl
  rw [andSi512, srliEpi16, set1Epi8, UInt8.toNat_and, mask, Nat.and_two_pow_sub_one_eq_mod,
    UInt8.toNat_ofNat']
  rcases Nat.mod_two_eq_zero_or_one lane with even | odd
  · have same : 2 * (lane / 2) = lane := by omega
    rw [even, same, pow_zero]
    omega
  · have same : 2 * (lane / 2) + 1 = lane := by omega
    have other : (value (2 * (lane / 2))).toNat < 256 := (value _).toNat_lt
    rw [odd, same, pow_one]
    omega

/-- Quarters stored one behind the other. -/
theorem foldl_storeSi128 (lanes : Nat → IntLanes) (memory : Nat → Int) (count index : Nat) :
    ((List.range count).foldl (fun memory group => storeSi128 memory (4 * group) (lanes group))
      memory) index =
      if index < 4 * count then lanes (index / 4) (index % 4) else memory index := by
  induction count with
  | zero => rfl
  | succ count inductionHypothesis =>
      rw [List.range_succ, List.foldl_append, List.foldl_cons, List.foldl_nil, storeSi128,
        inductionHypothesis]
      by_cases last : 4 * count ≤ index ∧ index < 4 * count + 4
      · have group : index / 4 = count := by omega
        have lane : index - 4 * count = index % 4 := by omega
        rw [if_pos last, if_pos (by omega), group, lane]
      · rw [if_neg last]
        by_cases before : index < 4 * count
        · rw [if_pos before, if_pos (by omega)]
        · rw [if_neg before, if_neg (by omega)]

end KairosEngine.Library
