import Mathlib.Data.List.GetD
import Mathlib.Tactic.Linarith
import KairosEngine.Library.Avx512

/-!
# The integer half of an expert's rows on the host

Codes of four bits are read two to a byte, biased to be unsigned, multiplied with the activations of
the even and of the odd weights, and corrected for the bias.
-/

namespace KairosEngine.Cuda

open KairosEngine.Library

/-- The activations of a call, prepared group by group. -/
structure ActX where
  /-- `in`. -/
  inputs : Nat
  ng : Nat
  n32 : Nat
  qe : Nat → SignedByteLanes
  qo : Nat → SignedByteLanes
  corr : Nat → IntLanes
  lm : Nat → UInt64

/-- The first weight of a byte of a group. -/
def firstWeight (group lane : Nat) : Nat := 32 * (4 * group + lane / 16) + 2 * (lane % 16)

def actxFromQ (qx : List Int8) (inputs : Nat) : ActX :=
  let qe := fun group lane =>
    if firstWeight group lane < inputs then qx.getD (firstWeight group lane) 0 else 0
  let qo := fun group lane =>
    if firstWeight group lane + 1 < inputs then qx.getD (firstWeight group lane + 1) 0 else 0
  { inputs := inputs
    ng := (inputs + 127) / 128
    n32 := inputs / 32
    qe := qe
    qo := qo
    corr := fun group lane => wrap32 (8 * ((List.range 4).map fun byte =>
      (qe group (4 * lane + byte)).toInt + (qo group (4 * lane + byte)).toInt).sum)
    lm := fun group =>
      let bytesLeft := inputs / 2 - 64 * group
      if bytesLeft ≥ 64 then 0xFFFFFFFFFFFFFFFF else (1 <<< UInt64.ofNat bytesLeft) - 1 }

section Row

variable (A : ActX) (row : Nat → UInt8) (group : Nat)

/-- The bytes of the row that the group loads. -/
def loaded : ByteLanes := maskzLoaduEpi8 (A.lm group) fun lane => row (64 * group + lane)

def lowCodes : ByteLanes :=
  xorSi512 (andSi512 (loaded A row group) (set1Epi8 0x0F)) (set1Epi8 0x08)

def highCodes : ByteLanes :=
  xorSi512 (andSi512 (srliEpi16 (loaded A row group) 4) (set1Epi8 0x0F)) (set1Epi8 0x08)

/-! The accumulator of a group after each instruction. -/

def evenDot : IntLanes := dpbusdEpi32 setzeroSi512 (lowCodes A row group) (A.qe group)

def bothDots : IntLanes := dpbusdEpi32 (evenDot A row group) (highCodes A row group) (A.qo group)

def corrected : IntLanes := subEpi32 (bothDots A row group) (A.corr group)

def paired : IntLanes :=
  addEpi32 (corrected A row group) (shuffleEpi32 (corrected A row group) 0xB1)

end Row

/-- Lanes 0, 4, 8 and 12 in front. -/
def pa0 (lane : Nat) : Nat := [0, 4, 8, 12].getD lane 0

/-- Lanes 2, 6, 10 and 14 in front. -/
def pa1 (lane : Nat) : Nat := [2, 6, 10, 14].getD lane 0

/-- The row that starts behind so many others. -/
def codeRow (codes : List UInt8) (A : ActX) (j : Nat) (byte : Nat) : UInt8 :=
  codes.getD (j * (A.inputs / 2) + byte) 0

/-- The arrays `a0` and `a1` of `gemv_rows_exact` once the groups of a row are through, from what
they held before. -/
def gemvRowsExactInts (codes : List UInt8) (A : ActX) (j : Nat) (a0 a1 : Nat → Int) :
    (Nat → Int) × (Nat → Int) :=
  ((List.range A.ng).foldl (fun a0 group =>
      storeSi128 a0 (4 * group)
        (permutexvarEpi32 pa0 (paired A (codeRow codes A j) group))) a0,
    (List.range A.ng).foldl (fun a1 group =>
      storeSi128 a1 (4 * group)
        (permutexvarEpi32 pa1 (paired A (codeRow codes A j) group))) a1)

/-! ## The codes -/

/-- A code of four bits as a signed number. -/
def signedNibble (nibble : Nat) : Int := if nibble < 8 then nibble else nibble - 16

/-- The code of a weight: the low half of its byte for an even one. -/
def signedCode (row : Nat → UInt8) (weight : Nat) : Int :=
  signedNibble (if weight % 2 = 0 then (row (weight / 2)).toNat % 16
    else (row (weight / 2)).toNat / 16)

/-- What one weight adds to a row. -/
def term (row : Nat → UInt8) (qx : List Int8) (weight : Nat) : Int :=
  signedCode row weight * (qx.getD weight 0).toInt

theorem signedNibble_bounds {nibble : Nat} (small : nibble < 16) :
    -8 ≤ signedNibble nibble ∧ signedNibble nibble ≤ 7 := by
  rw [signedNibble]
  split
  next => omega
  next => omega

/-- Flipping the top bit adds eight to the signed value. -/
theorem xor_eight {nibble : Nat} (small : nibble < 16) :
    ((nibble ^^^ 8 : Nat) : Int) = signedNibble nibble + 8 := by
  have all : ∀ nibble < 16, ((nibble ^^^ 8 : Nat) : Int) = signedNibble nibble + 8 := by decide
  exact all nibble small

section Codes

variable (A : ActX) (row : Nat → UInt8) (group lane : Nat)

theorem lowCodes_eq :
    ((lowCodes A row group lane).toNat : Int) =
      signedNibble ((loaded A row group lane).toNat % 16) + 8 := by
  have mask : (0x0F : UInt8).toNat = 2 ^ 4 - 1 := rfl
  rw [← xor_eight (Nat.mod_lt _ (by decide)), lowCodes, xorSi512, andSi512, set1Epi8, set1Epi8,
    UInt8.toNat_xor, UInt8.toNat_and, mask, Nat.and_two_pow_sub_one_eq_mod]
  rfl

theorem highCodes_eq :
    ((highCodes A row group lane).toNat : Int) =
      signedNibble ((loaded A row group lane).toNat / 16) + 8 := by
  have small : (loaded A row group lane).toNat / 16 < 16 :=
    Nat.div_lt_of_lt_mul (loaded A row group lane).toNat_lt
  rw [← xor_eight small, ← srliEpi16_and, highCodes, xorSi512, UInt8.toNat_xor]
  rfl

end Codes

/-! ## No lane overflows -/

section Sums

variable (A : ActX) (row : Nat → UInt8) (group lane : Nat)

def evenSum : Int := ((List.range 4).map fun byte =>
  ((lowCodes A row group (4 * lane + byte)).toNat : Int) *
    (A.qe group (4 * lane + byte)).toInt).sum

def oddSum : Int := ((List.range 4).map fun byte =>
  ((highCodes A row group (4 * lane + byte)).toNat : Int) *
    (A.qo group (4 * lane + byte)).toInt).sum

def activationSum : Int := ((List.range 4).map fun byte =>
  (A.qe group (4 * lane + byte)).toInt + (A.qo group (4 * lane + byte)).toInt).sum

/-- Every instruction of a group leaves in the lane what it computes, without wrapping. -/
structure LaneExact : Prop where
  even : evenDot A row group lane = evenSum A row group lane
  both : bothDots A row group lane = evenDot A row group lane + oddSum A row group lane
  corr : A.corr group lane = 8 * activationSum A group lane
  corrected : corrected A row group lane = bothDots A row group lane - A.corr group lane
  paired : paired A row group lane =
    Cuda.corrected A row group lane + shuffleEpi32 (Cuda.corrected A row group) 0xB1 lane

end Sums

theorem sum_four (values : Nat → Int) :
    ((List.range 4).map values).sum = values 0 + values 1 + values 2 + values 3 := by
  simp only [List.range, List.range.loop, List.map_cons, List.map_nil, List.sum_cons, List.sum_nil]
  ring

/-- Four numbers within a bound add up to four times the bound at most. -/
theorem sum_four_bounds {values : Nat → Int} {bound : Int}
    (within : ∀ index, -bound ≤ values index ∧ values index ≤ bound) :
    -(4 * bound) ≤ ((List.range 4).map values).sum ∧
      ((List.range 4).map values).sum ≤ 4 * bound := by
  rw [sum_four]
  have first := within 0
  have second := within 1
  have third := within 2
  have fourth := within 3
  omega

/-- A code times a quantized activation. -/
theorem product_bounds {code activation : Int} {largest : Nat} (coded : code.natAbs ≤ largest)
    (within : -127 ≤ activation ∧ activation ≤ 127) :
    -((largest * 127 : Nat) : Int) ≤ code * activation ∧
      code * activation ≤ (largest * 127 : Nat) := by
  have magnitude : (code * activation).natAbs ≤ largest * 127 := by
    rw [Int.natAbs_mul]
    exact Nat.mul_le_mul coded (by omega)
  omega

section Exact

variable {qx : List Int8} (range : ∀ activation ∈ qx, -127 ≤ activation.toInt ∧
  activation.toInt ≤ 127) (inputs : Nat)

include range

theorem getD_range (weight : Nat) :
    -127 ≤ (qx.getD weight 0).toInt ∧ (qx.getD weight 0).toInt ≤ 127 := by
  rcases Nat.lt_or_ge weight qx.length with inside | outside
  · rw [List.getD_eq_getElem _ _ inside]
    exact range _ (List.getElem_mem inside)
  · rw [List.getD_eq_default _ _ outside]
    decide

theorem qe_range (group lane : Nat) :
    -127 ≤ ((actxFromQ qx inputs).qe group lane).toInt ∧
      ((actxFromQ qx inputs).qe group lane).toInt ≤ 127 := by
  simp only [actxFromQ]
  split
  next => exact getD_range range _
  next => decide

theorem qo_range (group lane : Nat) :
    -127 ≤ ((actxFromQ qx inputs).qo group lane).toInt ∧
      ((actxFromQ qx inputs).qo group lane).toInt ≤ 127 := by
  simp only [actxFromQ]
  split
  next => exact getD_range range _
  next => decide

theorem evenSum_bounds (row : Nat → UInt8) (group lane : Nat) :
    -7620 ≤ evenSum (actxFromQ qx inputs) row group lane ∧
      evenSum (actxFromQ qx inputs) row group lane ≤ 7620 := by
  refine @sum_four_bounds _ 1905 fun byte => ?_
  have code := signedNibble_bounds (Nat.mod_lt
    (loaded (actxFromQ qx inputs) row group (4 * lane + byte)).toNat (show 0 < 16 by decide))
  rw [lowCodes_eq]
  exact @product_bounds _ _ 15 (by omega) (qe_range range inputs group _)

theorem oddSum_bounds (row : Nat → UInt8) (group lane : Nat) :
    -7620 ≤ oddSum (actxFromQ qx inputs) row group lane ∧
      oddSum (actxFromQ qx inputs) row group lane ≤ 7620 := by
  refine @sum_four_bounds _ 1905 fun byte => ?_
  have code := signedNibble_bounds (Nat.div_lt_of_lt_mul (n := 16)
    (loaded (actxFromQ qx inputs) row group (4 * lane + byte)).toNat_lt)
  rw [highCodes_eq]
  exact @product_bounds _ _ 15 (by omega) (qo_range range inputs group _)

theorem activationSum_bounds (group lane : Nat) :
    -1016 ≤ activationSum (actxFromQ qx inputs) group lane ∧
      activationSum (actxFromQ qx inputs) group lane ≤ 1016 := by
  refine @sum_four_bounds _ 254 fun byte => ?_
  have even := qe_range range inputs group (4 * lane + byte)
  have odd := qo_range range inputs group (4 * lane + byte)
  omega

/-- The bounds of the accumulator grow with each instruction and stay far below `2 ^ 31`. -/
theorem corrected_exact (row : Nat → UInt8) (group lane : Nat) :
    evenDot (actxFromQ qx inputs) row group lane = evenSum (actxFromQ qx inputs) row group lane ∧
      bothDots (actxFromQ qx inputs) row group lane =
        evenDot (actxFromQ qx inputs) row group lane +
          oddSum (actxFromQ qx inputs) row group lane ∧
      (actxFromQ qx inputs).corr group lane = 8 * activationSum (actxFromQ qx inputs) group lane ∧
      corrected (actxFromQ qx inputs) row group lane =
        bothDots (actxFromQ qx inputs) row group lane - (actxFromQ qx inputs).corr group lane ∧
      -23368 ≤ corrected (actxFromQ qx inputs) row group lane ∧
      corrected (actxFromQ qx inputs) row group lane ≤ 23368 := by
  have low := evenSum_bounds range inputs row group lane
  have high := oddSum_bounds range inputs row group lane
  have bias := activationSum_bounds range inputs group lane
  have even : evenDot (actxFromQ qx inputs) row group lane =
      evenSum (actxFromQ qx inputs) row group lane := by
    have zero : evenDot (actxFromQ qx inputs) row group lane =
        wrap32 (0 + evenSum (actxFromQ qx inputs) row group lane) := rfl
    rw [zero, Int.zero_add]
    exact wrap32_of_bounds (by omega) (by omega)
  have both : bothDots (actxFromQ qx inputs) row group lane =
      evenDot (actxFromQ qx inputs) row group lane +
        oddSum (actxFromQ qx inputs) row group lane := by
    have wrapped : bothDots (actxFromQ qx inputs) row group lane =
        wrap32 (evenDot (actxFromQ qx inputs) row group lane +
          oddSum (actxFromQ qx inputs) row group lane) := rfl
    rw [wrapped]
    exact wrap32_of_bounds (by omega) (by omega)
  have corr : (actxFromQ qx inputs).corr group lane =
      8 * activationSum (actxFromQ qx inputs) group lane := by
    have wrapped : (actxFromQ qx inputs).corr group lane =
        wrap32 (8 * activationSum (actxFromQ qx inputs) group lane) := rfl
    rw [wrapped]
    exact wrap32_of_bounds (by omega) (by omega)
  have difference : corrected (actxFromQ qx inputs) row group lane =
      bothDots (actxFromQ qx inputs) row group lane - (actxFromQ qx inputs).corr group lane :=
    wrap32_of_bounds (by omega) (by omega)
  refine ⟨even, both, corr, difference, ?_, ?_⟩
  · omega
  · omega

theorem laneExact (row : Nat → UInt8) (group lane : Nat) :
    LaneExact (actxFromQ qx inputs) row group lane := by
  obtain ⟨even, both, corr, difference, below, above⟩ :=
    corrected_exact range inputs row group lane
  obtain ⟨_, _, _, _, otherBelow, otherAbove⟩ :=
    corrected_exact range inputs row group (4 * (lane / 4) + 0xB1 / 4 ^ (lane % 4) % 4)
  exact ⟨even, both, corr, difference,
    wrap32_of_bounds (by simp only [shuffleEpi32]; omega) (by simp only [shuffleEpi32]; omega)⟩

end Exact

/-! ## What a lane holds -/

/-- What a weight adds, and nothing behind the row. -/
def termWithin (row : Nat → UInt8) (qx : List Int8) (inputs weight : Nat) : Int :=
  if weight < inputs then term row qx weight else 0

/-- So many weights from a first one on. -/
def span (row : Nat → UInt8) (qx : List Int8) (inputs base count : Nat) : Int :=
  ((List.range count).map fun index => termWithin row qx inputs (base + index)).sum

section Value

variable {row : Nat → UInt8} {qx : List Int8} {inputs : Nat}

theorem span_add (base first second : Nat) :
    span row qx inputs base (first + second) =
      span row qx inputs base first + span row qx inputs (base + first) second := by
  simp only [span, List.range_add, List.map_append, List.sum_append, List.map_map, Nat.add_assoc]
  rfl

theorem firstWeight_eq (group lane : Nat) : firstWeight group lane = 2 * (64 * group + lane) := by
  rw [firstWeight]
  omega

/-- The mask lets through the bytes of the row. -/
theorem lm_testBit (qx : List Int8) (inputs group : Nat) {lane : Nat} (inside : lane < 64) :
    ((actxFromQ qx inputs).lm group).toNat.testBit lane =
      decide (64 * group + lane < inputs / 2) := by
  simp only [actxFromQ]
  split
  next full =>
    have ones : (0xFFFFFFFFFFFFFFFF : UInt64).toNat = 2 ^ 64 - 1 := rfl
    rw [ones, Nat.testBit_two_pow_sub_one]
    apply decide_eq_decide.mpr
    omega
  next partly =>
    have below : inputs / 2 - 64 * group < 64 := Nat.lt_of_not_le partly
    have amount : (UInt64.ofNat (inputs / 2 - 64 * group)).toNat % 64 =
        inputs / 2 - 64 * group := by
      rw [UInt64.toNat_ofNat_of_lt' (Nat.lt_trans below (by decide)), Nat.mod_eq_of_lt below]
    have power : (1 <<< UInt64.ofNat (inputs / 2 - 64 * group) : UInt64).toNat =
        2 ^ (inputs / 2 - 64 * group) := by
      rw [UInt64.toNat_shiftLeft, amount]
      calc 1 <<< (inputs / 2 - 64 * group) % 2 ^ 64
          = 2 ^ (inputs / 2 - 64 * group) % 2 ^ 64 := by rw [Nat.one_shiftLeft]
        _ = 2 ^ (inputs / 2 - 64 * group) :=
          Nat.mod_eq_of_lt (Nat.pow_lt_pow_right (by decide) below)
    have positive : (1 : UInt64) ≤ 1 <<< UInt64.ofNat (inputs / 2 - 64 * group) := by
      rw [UInt64.le_iff_toNat_le, power]
      exact Nat.one_le_two_pow
    rw [UInt64.toNat_sub_of_le _ _ positive, power]
    rw [show (1 : UInt64).toNat = 1 from rfl, Nat.testBit_two_pow_sub_one]
    apply decide_eq_decide.mpr
    omega

theorem loaded_eq (group : Nat) {lane : Nat} (inside : lane < 64) :
    loaded (actxFromQ qx inputs) row group lane =
      if 64 * group + lane < inputs / 2 then row (64 * group + lane) else 0 := by
  rw [loaded, maskzLoaduEpi8, lm_testBit qx inputs group inside]
  simp only [decide_eq_true_eq]

theorem qe_eq (group lane : Nat) :
    (actxFromQ qx inputs).qe group lane =
      if 2 * (64 * group + lane) < inputs then qx.getD (2 * (64 * group + lane)) 0 else 0 := by
  rw [← firstWeight_eq]
  rfl

theorem qo_eq (group lane : Nat) :
    (actxFromQ qx inputs).qo group lane =
      if 2 * (64 * group + lane) + 1 < inputs then qx.getD (2 * (64 * group + lane) + 1) 0
      else 0 := by
  rw [← firstWeight_eq]
  rfl

/-- A byte gives its two weights; behind the row the activations are zero. -/
theorem byte_terms (even : inputs % 2 = 0) (group : Nat) {lane : Nat} (inside : lane < 64) :
    signedNibble ((loaded (actxFromQ qx inputs) row group lane).toNat % 16) *
          ((actxFromQ qx inputs).qe group lane).toInt =
        termWithin row qx inputs (2 * (64 * group + lane)) ∧
      signedNibble ((loaded (actxFromQ qx inputs) row group lane).toNat / 16) *
          ((actxFromQ qx inputs).qo group lane).toInt =
        termWithin row qx inputs (2 * (64 * group + lane) + 1) := by
  have half : 2 * (64 * group + lane) / 2 = 64 * group + lane := by omega
  have halfOdd : (2 * (64 * group + lane) + 1) / 2 = 64 * group + lane := by omega
  have low : 2 * (64 * group + lane) % 2 = 0 := by omega
  have high : ¬(2 * (64 * group + lane) + 1) % 2 = 0 := by omega
  rw [loaded_eq group inside, qe_eq, qo_eq, termWithin, termWithin, term, term, signedCode,
    signedCode, half, halfOdd, if_pos low, if_neg high]
  by_cases within : 64 * group + lane < inputs / 2
  · have first : 2 * (64 * group + lane) < inputs := by omega
    have second : 2 * (64 * group + lane) + 1 < inputs := by omega
    rw [if_pos within, if_pos first, if_pos first, if_pos second, if_pos second]
    exact ⟨rfl, rfl⟩
  · have first : ¬2 * (64 * group + lane) < inputs := by omega
    have second : ¬2 * (64 * group + lane) + 1 < inputs := by omega
    rw [if_neg first, if_neg first, if_neg second, if_neg second]
    exact ⟨Int.mul_zero _, Int.mul_zero _⟩

/-- A lane of 32 bits holds the sum over its eight weights. -/
theorem corrected_eq (range : ∀ activation ∈ qx, -127 ≤ activation.toInt ∧ activation.toInt ≤ 127)
    (even : inputs % 2 = 0) (group : Nat) {lane : Nat} (inside : lane < 16) :
    corrected (actxFromQ qx inputs) row group lane =
      span row qx inputs (128 * group + 8 * lane) 8 := by
  obtain ⟨evens, both, corr, difference, _, _⟩ := corrected_exact range inputs row group lane
  have bytes := fun byte (small : byte < 4) =>
    @byte_terms row qx inputs even group (4 * lane + byte) (by omega)
  have place : ∀ byte, 2 * (64 * group + (4 * lane + byte)) = 128 * group + 8 * lane + 2 * byte :=
    fun byte => by omega
  have eight : span row qx inputs (128 * group + 8 * lane) 8 =
      ((List.range 4).map fun byte =>
        termWithin row qx inputs (128 * group + 8 * lane + 2 * byte) +
          termWithin row qx inputs (128 * group + 8 * lane + 2 * byte + 1)).sum := by
    rw [sum_four]
    simp only [span, List.range, List.range.loop, List.map_cons, List.map_nil, List.sum_cons,
      List.sum_nil]
    ring
  rw [difference, both, evens, corr, eight, evenSum, oddSum, activationSum, sum_four, sum_four,
    sum_four, sum_four]
  simp only [lowCodes_eq, highCodes_eq, ← place, ← (bytes 0 (by decide)).1,
    ← (bytes 0 (by decide)).2, ← (bytes 1 (by decide)).1, ← (bytes 1 (by decide)).2,
    ← (bytes 2 (by decide)).1, ← (bytes 2 (by decide)).2, ← (bytes 3 (by decide)).1,
    ← (bytes 3 (by decide)).2]
  ring

/-- A pair of lanes holds the sum over half a chunk. -/
theorem paired_eq (range : ∀ activation ∈ qx, -127 ≤ activation.toInt ∧ activation.toInt ≤ 127)
    (even : inputs % 2 = 0) (group : Nat) {half : Nat} (inside : half < 8) :
    paired (actxFromQ qx inputs) row group (2 * half) =
      span row qx inputs (128 * group + 16 * half) 16 := by
  have neighbour : 4 * (2 * half / 4) + 0xB1 / 4 ^ (2 * half % 4) % 4 = 2 * half + 1 := by
    have cases : 2 * half % 4 = 0 ∨ 2 * half % 4 = 2 := by omega
    rcases cases with first | second
    · rw [first]
      omega
    · rw [second]
      omega
  rw [(laneExact range inputs row group (2 * half)).paired, shuffleEpi32, neighbour,
    corrected_eq range even group (by omega), corrected_eq range even group (by omega),
    show 16 = 8 + 8 from rfl, span_add]
  congr 2
  · omega
  · omega

end Value

/-! ## The chunks -/

section Chunks

variable {qx : List Int8} {inputs : Nat}

theorem span_within (row : Nat → UInt8) (qx : List Int8) {base count : Nat}
    (within : base + count ≤ inputs) :
    span row qx inputs base count =
      ((List.range count).map fun index => term row qx (base + index)).sum := by
  rw [span]
  congr 1
  apply List.map_congr_left
  intro index member
  have inside := List.mem_range.mp member
  rw [termWithin, if_pos (by omega)]

/-- The two sums of every chunk of a row are the exact dot products over its first and its second
sixteen weights, and no lane overflows on the way. -/
theorem gemvRowsExactInts_exact (whole : inputs % 32 = 0) (bound : inputs ≤ 4096)
    (range : ∀ activation ∈ qx, -127 ≤ activation.toInt ∧ activation.toInt ≤ 127)
    (codes : List UInt8) (j : Nat) (a0 a1 : Nat → Int) :
    (∀ chunk < inputs / 32,
      (gemvRowsExactInts codes (actxFromQ qx inputs) j a0 a1).1 chunk =
          ((List.range 16).map fun index =>
            term (codeRow codes (actxFromQ qx inputs) j) qx (32 * chunk + index)).sum ∧
        (gemvRowsExactInts codes (actxFromQ qx inputs) j a0 a1).2 chunk =
          ((List.range 16).map fun index =>
            term (codeRow codes (actxFromQ qx inputs) j) qx (32 * chunk + 16 + index)).sum) ∧
      (∀ group lane, LaneExact (actxFromQ qx inputs) (codeRow codes (actxFromQ qx inputs) j) group
        lane) ∧
      4 * (actxFromQ qx inputs).ng ≤ 128 := by
  have even : inputs % 2 = 0 := by omega
  have groups : (actxFromQ qx inputs).ng = (inputs + 127) / 128 := rfl
  refine ⟨fun chunk before => ?_, laneExact range inputs _, by rw [groups]; omega⟩
  have stored : chunk < 4 * (actxFromQ qx inputs).ng := by
    rw [groups]
    omega
  have quarter : chunk % 4 < 4 := Nat.mod_lt _ (by decide)
  have first : pa0 (chunk % 4) % 16 = 2 * (2 * (chunk % 4)) := by
    have all : ∀ lane < 4, pa0 lane % 16 = 2 * (2 * lane) := by decide
    exact all _ quarter
  have second : pa1 (chunk % 4) % 16 = 2 * (2 * (chunk % 4) + 1) := by
    have all : ∀ lane < 4, pa1 lane % 16 = 2 * (2 * lane + 1) := by decide
    exact all _ quarter
  have base : 128 * (chunk / 4) + 16 * (2 * (chunk % 4)) = 32 * chunk := by omega
  have baseSecond : 128 * (chunk / 4) + 16 * (2 * (chunk % 4) + 1) = 32 * chunk + 16 := by omega
  simp only [gemvRowsExactInts]
  rw [foldl_storeSi128, foldl_storeSi128, if_pos stored, if_pos stored, permutexvarEpi32,
    permutexvarEpi32, first, second, paired_eq range even _ (by omega),
    paired_eq range even _ (by omega), base, baseSecond, span_within _ _ (by omega),
    span_within _ _ (by omega)]
  exact ⟨rfl, rfl⟩

/-- A chunk in the last of two groups, with the code -8 on the activation 127 throughout. -/
theorem gemvRowsExactInts_exact_lowest :
    (gemvRowsExactInts (List.replicate 80 0x88) (actxFromQ (List.replicate 160 127) 160) 0
        (fun _ => 0) (fun _ => 0)).1 4 = -16256 := by
  have range : ∀ activation ∈ List.replicate 160 (127 : Int8),
      -127 ≤ activation.toInt ∧ activation.toInt ≤ 127 := by
    intro activation member
    rw [List.eq_of_mem_replicate member]
    decide
  have exactly := (@gemvRowsExactInts_exact (List.replicate 160 127) 160 (by decide) (by decide)
    range (List.replicate 80 0x88) 0 (fun _ => 0) (fun _ => 0)).1 4 (by decide)
  rw [exactly.1]
  decide

end Chunks

end KairosEngine.Cuda
