import KairosEngine.Library.Checked
import KairosEngine.Library.DigitRoot

/-!
# The exact RMSNorm scale of `cuda_forward.cu`

`bx_isqrt_u64` and `bx_rms_inv`.  The unsigned arithmetic is run once as the device runs it, with
results that wrap, and once with a fit that refuses a result that would.
-/

namespace KairosEngine.Cuda

open KairosEngine.Library

/-! ## Integer square root -/

/-- `while (b > v) b >>= 2`. -/
def isqrtPlace (v b : Nat) : Nat :=
  if v < b then isqrtPlace v (b / 4) else b
termination_by b
decreasing_by omega

/-- The digit loop of `bx_isqrt_u64`. -/
def isqrtDigits (fit : Fit) (v x b : Nat) : Option Nat :=
  if b = 0 then some x
  else do
    let trial ← fit (x + b)
    if trial ≤ v then do
      let root ← fit (x / 2 + b)
      isqrtDigits fit (v - trial) root (b / 4)
    else isqrtDigits fit v (x / 2) (b / 4)
termination_by b
decreasing_by all_goals omega

/-- `bx_isqrt_u64`. -/
def bxIsqrtU64 (fit : Fit) (v : Nat) : Option Nat :=
  if v = 0 then some 0 else isqrtDigits fit v 0 (isqrtPlace v (2 ^ 62))

/-- The first place is the highest power of four that is no larger than the number. -/
theorem isqrtPlace_eq {v : Nat} (positive : 0 < v) :
    ∀ {place : Nat}, v < 4 ^ (place + 1) →
      ∃ first ≤ place, isqrtPlace v (4 ^ place) = 4 ^ first ∧ v < 4 ^ (first + 1)
  | 0, small => ⟨0, le_rfl, by rw [isqrtPlace, if_neg (by omega)], small⟩
  | place + 1, small => by
    rw [isqrtPlace]
    by_cases above : v < 4 ^ (place + 1)
    · obtain ⟨first, inside, found, bound⟩ := isqrtPlace_eq positive above
      rw [if_pos above, pow_succ, Nat.mul_div_cancel _ (by decide)]
      exact ⟨first, by omega, found, bound⟩
    · rw [if_neg above]
      exact ⟨place + 1, le_rfl, rfl, small⟩

/-- The places the loop has left, of which the last is one. -/
def placeBit : Nat → Nat
  | 0 => 0
  | place + 1 => 4 ^ place

theorem placeBit_div (place : Nat) : 4 ^ place / 4 = placeBit place := by
  cases place with
  | zero => rfl
  | succ place => rw [pow_succ, Nat.mul_div_cancel _ (by decide), placeBit]

/-- From a partial root below `2^64` the loop finds the other digits, and nothing wraps. -/
theorem isqrtDigits_eq {fit : Fit} (keeps : Keeps fit) {whole : Nat} (word : whole < 2 ^ 64) :
    ∀ {place root rest : Nat}, place ≤ 32 → PartialRoot whole place root rest →
      isqrtDigits fit rest (root * 4 ^ place) (placeBit place) = some (Nat.sqrt whole)
  | 0, root, rest, _, partialRoot => by
    rw [placeBit, isqrtDigits, if_pos rfl, partialRoot.sqrt_eq, pow_zero, mul_one]
  | place + 1, root, rest, inside, partialRoot => by
    have trial_eq : root * 4 ^ (place + 1) + 4 ^ place = (4 * root + 1) * 4 ^ place := by ring
    have half : root * 4 ^ (place + 1) / 2 = 2 * root * 4 ^ place := by
      have double : root * 4 ^ (place + 1) = 2 * root * 4 ^ place * 2 := by ring
      rw [double, Nat.mul_div_cancel _ (by decide)]
    have positive : 0 < 4 ^ place := Nat.pow_pos (by decide)
    have fits : (root + 1) * 4 ^ (place + 1) ≤ 2 ^ 64 := by
      have digits := @PartialRoot.succ_mul_le _ _ _ _ 32 partialRoot (by omega) inside
      have power : 2 ^ (place + 1) ≤ 2 ^ 32 := Nat.pow_le_pow_right (by decide) inside
      calc (root + 1) * 4 ^ (place + 1)
          = (root + 1) * 2 ^ (place + 1) * 2 ^ (place + 1) := by rw [four_pow]; ring
        _ ≤ 2 ^ 32 * 2 ^ 32 := Nat.mul_le_mul digits power
        _ = 2 ^ 64 := by norm_num
    have room : (4 * root + 4) * 4 ^ place ≤ 2 ^ 64 := by
      calc (4 * root + 4) * 4 ^ place = (root + 1) * 4 ^ (place + 1) := by ring
        _ ≤ 2 ^ 64 := fits
    have trialWord : (4 * root + 1) * 4 ^ place < 2 ^ 64 := by linarith
    have rootWord : (2 * root + 1) * 4 ^ place < 2 ^ 64 :=
      (Nat.mul_le_mul_right _ (by omega)).trans_lt trialWord
    rw [placeBit, isqrtDigits, if_neg positive.ne', trial_eq, half, keeps _ trialWord]
    simp only [Option.bind_eq_bind, Option.bind_some, placeBit_div]
    by_cases holds : (4 * root + 1) * 4 ^ place ≤ rest
    · have next : 2 * root * 4 ^ place + 4 ^ place = (2 * root + 1) * 4 ^ place := by ring
      rw [if_pos holds, next, keeps _ rootWord]
      exact isqrtDigits_eq keeps word (by omega) (partialRoot.one holds)
    · rw [if_neg holds]
      exact isqrtDigits_eq keeps word (by omega) (partialRoot.zero (by omega))

theorem bxIsqrtU64_eq {fit : Fit} (keeps : Keeps fit) {v : Nat} (word : v < 2 ^ 64) :
    bxIsqrtU64 fit v = some (Nat.sqrt v) := by
  unfold bxIsqrtU64
  by_cases zero : v = 0
  · rw [if_pos zero, zero, Nat.sqrt_zero]
  · have small : v < 4 ^ (31 + 1) := by omega
    obtain ⟨first, inside, found, bound⟩ := isqrtPlace_eq (Nat.pos_of_ne_zero zero) small
    have top : (2 ^ 62 : Nat) = 4 ^ 31 := by norm_num
    rw [if_neg zero, top, found]
    have digits := @isqrtDigits_eq fit keeps v word (first + 1) 0 v (by omega)
      (PartialRoot.start bound)
    rwa [zero_mul] at digits

/-! ## The scale -/

/-- `bx_rms_inv`. -/
def bxRmsInv (fit : Fit) (sumsq : Int) (n : Nat) : Option Nat :=
  if sumsq ≤ 0 then some 0
  else do
    let scaled ← fit (n * 2 ^ 50)
    let num := scaled / sumsq.toNat
    let val ← fit (num * 2 ^ 22)
    bxIsqrtU64 fit val

/-- The scale in the integers. -/
def rmsInv (sumsq : Int) (n : Nat) : Nat := Nat.sqrt (2 ^ 22 * (n * 2 ^ 50 / sumsq.toNat))

theorem bxRmsInv_eq {fit : Fit} (keeps : Keeps fit) {sumsq : Int} (positive : 0 < sumsq) {n : Nat}
    (short : n < 2 ^ 13) :
    bxRmsInv fit sumsq n = (fit (n * 2 ^ 50 / sumsq.toNat * 2 ^ 22)).bind (bxIsqrtU64 fit) := by
  rw [bxRmsInv, if_neg (by omega), keeps (n * 2 ^ 50) (by omega)]
  simp only [Option.bind_eq_bind, Option.bind_some]

/-- The quotient has room for the shift. -/
theorem quotient_fits_iff {sumsq : Int} (positive : 0 < sumsq) (n : Nat) :
    n * 2 ^ 50 / sumsq.toNat * 2 ^ 22 < 2 ^ 64 ↔ 256 * n < sumsq := by
  have denominator : 0 < sumsq.toNat := by omega
  have quotient : n * 2 ^ 50 / sumsq.toNat < 2 ^ 42 ↔ n * 2 ^ 50 < 2 ^ 42 * sumsq.toNat :=
    Nat.div_lt_iff_lt_mul denominator
  constructor
  · intro room
    have scaled := quotient.mp (by omega)
    omega
  · intro large
    have below := quotient.mpr (by omega)
    omega

theorem bxRmsInv_of_fits {fit : Fit} (keeps : Keeps fit) {sumsq : Int} (positive : 0 < sumsq)
    {n : Nat} (short : n < 2 ^ 13) (large : 256 * n < sumsq) :
    bxRmsInv fit sumsq n = some (rmsInv sumsq n) := by
  have room := (quotient_fits_iff positive n).mpr large
  rw [bxRmsInv_eq keeps positive short, keeps _ room, Option.bind_some, bxIsqrtU64_eq keeps room,
    rmsInv, Nat.mul_comm]

/-- A quotient that wraps is refused, and the root of what is left is another number. -/
theorem bxRmsInv_wraps {sumsq : Int} (positive : 0 < sumsq) {n : Nat} (short : n < 2 ^ 13)
    (small : sumsq ≤ 256 * n) :
    bxRmsInv watching sumsq n = none ∧ bxRmsInv wrapping sumsq n ≠ some (rmsInv sumsq n) := by
  have wide : 2 ^ 64 ≤ n * 2 ^ 50 / sumsq.toNat * 2 ^ 22 := by
    have fits := quotient_fits_iff positive n
    omega
  constructor
  · rw [bxRmsInv_eq keeps_watching positive short, watching, if_neg (by omega), Option.bind_none]
  · have word : n * 2 ^ 50 / sumsq.toNat * 2 ^ 22 % 2 ^ 64 < 2 ^ 64 := Nat.mod_lt _ (by decide)
    have narrow : Nat.sqrt (n * 2 ^ 50 / sumsq.toNat * 2 ^ 22 % 2 ^ 64) < 2 ^ 32 :=
      Nat.sqrt_lt'.mpr (by omega)
    have exact : 2 ^ 32 ≤ rmsInv sumsq n := by
      unfold rmsInv
      exact Nat.le_sqrt'.mpr (by omega)
    rw [bxRmsInv_eq keeps_wrapping positive short, wrapping, Option.bind_some,
      bxIsqrtU64_eq keeps_wrapping word]
    intro same
    have equal := Option.some.inj same
    omega

/-- The integer root is exact on every word, and the scale exactly where the mean square of the
row is more than `256`. -/
theorem bxRmsInv_exact_iff {sumsq : Int} (positive : 0 < sumsq) {n : Nat}
    (short : n < 2 ^ 13) :
    (∀ v < 2 ^ 64, bxIsqrtU64 wrapping v = some (Nat.sqrt v) ∧
      bxIsqrtU64 watching v = some (Nat.sqrt v)) ∧
    (bxRmsInv wrapping sumsq n = some (rmsInv sumsq n) ∧ (bxRmsInv watching sumsq n).isSome ↔
      256 * n < sumsq) := by
  constructor
  · intro v word
    exact ⟨bxIsqrtU64_eq keeps_wrapping word, bxIsqrtU64_eq keeps_watching word⟩
  · constructor
    · rintro ⟨same, -⟩
      by_contra small
      exact (bxRmsInv_wraps positive short (by omega)).2 same
    · intro large
      rw [bxRmsInv_of_fits keeps_wrapping positive short large,
        bxRmsInv_of_fits keeps_watching positive short large]
      exact ⟨rfl, rfl⟩

theorem bxRmsInv_exact_iff_row :
    bxRmsInv wrapping 100000 4 = some (rmsInv 100000 4) := by
  have exact := @bxRmsInv_exact_iff 100000 (by decide) 4 (by decide)
  exact (exact.2.mpr (by decide)).1

/-- A row of `1024` with one element of the smallest magnitude among zeros: the quotient is
`2 ^ 60` and the shift leaves nothing of it. -/
theorem bxRmsInv_faint_row :
    bxRmsInv wrapping 1 1024 = some 0 ∧ rmsInv 1 1024 = 2 ^ 41 ∧
      bxRmsInv watching 1 1024 = none := by
  refine ⟨?_, ?_, ?_⟩
  · rw [bxRmsInv_eq keeps_wrapping (by decide) (by decide)]
    rfl
  · exact Nat.sqrt_eq (2 ^ 41)
  · rw [bxRmsInv_eq keeps_watching (by decide) (by decide)]
    rfl

end KairosEngine.Cuda
