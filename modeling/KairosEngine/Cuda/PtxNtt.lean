import Mathlib.Data.Int.Basic
import KairosEngine.Library.Barrett

/-!
# Modular products on the device

The device multiplies, shifts and subtracts in words of 32 bits; the reference does the same in
words of 64.  Both estimate the quotient in the way of Barrett and make up for the estimate with
two conditional subtractions.
-/

namespace KairosEngine.Cuda

open KairosEngine.Library

/-- A prime of thirty bits with its reciprocal. -/
structure BarrettPrime where
  q : UInt32
  mu : UInt32
  low : 2 ^ 29 ≤ q.toNat
  high : q.toNat < 2 ^ 30
  reciprocal : mu.toNat = 2 ^ 60 / q.toNat

/-- `PTX_NTT_Q1` with `PTX_MU_Q1`. -/
def primeQ1 : BarrettPrime where
  q := 1073738753
  mu := 1073744895
  low := by decide
  high := by decide
  reciprocal := by decide

/-- `PTX_NTT_Q2` with `PTX_MU_Q2`. -/
def primeQ2 : BarrettPrime where
  q := 1073732609
  mu := 1073751039
  low := by decide
  high := by decide
  reciprocal := by decide

def barrettReduce32Ref (x : UInt64) (q mu : UInt32) : UInt32 :=
  let qhat := ((x >>> 29) * mu.toUInt64) >>> 31
  let r := x - qhat * q.toUInt64
  let r := if r ≥ q.toUInt64 then r - q.toUInt64 else r
  let r := if r ≥ q.toUInt64 then r - q.toUInt64 else r
  r.toUInt32

def modmulRef (prime : BarrettPrime) (a b : UInt32) : UInt32 :=
  barrettReduce32Ref (a.toUInt64 * b.toUInt64) prime.q prime.mu

def modmulRefQ1 : UInt32 → UInt32 → UInt32 := modmulRef primeQ1

def modmulRefQ2 : UInt32 → UInt32 → UInt32 := modmulRef primeQ2

/-! ## The instructions -/

/-- `mul.lo.u32`. -/
def mulLo (a b : UInt32) : UInt32 := a * b

/-- `mul.hi.u32`. -/
def mulHi (a b : UInt32) : UInt32 := ((a.toUInt64 * b.toUInt64) >>> 32).toUInt32

/-- `shf.r.wrap.b32`: the low word of the two words shifted as one. -/
def shfRWrap (low high : UInt32) (count : UInt64) : UInt32 :=
  ((high.toUInt64 <<< 32 ||| low.toUInt64) >>> (count % 32)).toUInt32

/-- `sub.u32`. -/
def subWrap (a b : UInt32) : UInt32 := a - b

def ptxModmul (prime : BarrettPrime) (a b : UInt32) : UInt32 :=
  let lo := mulLo a b
  let hi := mulHi a b
  let shLo := shfRWrap lo hi 29
  let mlo := mulLo shLo prime.mu
  let mhi := mulHi shLo prime.mu
  let qhat := shfRWrap mlo mhi 31
  let qlo := mulLo qhat prime.q
  let rlo := subWrap lo qlo
  let res := if rlo ≥ prime.q then rlo - prime.q else rlo
  if res ≥ prime.q then res - prime.q else res

def ptxModmulQ1 : UInt32 → UInt32 → UInt32 := ptxModmul primeQ1

def ptxModmulQ2 : UInt32 → UInt32 → UInt32 := ptxModmul primeQ2

/-- What the butterfly leaves in `*a` and `*b`. -/
def ptxButterfly (prime : BarrettPrime) (a b w : UInt32) : UInt32 × UInt32 :=
  let wb := ptxModmul prime b w
  let t := a + wb
  let t := if t ≥ prime.q then t - prime.q else t
  let u := a + prime.q - wb
  let u := if u ≥ prime.q then u - prime.q else u
  (t, u)

def ptxButterflyQ1 : UInt32 → UInt32 → UInt32 → UInt32 × UInt32 := ptxButterfly primeQ1

def ptxButterflyQ2 : UInt32 → UInt32 → UInt32 → UInt32 × UInt32 := ptxButterfly primeQ2

/-! ## What the words hold -/

theorem condSub_toNat32 (r q : UInt32) :
    (if r ≥ q then r - q else r).toNat = condSub q.toNat r.toNat := by
  rw [condSub]
  by_cases above : q ≤ r
  · rw [if_pos above, if_pos (UInt32.le_iff_toNat_le.mp above), UInt32.toNat_sub_of_le _ _ above]
  · rw [if_neg above, if_neg fun le => above (UInt32.le_iff_toNat_le.mpr le)]

theorem condSub_toNat64 (r q : UInt64) :
    (if r ≥ q then r - q else r).toNat = condSub q.toNat r.toNat := by
  rw [condSub]
  by_cases above : q ≤ r
  · rw [if_pos above, if_pos (UInt64.le_iff_toNat_le.mp above), UInt64.toNat_sub_of_le _ _ above]
  · rw [if_neg above, if_neg fun le => above (UInt64.le_iff_toNat_le.mpr le)]

theorem shiftRight_toNat (x : UInt64) {count : UInt64} (small : count.toNat < 64) :
    (x >>> count).toNat = x.toNat / 2 ^ count.toNat := by
  rw [UInt64.toNat_shiftRight, Nat.mod_eq_of_lt small, Nat.shiftRight_eq_div_pow]

/-- A product of two words fits two words. -/
theorem product_lt (a b : UInt32) : a.toNat * b.toNat < 2 ^ 64 :=
  calc a.toNat * b.toNat < 2 ^ 32 * 2 ^ 32 := Nat.mul_lt_mul'' a.toNat_lt b.toNat_lt
    _ = 2 ^ 64 := rfl

theorem product_toNat (a b : UInt32) : (a.toUInt64 * b.toUInt64).toNat = a.toNat * b.toNat := by
  rw [UInt64.toNat_mul, UInt32.toNat_toUInt64, UInt32.toNat_toUInt64,
    Nat.mod_eq_of_lt (product_lt a b)]

theorem mulLo_toNat (a b : UInt32) : (mulLo a b).toNat = a.toNat * b.toNat % 2 ^ 32 :=
  UInt32.toNat_mul a b

theorem mulHi_toNat (a b : UInt32) : (mulHi a b).toNat = a.toNat * b.toNat / 2 ^ 32 := by
  have shifted : ((a.toUInt64 * b.toUInt64) >>> 32).toNat =
      (a.toUInt64 * b.toUInt64).toNat / 2 ^ 32 := shiftRight_toNat _ (by decide)
  rw [mulHi, UInt64.toNat_toUInt32, shifted, product_toNat]
  exact Nat.mod_eq_of_lt (Nat.div_lt_of_lt_mul (product_lt a b))

/-- The two words of a number side by side. -/
theorem funnel_toNat {low high : UInt32} {value : Nat} (fits : value < 2 ^ 64)
    (lowWord : low.toNat = value % 2 ^ 32) (highWord : high.toNat = value / 2 ^ 32) :
    (high.toUInt64 <<< 32 ||| low.toUInt64).toNat = value := by
  have above : 2 ^ 32 * high.toNat < 2 ^ 64 := by
    rw [highWord]
    exact (Nat.mul_div_le value (2 ^ 32)).trans_lt fits
  have left : (high.toUInt64 <<< 32).toNat = 2 ^ 32 * high.toNat := by
    rw [UInt64.toNat_shiftLeft, UInt32.toNat_toUInt64]
    calc high.toNat <<< 32 % 2 ^ 64 = 2 ^ 32 * high.toNat % 2 ^ 64 := by
          rw [Nat.shiftLeft_eq, Nat.mul_comm]
      _ = 2 ^ 32 * high.toNat := Nat.mod_eq_of_lt above
  rw [UInt64.toNat_or, left, UInt32.toNat_toUInt64, ← Nat.two_pow_add_eq_or_of_lt low.toNat_lt,
    lowWord, highWord, Nat.div_add_mod]

/-- The funnel shift of a number whose shifted value fits a word. -/
theorem shfRWrap_toNat {low high : UInt32} {value : Nat} {count : UInt64} (small : count.toNat < 32)
    (fits : value < 2 ^ 64) (lowWord : low.toNat = value % 2 ^ 32)
    (highWord : high.toNat = value / 2 ^ 32) (short : value / 2 ^ count.toNat < 2 ^ 32) :
    (shfRWrap low high count).toNat = value / 2 ^ count.toNat := by
  have amount : (count % 32).toNat % 64 = count.toNat := by
    rw [UInt64.toNat_mod, show (32 : UInt64).toNat = 32 from rfl, Nat.mod_eq_of_lt small,
      Nat.mod_eq_of_lt (small.trans (by decide))]
  rw [shfRWrap, UInt64.toNat_toUInt32, UInt64.toNat_shiftRight, funnel_toNat fits lowWord highWord,
    amount, Nat.shiftRight_eq_div_pow, Nat.mod_eq_of_lt short]

/-! ## The reduction -/

section Reduction

variable (prime : BarrettPrime)

/-- The quotient estimate of both versions. -/
def qhatOf (x : Nat) : Nat := barrettQuotient 29 31 prime.mu.toNat x

theorem q_pos : 0 < prime.q.toNat := (Nat.two_pow_pos 29).trans_le prime.low

theorem qhatOf_eq (x : Nat) :
    qhatOf prime x = barrettQuotient 29 31 (2 ^ (29 + 31) / prime.q.toNat) x := by
  rw [qhatOf, prime.reciprocal]

variable {x : Nat}

theorem qhatOf_mul_le : qhatOf prime x * prime.q.toNat ≤ x := by
  rw [qhatOf_eq]
  exact barrettQuotient_mul_le

/-- The error of the estimate: less than three times the prime is left. -/
theorem remainder_lt (small : x < 2 ^ 60) :
    x - qhatOf prime x * prime.q.toNat < 3 * prime.q.toNat := by
  have close := lt_barrettQuotient (q_pos prime) prime.low (show x < 2 ^ (29 + 31) from small)
  rw [← qhatOf_eq] at close
  have within := @qhatOf_mul_le prime x
  omega

theorem mu_lt : prime.mu.toNat < 2 ^ 32 := prime.mu.toNat_lt

/-- The product of the estimate takes less than two words. -/
theorem estimate_lt (small : x < 2 ^ 60) : x / 2 ^ 29 * prime.mu.toNat < 2 ^ 63 :=
  calc x / 2 ^ 29 * prime.mu.toNat < 2 ^ 31 * 2 ^ 32 :=
        Nat.mul_lt_mul'' (Nat.div_lt_of_lt_mul small) (mu_lt prime)
    _ = 2 ^ 63 := rfl

theorem condSub_remainder (small : x < 2 ^ 60) :
    condSub prime.q.toNat (condSub prime.q.toNat (x - qhatOf prime x * prime.q.toNat)) =
      x % prime.q.toNat := by
  rw [qhatOf_eq]
  exact barrett_mod (q_pos prime) prime.low small

/-- The reference computes with the numbers themselves: no operation of it wraps. -/
structure NoOverflow (x : UInt64) : Prop where
  estimate : ((x >>> 29) * prime.mu.toUInt64).toNat = x.toNat / 2 ^ 29 * prime.mu.toNat
  quotient : (((x >>> 29) * prime.mu.toUInt64) >>> 31).toNat = qhatOf prime x.toNat
  back : ((((x >>> 29) * prime.mu.toUInt64) >>> 31) * prime.q.toUInt64).toNat =
    qhatOf prime x.toNat * prime.q.toNat
  within : qhatOf prime x.toNat * prime.q.toNat ≤ x.toNat
  remainder : x.toNat - qhatOf prime x.toNat * prime.q.toNat < 3 * prime.q.toNat
  word : 3 * prime.q.toNat < 2 ^ 32

theorem noOverflow {x : UInt64} (small : x.toNat < 2 ^ 60) : NoOverflow prime x := by
  have estimate : ((x >>> 29) * prime.mu.toUInt64).toNat =
      x.toNat / 2 ^ 29 * prime.mu.toNat := by
    have shifted : (x >>> 29).toNat = x.toNat / 2 ^ 29 := shiftRight_toNat x (by decide)
    rw [UInt64.toNat_mul, UInt32.toNat_toUInt64, shifted]
    exact Nat.mod_eq_of_lt ((estimate_lt prime small).trans (by decide))
  have quotient : (((x >>> 29) * prime.mu.toUInt64) >>> 31).toNat = qhatOf prime x.toNat := by
    have divided : (((x >>> 29) * prime.mu.toUInt64) >>> 31).toNat =
        ((x >>> 29) * prime.mu.toUInt64).toNat / 2 ^ 31 := shiftRight_toNat _ (by decide)
    rw [divided, estimate]
    rfl
  refine ⟨estimate, quotient, ?_, qhatOf_mul_le prime, remainder_lt prime small, ?_⟩
  · rw [UInt64.toNat_mul, quotient, UInt32.toNat_toUInt64]
    exact Nat.mod_eq_of_lt ((qhatOf_mul_le prime).trans_lt x.toNat_lt)
  · have high := prime.high
    omega

theorem barrettReduce32Ref_toNat {x : UInt64} (small : x.toNat < 2 ^ 60) :
    (barrettReduce32Ref x prime.q prime.mu).toNat = x.toNat % prime.q.toNat := by
  obtain ⟨_, _, back, within, _, _⟩ := noOverflow prime small
  have remainder : (x - (((x >>> 29) * prime.mu.toUInt64) >>> 31) * prime.q.toUInt64).toNat =
      x.toNat - qhatOf prime x.toNat * prime.q.toNat := by
    rw [UInt64.toNat_sub_of_le _ _ (UInt64.le_iff_toNat_le.mpr (back ▸ within)), back]
  simp only [barrettReduce32Ref]
  rw [UInt64.toNat_toUInt32, condSub_toNat64, condSub_toNat64, remainder, UInt32.toNat_toUInt64,
    condSub_remainder prime small]
  exact Nat.mod_eq_of_lt ((Nat.mod_lt _ (q_pos prime)).trans prime.q.toNat_lt)

variable {a b : UInt32}

theorem product_small (below : a < prime.q) (belowOther : b < prime.q) :
    a.toNat * b.toNat < 2 ^ 60 :=
  calc a.toNat * b.toNat < 2 ^ 30 * 2 ^ 30 :=
        Nat.mul_lt_mul'' ((UInt32.lt_iff_toNat_lt.mp below).trans prime.high)
          ((UInt32.lt_iff_toNat_lt.mp belowOther).trans prime.high)
    _ = 2 ^ 60 := rfl

/-- The device computes with the low words, which hold the numbers themselves wherever it
matters. -/
theorem ptxModmul_toNat (small : a.toNat * b.toNat < 2 ^ 60) :
    (ptxModmul prime a b).toNat = a.toNat * b.toNat % prime.q.toNat := by
  have short : a.toNat * b.toNat / 2 ^ 29 < 2 ^ 32 := by
    apply Nat.div_lt_of_lt_mul
    exact small.trans (by decide)
  have shifted : (shfRWrap (mulLo a b) (mulHi a b) 29).toNat = a.toNat * b.toNat / 2 ^ 29 :=
    shfRWrap_toNat (by decide) (product_lt a b) (mulLo_toNat a b) (mulHi_toNat a b) short
  have estimate := estimate_lt prime small
  rw [← shifted] at estimate
  have narrow : (shfRWrap (mulLo a b) (mulHi a b) 29).toNat * prime.mu.toNat / 2 ^ 31 < 2 ^ 32 :=
    Nat.div_lt_of_lt_mul estimate
  have quotient : (shfRWrap (mulLo (shfRWrap (mulLo a b) (mulHi a b) 29) prime.mu)
      (mulHi (shfRWrap (mulLo a b) (mulHi a b) 29) prime.mu) 31).toNat =
      qhatOf prime (a.toNat * b.toNat) := by
    have divided := @shfRWrap_toNat _ _ _ 31 (by decide) (product_lt _ prime.mu)
      (mulLo_toNat _ _) (mulHi_toNat _ _) narrow
    rw [divided, shifted]
    rfl
  simp only [ptxModmul]
  rw [condSub_toNat32, condSub_toNat32, ← condSub_remainder prime small]
  congr 2
  -- the difference fits a word, so it does not matter that the subtraction wraps
  have within := @qhatOf_mul_le prime (a.toNat * b.toNat)
  have word : a.toNat * b.toNat - qhatOf prime (a.toNat * b.toNat) * prime.q.toNat < 2 ^ 32 := by
    have below := remainder_lt prime small
    have high := prime.high
    omega
  rw [subWrap, UInt32.toNat_sub, mulLo_toNat, mulLo_toNat, quotient]
  omega

/-! ## The exactness of both versions -/

theorem ptxModmul_eq_modmulRef (below : a < prime.q) (belowOther : b < prime.q) :
    ptxModmul prime a b = modmulRef prime a b := by
  have small := product_small prime below belowOther
  apply UInt32.toNat_inj.mp
  rw [ptxModmul_toNat prime small, modmulRef, barrettReduce32Ref_toNat, product_toNat]
  rwa [product_toNat]

/-- The sum and the difference of the butterfly, taken modulo the prime. -/
theorem ptxButterfly_toNat {w : UInt32} (below : a < prime.q) (belowOther : b < prime.q)
    (twiddle : w < prime.q) :
    (ptxButterfly prime a b w).1.toNat = (a.toNat + w.toNat * b.toNat) % prime.q.toNat ∧
      ((ptxButterfly prime a b w).2.toNat : Int) =
        ((a.toNat : Int) - w.toNat * b.toNat) % prime.q.toNat := by
  have product := ptxModmul_toNat prime (product_small prime belowOther twiddle)
  have reduced : (ptxModmul prime b w).toNat < prime.q.toNat := by
    rw [product]
    exact Nat.mod_lt _ (q_pos prime)
  have first := UInt32.lt_iff_toNat_lt.mp below
  have high := prime.high
  constructor
  · have sum : (a + ptxModmul prime b w).toNat = a.toNat + (ptxModmul prime b w).toNat := by
      rw [UInt32.toNat_add]
      exact Nat.mod_eq_of_lt (by omega)
    simp only [ptxButterfly]
    rw [condSub_toNat32, sum, condSub_mod (by omega), product, Nat.add_mod_mod, Nat.mul_comm]
  · have sum : (a + prime.q).toNat = a.toNat + prime.q.toNat := by
      rw [UInt32.toNat_add]
      exact Nat.mod_eq_of_lt (by omega)
    have difference : (a + prime.q - ptxModmul prime b w).toNat =
        a.toNat + prime.q.toNat - (ptxModmul prime b w).toNat := by
      rw [UInt32.toNat_sub_of_le _ _ (UInt32.le_iff_toNat_le.mpr (by omega)), sum]
    simp only [ptxButterfly]
    rw [condSub_toNat32, difference, condSub_mod (by omega)]
    have division := Nat.div_add_mod (b.toNat * w.toNat) prime.q.toNat
    have shifted : ((a.toNat + prime.q.toNat - (ptxModmul prime b w).toNat : Nat) : Int) =
        (a.toNat : Int) - w.toNat * b.toNat +
          prime.q.toNat * ((b.toNat * w.toNat / prime.q.toNat : Nat) + 1) := by
      rw [← product] at division
      have exact' : (prime.q.toNat : Int) * (b.toNat * w.toNat / prime.q.toNat : Nat) +
          (ptxModmul prime b w).toNat = b.toNat * w.toNat := by exact_mod_cast division
      rw [Nat.cast_sub (by omega), Nat.cast_add, mul_add, mul_one, mul_comm (w.toNat : Int),
        ← exact']
      ring
    rw [Int.natCast_mod, shifted, Int.add_mul_emod_self_left]

/-- The device's product is the reference's, which is the product modulo the prime, computed without
an overflow; and the butterfly leaves the sum and the difference, both reduced. -/
theorem ptx_exact {w : UInt32} (below : a < prime.q) (belowOther : b < prime.q)
    (twiddle : w < prime.q) :
    ptxModmul prime a b = modmulRef prime a b ∧
      (modmulRef prime a b).toNat = a.toNat * b.toNat % prime.q.toNat ∧
      (a.toUInt64 * b.toUInt64).toNat = a.toNat * b.toNat ∧
      NoOverflow prime (a.toUInt64 * b.toUInt64) ∧
      ((ptxButterfly prime a b w).1.toNat = (a.toNat + w.toNat * b.toNat) % prime.q.toNat ∧
        ((ptxButterfly prime a b w).2.toNat : Int) =
          ((a.toNat : Int) - w.toNat * b.toNat) % prime.q.toNat) ∧
      (ptxButterfly prime a b w).1 < prime.q ∧ (ptxButterfly prime a b w).2 < prime.q := by
  have small := product_small prime below belowOther
  have same := ptxModmul_eq_modmulRef prime below belowOther
  have butterfly := ptxButterfly_toNat prime below belowOther twiddle
  have positive : (0 : Int) < prime.q.toNat := Int.natCast_pos.mpr (q_pos prime)
  refine ⟨same, ?_, product_toNat a b, ?_, butterfly, ?_, ?_⟩
  · rw [← same, ptxModmul_toNat prime small]
  · apply noOverflow
    rwa [product_toNat]
  · rw [UInt32.lt_iff_toNat_lt, butterfly.1]
    exact Nat.mod_lt _ (q_pos prime)
  · rw [UInt32.lt_iff_toNat_lt]
    apply Int.ofNat_lt.mp
    rw [butterfly.2]
    exact Int.emod_lt_of_pos _ positive

end Reduction

/-- The largest residues of both primes. -/
theorem ptx_exact_frozen :
    (ptxModmulQ1 1073738752 1073738752 = modmulRefQ1 1073738752 1073738752 ∧
        (ptxButterflyQ1 1073738752 1073738752 1073738752).1 < primeQ1.q) ∧
      ptxModmulQ2 1073732608 1073732608 = modmulRefQ2 1073732608 1073732608 ∧
        (ptxButterflyQ2 1073732608 1073732608 1073732608).1 < primeQ2.q := by
  have first := @ptx_exact primeQ1 1073738752 1073738752 1073738752 (by decide) (by decide)
    (by decide)
  have second := @ptx_exact primeQ2 1073732608 1073732608 1073732608 (by decide) (by decide)
    (by decide)
  exact ⟨⟨first.1, first.2.2.2.2.2.1⟩, second.1, second.2.2.2.2.2.1⟩

end KairosEngine.Cuda
