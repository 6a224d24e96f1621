import KairosEngine.Library.FixedPoint

/-!
# The fixed-point exponential of `cuda_forward.cu`

`bx_exp2_frac`, `bx_exp_fixed` and `bx_tanh_fixed`, with thirty bits behind the point.  Signed
results are checked; the 128-bit product is its two words.
-/

namespace KairosEngine.Cuda

open KairosEngine.Library

def bxFb : Nat := 30

/-- `BX_ONE`. -/
def bxOne : Int := 2 ^ 30

def bxLog2e : Nat := 1549082005

/-- `BX_EXPC`, from the constant term up. -/
def bxExpc : List Int := [1073741824, 744261118, 257941248, 59597083, 10327387, 1431680, 165394]

/-- The loop of `bx_exp2_frac` takes the coefficients from the last but one down. -/
def bxExp2Frac (r : Int) : Option Int :=
  fixedFoldChecked bxFb r (bxExpc.take 6).reverse (bxExpc.getD 6 0)

/-- `bx_exp_fixed` from its `n` on. -/
def bxExpShifted (g : Int) : Option Int := do
  let n ← shr64 g bxFb
  if 32 ≤ n then some 0
  else do
    let whole ← shl64 n bxFb
    let r ← i64 (g - whole)
    if r ≠ 0 then do
      let argument ← i64 (bxOne - r)
      let frac ← bxExp2Frac argument
      shr64 frac (n + 1)
    else shr64 bxOne n

/-- `g` of `bx_exp_fixed` from the words `hi` and `lo` of the product. -/
def bxExpG (ad : Nat) : Int :=
  asSigned ((ad * bxLog2e / 2 ^ 64) <<< (64 - bxFb) % 2 ^ 64 |||
    (ad * bxLog2e % 2 ^ 64) >>> bxFb)

/-- `bx_exp_fixed`. -/
def bxExpFixed (d : Int) : Option Int :=
  if 0 ≤ d then some bxOne
  else do
    let negated ← i64 (-d)
    bxExpShifted (bxExpG negated.toNat)

/-- `bx_tanh_fixed` of the magnitude. -/
def bxTanhMagnitude (a : Int) : Option Int := do
  let double ← i64 (2 * a)
  let negated ← i64 (-double)
  let e2 ← bxExpFixed negated
  let twice ← i64 (2 * e2)
  let num ← shl64 twice bxFb
  let total ← i64 (bxOne + e2)
  i64 (bxOne - num.tdiv total)

/-- `bx_tanh_fixed`. -/
def bxTanhFixed (t : Int) : Option Int := do
  let a ← if 0 ≤ t then some t else i64 (-t)
  let magnitude ← bxTanhMagnitude a
  i64 ((if 0 ≤ t then 1 else -1) * magnitude)

/-! ## The power of two -/

/-- The polynomial in the integers. -/
def exp2Poly (x : Int) : Int := fixedFold bxFb x (bxExpc.take 6).reverse (bxExpc.getD 6 0)

theorem bxExpc_nonneg : ∀ c ∈ (bxExpc.take 6).reverse, 0 ≤ c := by decide

theorem bxExp2Frac_eq {x : Int} (nonneg : 0 ≤ x) (le_one : x ≤ bxOne) :
    bxExp2Frac x = some (exp2Poly x) :=
  fixedFoldChecked_eq nonneg le_one (by decide) bxExpc_nonneg (by decide) (by decide)

/-- The coefficients add up to no more than two. -/
theorem exp2Poly_le {x : Int} (nonneg : 0 ≤ x) (le_one : x ≤ bxOne) : exp2Poly x ≤ 2 * bxOne := by
  have bound := @fixedFold_le_sum bxFb x nonneg le_one _ (bxExpc.getD 6 0) bxExpc_nonneg (by decide)
  have sum : bxExpc.getD 6 0 + (bxExpc.take 6).reverse.sum ≤ 2 * bxOne := by decide
  exact bound.trans sum

theorem bxOne_le_exp2Poly {x : Int} (nonneg : 0 ≤ x) : bxOne ≤ exp2Poly x :=
  @le_fixedFold bxFb x nonneg bxOne (bxExpc.drop 1 |>.take 5).reverse (bxExpc.getD 6 0) (by decide)
    (by decide)

theorem exp2Poly_mono {x y : Int} (nonneg : 0 ≤ x) (le : x ≤ y) : exp2Poly x ≤ exp2Poly y :=
  fixedFold_mono nonneg le bxExpc_nonneg (by decide) le_rfl

/-- What the octave shifts down: two at its start, and the polynomial of what is left of it
behind. -/
def expMantissa (r : Nat) : Int := if r = 0 then 2 * bxOne else exp2Poly (bxOne - r)

theorem expMantissa_bounds {r : Nat} (inside : r < 2 ^ 30) :
    bxOne ≤ expMantissa r ∧ expMantissa r ≤ 2 * bxOne := by
  unfold expMantissa
  split
  · exact ⟨by decide, le_rfl⟩
  · have nonneg : 0 ≤ bxOne - r := by unfold bxOne; omega
    exact ⟨bxOne_le_exp2Poly nonneg, exp2Poly_le nonneg (by omega)⟩

theorem expMantissa_anti (r s : Nat) (le : r ≤ s) (inside : s < 2 ^ 30) :
    expMantissa s ≤ expMantissa r := by
  by_cases start : r = 0
  · have two : expMantissa r = 2 * bxOne := if_pos start
    rw [two]
    exact (expMantissa_bounds inside).2
  · unfold expMantissa
    rw [if_neg start, if_neg (by omega)]
    apply exp2Poly_mono
    · unfold bxOne
      omega
    · omega

/-- The exponential of a negated base-two logarithm. -/
def expOf (g : Nat) : Int := octaveValue (2 ^ 30) expMantissa g

theorem expOf_anti {g h : Nat} (le : g ≤ h) : expOf h ≤ expOf g :=
  octaveValue_anti (by decide) expMantissa_anti (fun _ inside => (expMantissa_bounds inside).1)
    (fun _ inside => (expMantissa_bounds inside).2) (by decide) le

theorem expOf_nonneg (g : Nat) : 0 ≤ expOf g := by
  have mantissa := (expMantissa_bounds (Nat.mod_lt g (by decide))).1
  have one : (0 : Int) ≤ bxOne := by decide
  exact Int.ediv_nonneg (one.trans mantissa) (by positivity)

theorem expOf_zero : expOf 0 = bxOne := by decide

theorem expOf_le_one (g : Nat) : expOf g ≤ bxOne := by
  rw [← expOf_zero]
  exact expOf_anti (Nat.zero_le g)

/-- From the thirty-second octave on nothing is left of the mantissa. -/
theorem expOf_underflow {g : Nat} (far : 32 ≤ g / 2 ^ 30) : expOf g = 0 := by
  have bounds := expMantissa_bounds (Nat.mod_lt g (by decide : 0 < 2 ^ 30))
  have one : bxOne = 2 ^ 30 := rfl
  have power : (2 : Int) ^ 33 ≤ 2 ^ (g / 2 ^ 30 + 1) := pow_le_pow_right₀ (by decide) (by omega)
  exact Int.ediv_eq_zero_of_lt (by omega) (by omega)

/-! ## The exponential -/

/-- The middle of a product of less than `94` bits, from its two words. -/
theorem words_middle {product : Nat} (narrow : product < 2 ^ 94) :
    (product / 2 ^ 64) <<< (64 - bxFb) % 2 ^ 64 ||| (product % 2 ^ 64) >>> bxFb
      = product / 2 ^ 30 := by
  have low : product % 2 ^ 64 / 2 ^ 30 < 2 ^ 34 := by omega
  have fits : product / 2 ^ 64 * 2 ^ 34 < 2 ^ 64 := by omega
  rw [show 64 - bxFb = 34 from rfl, show bxFb = 30 from rfl, Nat.shiftLeft_eq, Nat.mod_eq_of_lt fits,
    Nat.shiftRight_eq_div_pow, ← Nat.shiftLeft_eq, ← Nat.shiftLeft_add_eq_or_of_lt low,
    Nat.shiftLeft_eq]
  omega

/-- The code's `g`. -/
def negLog2 (d : Int) : Nat := (-d).toNat * bxLog2e / 2 ^ 30

theorem bxExpShifted_eq {g : Nat} (word : g < 2 ^ 63) : bxExpShifted g = some (expOf g) := by
  have fb : bxFb = 30 := rfl
  have one : bxOne = 2 ^ 30 := rfl
  have octave : (g : Int) / 2 ^ bxFb = (g / 2 ^ 30 : Nat) := by
    rw [fb]
    omega
  have inside := Nat.mod_lt g (by decide : 0 < 2 ^ 30)
  unfold bxExpShifted
  rw [shr64_eq (by decide), octave, Option.bind_eq_bind, Option.bind_some]
  by_cases far : 32 ≤ g / 2 ^ 30
  · rw [if_pos (by omega), expOf_underflow far]
  · have rest : (g : Int) - (g / 2 ^ 30 : Nat) * 2 ^ bxFb = (g % 2 ^ 30 : Nat) := by
      rw [fb]
      omega
    have room : ((g / 2 ^ 30 : Nat) : Int) * 2 ^ bxFb < 2 ^ 63 := by
      rw [fb]
      omega
    rw [if_neg (by omega), shl64_eq (by omega) (by decide) room, Option.bind_some, rest,
      i64_eq (by omega) (by omega), Option.bind_some]
    unfold expOf octaveValue expMantissa
    by_cases start : g % 2 ^ 30 = 0
    · rw [if_neg (by omega), shr64_eq (by omega), if_pos start, pow_succ' (2 : Int) (g / 2 ^ 30),
        Int.mul_ediv_mul_of_pos _ _ (by decide)]
    · have next : ((g / 2 ^ 30 : Nat) : Int) + 1 = (g / 2 ^ 30 + 1 : Nat) := by omega
      rw [if_pos (by omega), i64_eq (by omega) (by omega), if_neg start, Option.bind_some,
        bxExp2Frac_eq (by omega) (by omega), Option.bind_some, next, shr64_eq (by omega)]

theorem bxExpG_eq {ad : Nat} (narrow : ad ≤ 2 ^ 62) : bxExpG ad = (ad * bxLog2e / 2 ^ 30 : Nat) := by
  have log : bxLog2e = 1549082005 := rfl
  have product : ad * bxLog2e < 2 ^ 94 := by
    rw [log]
    omega
  have word : ad * bxLog2e / 2 ^ 30 < 2 ^ 63 := by
    rw [log]
    omega
  unfold bxExpG
  rw [words_middle product, asSigned_eq word]

theorem negLog2_word {d : Int} (low : -2 ^ 62 ≤ d) : negLog2 d < 2 ^ 63 := by
  unfold negLog2 bxLog2e
  omega

theorem bxExpFixed_eq {d : Int} (low : -2 ^ 62 ≤ d) (high : d ≤ 0) :
    bxExpFixed d = some (expOf (negLog2 d)) := by
  unfold bxExpFixed
  by_cases zero : d = 0
  · have none : negLog2 d = 0 := by
      rw [zero]
      decide
    rw [if_pos (by omega), none, expOf_zero]
  · rw [if_neg (by omega), i64_eq (by omega) (by omega), Option.bind_eq_bind, Option.bind_some,
      bxExpG_eq (by omega)]
    exact bxExpShifted_eq (negLog2_word low)

theorem negLog2_anti {d1 d2 : Int} (le : d1 ≤ d2) : negLog2 d2 ≤ negLog2 d1 := by
  unfold negLog2
  apply Nat.div_le_div_right
  apply Nat.mul_le_mul_right
  omega

/-! ## The hyperbolic tangent -/

/-- Of the magnitude, from the exponential of its double negated. -/
def tanhOf (e : Int) : Int := bxOne - 2 * e * 2 ^ 30 / (bxOne + e)

theorem tanhOf_bounds {e : Int} (nonneg : 0 ≤ e) (le_one : e ≤ bxOne) :
    0 ≤ tanhOf e ∧ tanhOf e ≤ bxOne := by
  have one : bxOne = 2 ^ 30 := rfl
  have low : 0 ≤ 2 * e * 2 ^ 30 / (bxOne + e) := Int.ediv_nonneg (by omega) (by omega)
  have high : 2 * e * 2 ^ 30 / (bxOne + e) < bxOne + 1 := by
    apply Int.ediv_lt_of_lt_mul (by omega)
    rw [one]
    omega
  unfold tanhOf
  omega

theorem tanhOf_anti {e f : Int} (nonneg : 0 ≤ e) (le : e ≤ f) : tanhOf f ≤ tanhOf e := by
  have one : bxOne = 2 ^ 30 := rfl
  have quotient : 2 * e * 2 ^ 30 / (bxOne + e) ≤ 2 * f * 2 ^ 30 / (bxOne + f) := by
    have remainder := Int.ediv_mul_le (2 * e * 2 ^ 30) (b := bxOne + e) (by omega)
    have small : 2 * e * 2 ^ 30 / (bxOne + e) < 2 ^ 31 := by
      apply Int.ediv_lt_of_lt_mul (by omega)
      rw [one]
      omega
    have low : 0 ≤ f - e := by omega
    apply (Int.le_ediv_iff_mul_le (by omega)).mpr
    generalize 2 * e * 2 ^ 30 / (bxOne + e) = q at remainder small ⊢
    have grown : q * (f - e) ≤ 2 ^ 31 * (f - e) := mul_le_mul_of_nonneg_right small.le low
    calc q * (bxOne + f) = q * (bxOne + e) + q * (f - e) := by ring
      _ ≤ 2 * e * 2 ^ 30 + 2 ^ 31 * (f - e) := add_le_add remainder grown
      _ = 2 * f * 2 ^ 30 := by ring
  unfold tanhOf
  omega

/-- The tangent of a magnitude. -/
def tanhAbs (a : Int) : Int := tanhOf (expOf (negLog2 (-(2 * a))))

theorem tanhAbs_bounds (a : Int) : 0 ≤ tanhAbs a ∧ tanhAbs a ≤ bxOne :=
  tanhOf_bounds (expOf_nonneg _) (expOf_le_one _)

theorem tanhAbs_mono {a b : Int} (le : a ≤ b) : tanhAbs a ≤ tanhAbs b :=
  tanhOf_anti (expOf_nonneg _) (expOf_anti (negLog2_anti (by omega)))

theorem tanhAbs_zero : tanhAbs 0 = 0 := by decide

theorem bxTanhMagnitude_eq {a : Int} (nonneg : 0 ≤ a) (range : a ≤ 2 ^ 61) :
    bxTanhMagnitude a = some (tanhAbs a) := by
  have one : bxOne = 2 ^ 30 := rfl
  have fb : bxFb = 30 := rfl
  unfold bxTanhMagnitude tanhAbs
  rw [i64_eq (by omega) (by omega), Option.bind_eq_bind, Option.bind_some,
    i64_eq (by omega) (by omega), Option.bind_some, bxExpFixed_eq (by omega) (by omega),
    Option.bind_some]
  have low := expOf_nonneg (negLog2 (-(2 * a)))
  have high := expOf_le_one (negLog2 (-(2 * a)))
  generalize expOf (negLog2 (-(2 * a))) = e at low high ⊢
  have bounds := tanhOf_bounds low high
  have room : 2 * e * 2 ^ bxFb < 2 ^ 63 := by
    rw [fb]
    omega
  have quotient : (2 * e * 2 ^ bxFb).tdiv (bxOne + e) = 2 * e * 2 ^ 30 / (bxOne + e) := by
    rw [fb]
    exact Int.tdiv_eq_ediv_of_nonneg (by omega)
  rw [i64_eq (by omega) (by omega), Option.bind_some, shl64_eq (by omega) (by decide) room,
    Option.bind_some, i64_eq (by omega) (by omega), Option.bind_some, quotient]
  unfold tanhOf at bounds ⊢
  exact i64_eq (by omega) (by omega)

/-- By sign and magnitude. -/
def tanhFixed (t : Int) : Int := if 0 ≤ t then tanhAbs t else -tanhAbs (-t)

theorem bxTanhFixed_eq {t : Int} (range : |t| ≤ 2 ^ 61) : bxTanhFixed t = some (tanhFixed t) := by
  have one : bxOne = 2 ^ 30 := rfl
  obtain ⟨low, high⟩ := abs_le.mp range
  unfold bxTanhFixed tanhFixed
  by_cases sign : 0 ≤ t
  · have bounds := tanhAbs_bounds t
    rw [if_pos sign, if_pos sign, if_pos sign, Option.bind_eq_bind, Option.bind_some]
    beta_reduce
    rw [bxTanhMagnitude_eq sign high, Option.bind_some, one_mul]
    exact i64_eq (by omega) (by omega)
  · have bounds := tanhAbs_bounds (-t)
    rw [if_neg sign, if_neg sign, if_neg sign, i64_eq (by omega) (by omega), Option.bind_eq_bind,
      Option.bind_some]
    beta_reduce
    rw [bxTanhMagnitude_eq (by omega) (by omega), Option.bind_some, neg_one_mul]
    exact i64_eq (by omega) (by omega)

theorem tanhFixed_neg (t : Int) : tanhFixed (-t) = -tanhFixed t := by
  unfold tanhFixed
  rcases lt_trichotomy t 0 with negative | zero | positive
  · rw [if_pos (by omega), if_neg (by omega), neg_neg]
  · rw [zero, neg_zero, if_pos le_rfl, tanhAbs_zero]
    rfl
  · rw [if_neg (by omega), if_pos (by omega), neg_neg]

theorem tanhFixed_bounds (t : Int) : -bxOne ≤ tanhFixed t ∧ tanhFixed t ≤ bxOne := by
  have one : bxOne = 2 ^ 30 := rfl
  unfold tanhFixed
  split
  · have bounds := tanhAbs_bounds t
    omega
  · have bounds := tanhAbs_bounds (-t)
    omega

theorem tanhFixed_mono {t u : Int} (le : t ≤ u) : tanhFixed t ≤ tanhFixed u := by
  unfold tanhFixed
  by_cases first : 0 ≤ t
  · rw [if_pos first, if_pos (by omega)]
    exact tanhAbs_mono le
  · rw [if_neg first]
    split
    · have below := (tanhAbs_bounds (-t)).1
      have above := (tanhAbs_bounds u).1
      omega
    · exact neg_le_neg (tanhAbs_mono (by omega))

/-- The exponential is monotone from zero up to one and the tangent odd, monotone and bounded, and
no result of theirs leaves its word. -/
theorem bxExpFixed_monotone :
    (∀ d1 d2 : Int, -2 ^ 62 ≤ d1 → d1 ≤ d2 → d2 ≤ 0 →
      ∃ e1 e2, bxExpFixed d1 = some e1 ∧ bxExpFixed d2 = some e2 ∧
        0 ≤ e1 ∧ e1 ≤ e2 ∧ e2 ≤ bxOne) ∧
    ∀ t u : Int, |t| ≤ 2 ^ 61 → |u| ≤ 2 ^ 61 →
      ∃ y z, bxTanhFixed t = some y ∧ bxTanhFixed u = some z ∧ bxTanhFixed (-t) = some (-y) ∧
        -bxOne ≤ y ∧ y ≤ bxOne ∧ (t ≤ u → y ≤ z) := by
  constructor
  · intro d1 d2 low le high
    refine ⟨_, _, bxExpFixed_eq low (le.trans high), bxExpFixed_eq (low.trans le) high, ?_, ?_, ?_⟩
    · exact expOf_nonneg _
    · exact expOf_anti (negLog2_anti le)
    · exact expOf_le_one _
  · intro t u range range'
    refine ⟨_, _, bxTanhFixed_eq range, bxTanhFixed_eq range', ?_, ?_, ?_, tanhFixed_mono⟩
    · rw [bxTanhFixed_eq (by rwa [abs_neg]), tanhFixed_neg]
    · exact (tanhFixed_bounds t).1
    · exact (tanhFixed_bounds t).2

theorem bxExpFixed_monotone_small :
    (∃ e1 e2, bxExpFixed (-5) = some e1 ∧ bxExpFixed (-1) = some e2 ∧
      0 ≤ e1 ∧ e1 ≤ e2 ∧ e2 ≤ bxOne) ∧
    ∃ y z, bxTanhFixed 3 = some y ∧ bxTanhFixed 4 = some z ∧ bxTanhFixed (-3) = some (-y) ∧
      -bxOne ≤ y ∧ y ≤ bxOne ∧ ((3 : Int) ≤ 4 → y ≤ z) := by
  constructor
  · exact bxExpFixed_monotone.1 (-5) (-1) (by decide) (by decide) (by decide)
  · exact bxExpFixed_monotone.2 3 4 (by decide) (by decide)

end KairosEngine.Cuda
