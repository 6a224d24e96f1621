import KairosEngine.Daemon.Sampler
import KairosEngine.Library.Roulette

/-!
# The draw behind the masks

`sample` of `sampler.rs` behind its greedy return: the penalties, the temperature, the sorted
candidates, the nucleus and the draw.
-/

namespace KairosEngine.Daemon

open KairosEngine.Library

/-! ## The generator -/

structure Rng where
  state : UInt64

namespace Rng

def new (seed : UInt64) : Rng := ⟨seed ^^^ 0x9E3779B97F4A7C15⟩

def nextU64 (rng : Rng) : UInt64 × Rng :=
  let state := rng.state + 0x9E3779B97F4A7C15
  let z := (state ^^^ (state >>> 30)) * 0xBF58476D1CE4E5B9
  let z := (z ^^^ (z >>> 27)) * 0x94D049BB133111EB
  (z ^^^ (z >>> 31), ⟨state⟩)

def nextF64 (double : Format) (rng : Rng) : Ieee × Rng :=
  let (word, next) := rng.nextU64
  (double.div (double.convert (.finite (word >>> 11).toNat)) (double.convert (.finite (2 ^ 53))), next)

end Rng

/-! ## The parameters -/

/-- The parameters of the draw, without the seed. -/
structure DrawParams where
  topP : Ieee
  topK : Nat
  repetitionPenalty : Ieee
  frequencyPenalty : Ieee

/-- The `Default` of `SamplingParams`. -/
def DrawParams.default (arith : Arithmetic) : DrawParams where
  topP := arith.single.round (95 / 100)
  topK := 40
  repetitionPenalty := arith.single.round (11 / 10)
  frequencyPenalty := .finite 0

/-- `f32::EPSILON`. -/
def f32Epsilon : Ieee := .finite (1 / 2 ^ 23)

/-- `x.abs() > f32::EPSILON`. -/
def beyondEpsilon (x : Ieee) : Bool := f32Epsilon.lt x || x.lt f32Epsilon.neg

/-- `f32::max`. -/
def f32Max (left right : Ieee) : Ieee := if left.isNan || left.lt right then right else left

/-- `f32::clamp` into `[0, 1]`. -/
def clampUnit (x : Ieee) : Ieee :=
  if x.lt (.finite 0) then .finite 0 else if (Ieee.finite 1).lt x then .finite 1 else x

namespace DrawParams

variable (arith : Arithmetic) (params : DrawParams)

def repeats : Bool := beyondEpsilon (arith.single.sub params.repetitionPenalty (.finite 1))

def counts : Bool := beyondEpsilon params.frequencyPenalty

/-- The repetition penalty of a logit. -/
def repelled (logit : Ieee) : Ieee :=
  if (Ieee.finite 0).lt logit then arith.single.div logit params.repetitionPenalty
  else arith.single.mul logit params.repetitionPenalty

/-- A token of the history, with those that `seen_rep` holds. -/
def penalizeToken (state : List Int × List Ieee) (t : Int) : List Int × List Ieee :=
  -- the `usize` of a negative id is behind every row
  if 0 ≤ t ∧ t.toNat < state.2.length then
    let state :=
      if params.repeats arith = true ∧ t ∉ state.1 then
        (t :: state.1, state.2.modify t.toNat (params.repelled arith))
      else state
    if params.counts then
      (state.1, state.2.modify t.toNat fun logit =>
        arith.single.sub logit params.frequencyPenalty)
    else state
  else state

def penalize (history : List Int) (row : List Ieee) : List Ieee :=
  if params.repeats arith || params.counts then
    (history.foldl (params.penalizeToken arith) ([], row)).2
  else row

/-- The row that the candidates are taken from. -/
def scaled (temperature : Ieee) (history : List Int) (row : List Ieee) : List Ieee :=
  (params.penalize arith history row).map fun logit =>
    arith.single.div logit (f32Max temperature (arith.single.round (1 / 1000000)))

end DrawParams

/-! ## The candidates -/

/-- `sort_unstable_by`: equal logits come in any order. -/
structure Candidates (row : List Ieee) (cand : List (Ieee × Nat)) : Prop where
  perm : cand.Perm row.zipIdx
  descending : cand.Pairwise fun before after => after.1.le before.1 = true

namespace DrawParams

variable (arith : Arithmetic) (params : DrawParams)

/-- `cand.truncate(k)`. -/
def truncate (cand : List (Ieee × Nat)) : List (Ieee × Nat) :=
  cand.take (if params.topK = 0 then cand.length else min params.topK cand.length)

/-- How many of these reach the mass, or all. -/
def reach (double : Format) (mass : Ieee) : Ieee → List Ieee → Nat
  | _, [] => 0
  | acc, p :: rest =>
      if mass.le (double.add acc p) then 1 else 1 + reach double mass (double.add acc p) rest

def nucleus (probs : List Ieee) : Nat :=
  let topP := arith.double.convert (clampUnit params.topP)
  max 1 (if topP.lt (.finite 1) then reach arith.double topP (.finite 0) probs else probs.length)

/-- The scores of the candidates against the first. -/
def scores (cand : List (Ieee × Nat)) : List Ieee :=
  let top := (cand.head?.map Prod.fst).getD (.finite 0)
  cand.map fun entry => arith.exp (arith.double.convert (arith.single.sub entry.1 top))

/-- The index that is drawn from the sorted candidates, and the generator behind the draw. -/
def pick (rng : Rng) (cand : List (Ieee × Nat)) : Nat × Rng :=
  let probs := scores arith cand
  let sum := arith.double.total probs
  if sum.le (.finite 0) || !sum.isFinite then ((cand.head?.map Prod.snd).getD 0, rng)
  else
    let probs := probs.map fun p => arith.double.div p sum
    let entries := (probs.zip (cand.map Prod.snd)).take (params.nucleus arith probs)
    let (unit, next) := rng.nextF64 arith.double
    let r := arith.double.mul unit (arith.double.total (entries.map Prod.fst))
    ((arith.double.landing r (.finite 0) entries).getD
      -- `cand[nucleus - 1]`, behind a loop that no index left
      ((entries.getLast?.map Prod.snd).getD 0), next)

/-- What `sample` may return on a masked row, with the generator behind it. -/
def Draws (rng : Rng) (sampler : Sampler) (row : List Ieee) (token : Int) (next : Rng) : Prop :=
  ∃ cand, Candidates (params.scaled arith sampler.temperature sampler.history row) cand ∧
    token = Int.bmod (params.pick arith rng (params.truncate cand)).1 (2 ^ 32) ∧
    next = (params.pick arith rng (params.truncate cand)).2

end DrawParams

/-! ## What the arithmetic keeps -/

/-- What the draw relies on. -/
structure DrawLaws (arith : Arithmetic) : Prop where
  double : arith.double.Double
  zero : arith.single.round 0 = .finite 0
  tiny : ∃ least > 0, arith.single.round (1 / 1000000) = .finite least
  exp_nan : arith.exp .nan = .nan
  exp_negInf : arith.exp .negInf = .finite 0
  exp_zero : arith.exp (.finite 0) = .finite 1
  exp_fraction : ∀ x, x.le (.finite 0) = true → Fraction (arith.exp x)

theorem round_isNan (format : Format) (exact : ℚ) : (format.round exact).isNan = false := by
  have ordered := format.round_mono (le_refl exact)
  cases rounded : format.round exact with
  | nan => rw [rounded] at ordered; cases ordered
  | negInf => rfl
  | finite => rfl
  | posInf => rfl

theorem nextF64_grid {double : Format} (laws : double.Double) (rng : Rng) :
    ∃ k : Nat, k < 2 ^ 53 ∧ (rng.nextF64 double).1 = .finite (k / 2 ^ 53) := by
  let word := (rng.nextU64).1
  have small : (word >>> 11).toNat < 2 ^ 53 := by
    rw [UInt64.toNat_shiftRight, Nat.shiftRight_eq_div_pow]
    have below := word.toNat_lt
    simp only [UInt64.reduceToNat, Nat.reduceMod]
    omega
  refine ⟨(word >>> 11).toNat, small, ?_⟩
  have denominator : double.convert (.finite (2 ^ 53)) = .finite (2 ^ 53) := by
    have exact := laws.whole (2 ^ 53) le_rfl
    push_cast at exact
    exact exact
  have numerator : double.convert (.finite (word >>> 11).toNat) = .finite (word >>> 11).toNat :=
    laws.whole _ small.le
  rw [Rng.nextF64]
  dsimp only
  rw [denominator, numerator, Format.div, if_neg (by norm_num)]
  exact laws.grid _ small.le

/-- A function of a logit that neither unmasks one nor makes a NaN. -/
structure Tame (f : Ieee → Ieee) : Prop where
  masked : f .negInf = .negInf
  number : ∀ {logit : Ieee}, logit.isNan = false → (f logit).isNan = false

section Tame

variable {format : Format} {q : ℚ}

theorem tame_mul (positive : 0 < q) : Tame (format.mul · (.finite q)) where
  masked := by
    have sign : decide (q < 0) = false := decide_eq_false (not_lt.mpr positive.le)
    simp [Format.mul, positive.ne', Format.isNegative, sign, Format.signedInf]
  number {logit} number := by
    cases logit with
    | nan => cases number
    | finite x => exact round_isNan format _
    | negInf => simp [Format.mul, positive.ne', Format.signedInf]; split <;> rfl
    | posInf => simp [Format.mul, positive.ne', Format.signedInf]; split <;> rfl

theorem tame_div (positive : 0 < q) : Tame (format.div · (.finite q)) where
  masked := by
    have sign : decide (q < 0) = false := decide_eq_false (not_lt.mpr positive.le)
    simp [Format.div, Format.isNegative, sign, Format.signedInf]
  number {logit} number := by
    cases logit with
    | nan => cases number
    | finite x =>
        simp only [Format.div, if_neg positive.ne']
        exact round_isNan format _
    | negInf => simp only [Format.div, Format.signedInf]; split <;> rfl
    | posInf => simp only [Format.div, Format.signedInf]; split <;> rfl

theorem tame_sub : Tame (format.sub · (.finite q)) where
  masked := rfl
  number {logit} number := by
    cases logit with
    | nan => cases number
    | finite x => exact round_isNan format _
    | negInf => rfl
    | posInf => rfl

end Tame

/-- Every logit of a row came from one that is masked only if it is, and a NaN only if it is. -/
def MaskKept (before after : List Ieee) : Prop :=
  after.length = before.length ∧ ∀ {index : Nat} {logit : Ieee}, after[index]? = some logit →
    ∃ origin, before[index]? = some origin ∧ (origin = .negInf → logit = .negInf) ∧
      (origin.isNan = false → logit.isNan = false)

theorem MaskKept.refl (row : List Ieee) : MaskKept row row :=
  ⟨rfl, fun {_ logit} found => ⟨logit, found, id, id⟩⟩

theorem MaskKept.trans {before middle after : List Ieee} (one : MaskKept before middle)
    (two : MaskKept middle after) : MaskKept before after := by
  refine ⟨two.1.trans one.1, fun found => ?_⟩
  obtain ⟨between, here, masked, number⟩ := two.2 found
  obtain ⟨origin, there, masked', number'⟩ := one.2 here
  exact ⟨origin, there, masked ∘ masked', number ∘ number'⟩

theorem MaskKept.numbers {before after : List Ieee} (kept : MaskKept before after)
    (masked : FiniteOrMasked before) : ∀ logit ∈ after, logit.isNan = false := by
  intro logit member
  obtain ⟨index, found⟩ := List.mem_iff_getElem?.mp member
  obtain ⟨origin, there, _, number⟩ := kept.2 found
  apply number
  rcases masked origin (List.mem_of_getElem? there) with isFinite | rfl
  · rw [Ieee.eq_finite_of_isFinite isFinite]
    rfl
  · rfl

theorem Tame.kept_map {f : Ieee → Ieee} (tame : Tame f) (row : List Ieee) :
    MaskKept row (row.map f) := by
  refine ⟨List.length_map f, fun found => ?_⟩
  rw [List.getElem?_map] at found
  obtain ⟨origin, here, rfl⟩ := Option.map_eq_some_iff.mp found
  exact ⟨origin, here, fun masked => masked ▸ tame.masked, tame.number⟩

theorem Tame.kept_modify {f : Ieee → Ieee} (tame : Tame f) (row : List Ieee) (place : Nat) :
    MaskKept row (row.modify place f) := by
  refine ⟨List.length_modify .., fun {index logit} found => ?_⟩
  rw [List.getElem?_modify] at found
  obtain ⟨origin, here, rfl⟩ := Option.map_eq_some_iff.mp found
  by_cases same : place = index
  · rw [if_pos same]
    exact ⟨origin, here, fun masked => masked ▸ tame.masked, tame.number⟩
  · rw [if_neg same]
    exact ⟨origin, here, id, id⟩

/-- Parameters that keep a mask. -/
structure DrawParams.Sound (params : DrawParams) : Prop where
  repetition : ∃ q > 0, params.repetitionPenalty = .finite q
  frequency : params.frequencyPenalty.isFinite = true

theorem default_sound {arith : Arithmetic} (laws : DrawLaws arith)
    (finite : (arith.single.round (11 / 10)).isFinite = true) : (DrawParams.default arith).Sound := by
  obtain ⟨least, positive, rounds⟩ := laws.tiny
  have above := arith.single.round_mono (show (1 / 1000000 : ℚ) ≤ 11 / 10 by norm_num)
  rw [rounds, Ieee.eq_finite_of_isFinite finite, Ieee.le_finite, decide_eq_true_eq] at above
  exact ⟨⟨_, positive.trans_le above, Ieee.eq_finite_of_isFinite finite⟩, rfl⟩

section Scaled

variable {arith : Arithmetic} {params : DrawParams}

theorem tame_repelled (sound : params.Sound) : Tame (params.repelled arith) := by
  obtain ⟨q, positive, penalty⟩ := sound.repetition
  constructor
  · rw [DrawParams.repelled, penalty, if_neg (by decide)]
    exact (tame_mul positive).masked
  · intro logit number
    rw [DrawParams.repelled, penalty]
    split
    · exact (tame_div positive).number number
    · exact (tame_mul positive).number number

theorem kept_penalizeToken (sound : params.Sound) (state : List Int × List Ieee) (t : Int) :
    MaskKept state.2 (params.penalizeToken arith state t).2 := by
  have subtracted : Tame fun logit => arith.single.sub logit params.frequencyPenalty := by
    rw [Ieee.eq_finite_of_isFinite sound.frequency]
    exact tame_sub
  rw [DrawParams.penalizeToken]
  by_cases inside : 0 ≤ t ∧ t.toNat < state.2.length
  · rw [if_pos inside]
    by_cases first : params.repeats arith = true ∧ t ∉ state.1
    · simp only [if_pos first]
      have once : MaskKept state.2 (state.2.modify t.toNat (params.repelled arith)) :=
        (tame_repelled sound).kept_modify ..
      split
      · exact once.trans (subtracted.kept_modify _ _)
      · exact once
    · simp only [if_neg first]
      split
      · exact subtracted.kept_modify _ _
      · exact MaskKept.refl _
  · rw [if_neg inside]
    exact MaskKept.refl _

theorem kept_penalties (sound : params.Sound) (history : List Int)
    (state : List Int × List Ieee) :
    MaskKept state.2 (history.foldl (params.penalizeToken arith) state).2 := by
  induction history generalizing state with
  | nil => exact MaskKept.refl _
  | cons t rest inductionHypothesis =>
      exact (kept_penalizeToken sound state t).trans (inductionHypothesis _)

theorem f32Max_positive (laws : DrawLaws arith) {temperature : Ieee}
    (bounded : temperature ≠ .posInf) :
    ∃ t > 0, f32Max temperature (arith.single.round (1 / 1000000)) = .finite t := by
  obtain ⟨least, positive, rounds⟩ := laws.tiny
  rw [rounds, f32Max]
  cases temperature with
  | nan => exact ⟨least, positive, rfl⟩
  | negInf => exact ⟨least, positive, rfl⟩
  | posInf => exact absurd rfl bounded
  | finite x =>
      by_cases below : x < least
      · exact ⟨least, positive, by simp [below]⟩
      · exact ⟨x, positive.trans_le (not_lt.mp below), by simp [below, Ieee.isNan]⟩

/-- The penalties and the temperature unmask nothing. -/
theorem kept_scaled (laws : DrawLaws arith) (sound : params.Sound) {temperature : Ieee}
    (bounded : temperature ≠ .posInf) (history : List Int) (row : List Ieee) :
    MaskKept row (params.scaled arith temperature history row) := by
  obtain ⟨t, positive, isTemp⟩ := f32Max_positive laws bounded
  rw [DrawParams.scaled, isTemp]
  refine MaskKept.trans ?_ ((tame_div positive).kept_map _)
  rw [DrawParams.penalize]
  split
  · exact kept_penalties sound history ([], row)
  · exact MaskKept.refl _

end Scaled

/-! ## The candidate that is drawn -/

section Pick

variable {arith : Arithmetic} {params : DrawParams} {rng : Rng}

theorem foldl_add_nan (format : Format) (weights : List Ieee) :
    weights.foldl format.add .nan = .nan := by
  induction weights with
  | nil => rfl
  | cons _ _ inductionHypothesis => exact inductionHypothesis

/-- Above an infinite logit there is no sum, and the first candidate is taken. -/
theorem pick_infinite (laws : DrawLaws arith) (first : Nat) (rest : List (Ieee × Nat)) :
    (params.pick arith rng ((.posInf, first) :: rest)).1 = first := by
  have noSum : arith.double.total (DrawParams.scores arith ((.posInf, first) :: rest)) = .nan := by
    simp only [DrawParams.scores, List.head?_cons, Option.map_some, Option.getD_some, List.map_cons,
      Format.total, List.foldl_cons]
    rw [show arith.double.convert (arith.single.sub .posInf .posInf) = .nan from rfl, laws.exp_nan]
    exact foldl_add_nan _ _
  rw [DrawParams.pick]
  dsimp only
  rw [noSum]
  rfl

variable {top : ℚ} {first : Nat} {rest : List (Ieee × Nat)}

theorem score_first (laws : DrawLaws arith) (top : ℚ) :
    arith.exp (arith.double.convert (arith.single.sub (.finite top) (.finite top))) = .finite 1 := by
  rw [Format.sub, Ieee.neg, Format.add, add_neg_cancel, laws.zero, Format.convert,
    laws.double.round_zero, laws.exp_zero]

/-- The score of a logit that is not above the first. -/
theorem score_fraction (laws : DrawLaws arith) {logit : Ieee}
    (below : logit.le (.finite top) = true) :
    Fraction (arith.exp (arith.double.convert (arith.single.sub logit (.finite top)))) := by
  apply laws.exp_fraction
  cases logit with
  | nan => cases below
  | negInf => rfl
  | posInf => cases below
  | finite x =>
      rw [Ieee.le_finite, decide_eq_true_eq] at below
      have difference := arith.single.round_mono (show x + -top ≤ 0 by linarith)
      rw [laws.zero] at difference
      change (arith.double.convert (arith.single.round (x + -top))).le _ = true
      cases rounded : arith.single.round (x + -top) with
      | nan => rw [rounded] at difference; cases difference
      | negInf => rfl
      | posInf => rw [rounded] at difference; cases difference
      | finite y =>
          rw [rounded, Ieee.le_finite, decide_eq_true_eq] at difference
          have converted := arith.double.round_mono difference
          rwa [laws.double.round_zero] at converted

/-- The scores of candidates whose first is finite add up to a number from 1 up. -/
theorem scores_total (laws : DrawLaws arith)
    (below : ∀ entry ∈ rest, entry.1.le (.finite top) = true) (short : rest.length < 2 ^ 53) :
    (∀ p ∈ DrawParams.scores arith ((.finite top, first) :: rest), Fraction p) ∧
      ∃ sum, arith.double.total (DrawParams.scores arith ((.finite top, first) :: rest)) =
        .finite sum ∧ 1 ≤ sum ∧ sum ≤ 2 ^ 53 := by
  let score : Ieee × Nat → Ieee := fun entry =>
    arith.exp (arith.double.convert (arith.single.sub entry.1 (.finite top)))
  have head : score (.finite top, first) = .finite 1 := score_first laws top
  have all : DrawParams.scores arith ((.finite top, first) :: rest) =
      .finite 1 :: rest.map score := by
    rw [← head]
    rfl
  have others : ∀ p ∈ rest.map score, Fraction p := by
    intro p member
    obtain ⟨entry, inside, rfl⟩ := List.mem_map.mp member
    exact score_fraction laws (below entry inside)
  have one : arith.double.round 1 = .finite 1 := by
    have whole := laws.double.whole 1 (by norm_num)
    rwa [Nat.cast_one] at whole
  have start : arith.double.Within 1 (.finite 1) := ⟨1, rfl, zero_le_one, by simp, one⟩
  obtain ⟨⟨sum, isSum, _, high, _⟩, above⟩ := laws.double.foldl_within others
    (by rw [List.length_map]; omega) start
  rw [all]
  refine ⟨List.forall_mem_cons.mpr ⟨⟨1, rfl, zero_le_one, le_rfl⟩, others⟩, sum, ?_, ?_, ?_⟩
  · rw [Format.total, List.foldl_cons, Format.add, zero_add, one]
    exact isSum
  · rw [isSum] at above
    simpa using above
  · refine high.trans ?_
    rw [List.length_map]
    exact_mod_cast (by omega : 1 + rest.length ≤ 2 ^ 53)

/-- A score over the sum, with the index of its candidate. -/
def shareOf (arith : Arithmetic) (top sum : ℚ) (entry : Ieee × Nat) : Ieee × Nat :=
  (arith.double.div (arith.exp (arith.double.convert (arith.single.sub entry.1 (.finite top))))
    (.finite sum), entry.2)

theorem share_within (laws : DrawLaws arith) {sum : ℚ} (low : 1 ≤ sum) {entry : Ieee × Nat}
    (below : entry.1.le (.finite top) = true) :
    arith.double.Within 1 (shareOf arith top sum entry).1 := by
  have positive : 0 < sum := zero_lt_one.trans_le low
  obtain ⟨score, isScore, nonneg, one⟩ := score_fraction laws below
  rw [shareOf, isScore, Format.div, if_neg positive.ne']
  apply laws.double.round_within (by norm_num) (div_nonneg nonneg positive.le)
  rw [Nat.cast_one]
  exact (div_le_one positive).mpr (one.trans low)

/-- A masked candidate has no share. -/
theorem share_masked (laws : DrawLaws arith) {sum : ℚ} (low : 1 ≤ sum) (index : Nat) :
    (shareOf arith top sum (.negInf, index)).1 = .finite 0 := by
  have positive : 0 < sum := zero_lt_one.trans_le low
  rw [shareOf, show arith.double.convert (arith.single.sub .negInf (.finite top)) = .negInf from rfl,
    laws.exp_negInf, Format.div, if_neg positive.ne', zero_div, laws.double.round_zero]

/-- The first candidate has a share that no rounding takes. -/
theorem share_first (laws : DrawLaws arith) {sum : ℚ} (low : 1 ≤ sum) (high : sum ≤ 2 ^ 53) :
    (Ieee.finite (1 / 2 ^ 53)).le (shareOf arith top sum (.finite top, first)).1 = true := by
  have positive : 0 < sum := zero_lt_one.trans_le low
  have least := arith.double.round_mono (one_div_le_one_div_of_le positive high)
  have kept := laws.double.grid 1 (by norm_num)
  rw [Nat.cast_one] at kept
  rw [kept] at least
  rw [shareOf, score_first laws, Format.div, if_neg positive.ne']
  exact least

/-- So the candidates of a nucleus have one together. -/
theorem share_total (laws : DrawLaws arith) {sum : ℚ} (low : 1 ≤ sum) (high : sum ≤ 2 ^ 53)
    {others : List (Ieee × Nat)} (below : ∀ entry ∈ others, entry.1.le (.finite top) = true)
    (short : others.length < 2 ^ 53) :
    (Ieee.finite (1 / 2 ^ 53)).le (arith.double.total
      ((((.finite top, first) :: others).map (shareOf arith top sum)).map Prod.fst)) = true := by
  have fractions : ∀ p ∈ (others.map (shareOf arith top sum)).map Prod.fst, Fraction p := by
    intro p member
    obtain ⟨_, shared, rfl⟩ := List.mem_map.mp member
    obtain ⟨entry, inside, rfl⟩ := List.mem_map.mp shared
    exact (share_within laws low (below entry inside)).fraction
  have least := @share_first arith top first laws sum low high
  have start := share_within laws low
    (show (Ieee.finite top, first).1.le (.finite top) = true by simp)
  obtain ⟨value, isValue, _, _, fixed⟩ := id start
  obtain ⟨_, above⟩ := laws.double.foldl_within fractions
    (by rw [List.length_map, List.length_map]; omega) start
  refine Ieee.le_trans least ?_
  rw [isValue] at above ⊢
  rw [List.map_cons, List.map_cons, Format.total, List.foldl_cons, isValue, Format.add, zero_add,
    fixed]
  exact above

/-- Below a finite logit what is drawn is not masked. -/
theorem pick_finite (laws : DrawLaws arith)
    (below : ∀ entry ∈ rest, entry.1.le (.finite top) = true) (short : rest.length < 2 ^ 53) :
    ∃ entry ∈ (Ieee.finite top, first) :: rest, entry.1 ≠ .negInf ∧
      (params.pick arith rng ((.finite top, first) :: rest)).1 = entry.2 := by
  obtain ⟨_, sum, isSum, low, high⟩ := @scores_total arith top first rest laws below short
  let cand := (Ieee.finite top, first) :: rest
  let probs := (DrawParams.scores arith cand).map fun p => arith.double.div p (.finite sum)
  have ordered : ∀ entry ∈ cand, entry.1.le (.finite top) = true :=
    List.forall_mem_cons.mpr ⟨by simp, below⟩
  have shares : probs.zip (cand.map Prod.snd) = cand.map (shareOf arith top sum) := by
    simp only [probs, DrawParams.scores, List.map_map, List.zip_map']
    rfl
  obtain ⟨more, isNucleus⟩ : ∃ more, params.nucleus arith probs = more + 1 :=
    ⟨_, (Nat.sub_add_cancel (le_max_left 1 _)).symm⟩
  let entries := (cand.map (shareOf arith top sum)).take (more + 1)
  have inside : ∀ entry ∈ entries, ∃ candidate ∈ cand, shareOf arith top sum candidate = entry :=
    fun entry member => List.mem_map.mp (List.mem_of_mem_take member)
  have short' : entries.length ≤ 2 ^ 53 := by
    refine (List.length_take_le' _ _).trans ?_
    rw [List.length_map, List.length_cons]
    omega
  have fractions : ∀ entry ∈ entries, Fraction entry.1 := by
    intro entry member
    obtain ⟨candidate, there, rfl⟩ := inside entry member
    exact (share_within laws low (ordered candidate there)).fraction
  have enough : (Ieee.finite (1 / 2 ^ 53)).le
      (arith.double.total (entries.map Prod.fst)) = true := by
    have fewer := (List.length_take_le' more rest).trans_lt short
    have total := @share_total arith top first laws sum low high _
      (fun entry member => below entry (List.mem_of_mem_take member)) fewer
    rw [← List.take_succ_cons, List.map_take] at total
    exact total
  obtain ⟨k, small, isShare⟩ := nextF64_grid laws.double rng
  obtain ⟨index, p, lands, member, positive⟩ :=
    laws.double.draw_positive fractions short' enough small
  obtain ⟨candidate, there, same⟩ := inside _ member
  refine ⟨candidate, there, ?_, ?_⟩
  · intro masked
    obtain ⟨logit, place⟩ := candidate
    subst masked
    exact positive ((congrArg Prod.fst same).symm.trans (share_masked laws low place))
  · have regular : ((Ieee.finite sum).le (.finite 0) || !(Ieee.finite sum).isFinite) = false := by
      have above : ¬ sum ≤ 0 := not_le.mpr (zero_lt_one.trans_le low)
      simp [above, Ieee.isFinite]
    rw [DrawParams.pick]
    dsimp only
    rw [isSum, if_neg (by rw [regular]; decide)]
    change ((arith.double.landing (arith.double.mul (rng.nextF64 arith.double).1
      (arith.double.total (((probs.zip (cand.map Prod.snd)).take
        (params.nucleus arith probs)).map Prod.fst))) (.finite 0)
      ((probs.zip (cand.map Prod.snd)).take (params.nucleus arith probs))).getD _) = _
    rw [shares, isNucleus, isShare]
    change (arith.double.landing (arith.double.mul _ (arith.double.total (entries.map Prod.fst)))
      (.finite 0) entries).getD _ = _
    rw [lands]
    exact (congrArg Prod.snd same).symm

/-- The first of the candidates is not masked unless all are. -/
theorem Candidates.head {row : List Ieee} {cand : List (Ieee × Nat)}
    (candidates : Candidates row cand) (alive : ∃ logit ∈ row, logit ≠ .negInf) :
    ∃ best first rest, cand = (best, first) :: rest ∧ best ≠ .negInf ∧
      ∀ entry ∈ rest, entry.1.le best = true := by
  obtain ⟨logit, inRow, unmasked⟩ := alive
  obtain ⟨index, found⟩ := List.mem_iff_getElem?.mp inRow
  have member : (logit, index) ∈ cand :=
    candidates.perm.mem_iff.mpr (List.mem_zipIdx_iff_getElem?.mpr found)
  cases cand with
  | nil => cases member
  | cons head rest =>
      obtain ⟨best, first⟩ := head
      have below := (List.pairwise_cons.mp candidates.descending).1
      refine ⟨best, first, rest, rfl, ?_, below⟩
      rintro rfl
      rcases List.mem_cons.mp member with same | behind
      · exact unmasked (Prod.mk.injEq .. ▸ same).1
      · have low := below _ behind
        cases logit with
        | negInf => exact unmasked rfl
        | nan => cases low
        | finite => cases low
        | posInf => cases low

theorem truncate_cons (params : DrawParams) (head : Ieee × Nat) (rest : List (Ieee × Nat)) :
    ∃ more, params.truncate (head :: rest) = head :: rest.take more := by
  rw [DrawParams.truncate, List.length_cons]
  by_cases all : params.topK = 0
  · exact ⟨rest.length, by rw [if_pos all, List.take_succ_cons]⟩
  · refine ⟨min params.topK (rest.length + 1) - 1, ?_⟩
    rw [if_neg all, ← List.take_succ_cons, Nat.sub_add_cancel (by omega)]

/-- What the sorted candidates of a row without a NaN come to. -/
theorem pick_unmasked (laws : DrawLaws arith) {row : List Ieee} {cand : List (Ieee × Nat)}
    (candidates : Candidates row cand) (numbers : ∀ logit ∈ row, logit.isNan = false)
    (short : row.length ≤ 2 ^ 53) (alive : ∃ logit ∈ row, logit ≠ .negInf) :
    ∃ logit, row[(params.pick arith rng (params.truncate cand)).1]? = some logit ∧
      logit ≠ .negInf := by
  obtain ⟨best, first, rest, rfl, unmasked, below⟩ := candidates.head alive
  obtain ⟨more, kept⟩ := truncate_cons params (best, first) rest
  have found : ∀ entry ∈ (best, first) :: rest.take more, row[entry.2]? = some entry.1 := by
    intro entry member
    have inside : entry ∈ (best, first) :: rest :=
      List.cons_subset_cons _ (List.take_subset more rest) member
    exact List.mem_zipIdx_iff_getElem?.mp (candidates.perm.mem_iff.mp inside)
  have number := numbers best (List.mem_of_getElem? (found _ List.mem_cons_self))
  have length : rest.length + 1 = row.length := by
    simpa using candidates.perm.length_eq
  rw [kept]
  cases best with
  | nan => cases number
  | negInf => exact absurd rfl unmasked
  | posInf =>
      rw [pick_infinite laws]
      exact ⟨.posInf, found _ List.mem_cons_self, unmasked⟩
  | finite top =>
      obtain ⟨entry, member, spared, picked⟩ := @pick_finite arith params rng top first
        (rest.take more) laws (fun entry inside => below entry (List.mem_of_mem_take inside))
        (by rw [List.length_take]; omega)
      rw [picked]
      exact ⟨entry.1, found entry member, spared⟩

end Pick

/-! ## Runs at a temperature -/

/-- Finite logits, one for each id, of which the penalties and the temperature leave one. -/
structure Drawable (arith : Arithmetic) (params : DrawParams) (elapsed : Nat) (row : List Ieee)
    (sampler : Sampler) : Prop where
  finite : ∀ logit ∈ row, logit.isFinite = true
  short : row.length ≤ 2 ^ 31
  alive : ∃ logit ∈ params.scaled arith sampler.temperature sampler.history
    (sampler.masked elapsed row), logit ≠ .negInf

/-- `sample` on a fresh row and `observe` of its result, over and over. -/
inductive DrawnRun (arith : Arithmetic) (params : DrawParams) :
    List (Nat × List Ieee) → Rng × Sampler → Rng × Sampler → Prop
  | done (state : Rng × Sampler) : DrawnRun arith params [] state state
  | step {elapsed : Nat} {row : List Ieee} {rest : List (Nat × List Ieee)} {rng next : Rng}
      {sampler : Sampler} {token : Int} {final : Rng × Sampler}
      (drawable : Drawable arith params elapsed row sampler)
      (draws : params.Draws arith rng sampler (sampler.masked elapsed row) token next)
      (run : DrawnRun arith params rest
        (next, sampler.decodeOne (fun _ _ => token) (elapsed, row)) final) :
      DrawnRun arith params ((elapsed, row) :: rest) (rng, sampler) final

/-- A sampler at a temperature. -/
structure Warm (sampler : Sampler) : Prop where
  above : sampler.isGreedy = false
  bounded : sampler.temperature ≠ .posInf

section Drawn

variable {arith : Arithmetic} {params : DrawParams} {rng next : Rng} {sampler : Sampler}
  {elapsed : Nat} {row : List Ieee} {token : Int}

/-- The token of a step is an index that no mask takes, however equal logits are sorted. -/
theorem draws_unmasked (laws : DrawLaws arith) (sound : params.Sound) (warm : Warm sampler)
    (drawable : Drawable arith params elapsed row sampler)
    (draws : params.Draws arith rng sampler (sampler.masked elapsed row) token next) :
    ∃ index < row.length, ¬ sampler.Masks elapsed row index ∧ token = index := by
  have blanks := sampler.masked_blanks elapsed row
  have masked := blanks.finiteOrMasked drawable.finite
  have short := drawable.short
  have scaled := kept_scaled laws sound warm.bounded sampler.history (sampler.masked elapsed row)
  obtain ⟨cand, candidates, isToken, _⟩ := draws
  obtain ⟨logit, found, unmasked⟩ := @pick_unmasked arith params rng laws _ _ candidates
    (scaled.numbers masked)
    (by rw [scaled.1, blanks.length_eq]; omega) drawable.alive
  obtain ⟨origin, there, keeps, _⟩ := scaled.2 found
  have isFinite := (masked origin (List.mem_of_getElem? there)).resolve_right
    fun blank => unmasked (keeps blank)
  have inside := (List.getElem?_eq_some_iff.mp there).1
  rw [blanks.length_eq] at inside
  refine ⟨_, inside, blanks.not_taken there isFinite, isToken.trans ?_⟩
  exact Int.bmod_eq_of_le (by omega) (by omega)

theorem sample_warm (warm : Warm sampler) (nonempty : row ≠ []) :
    (sampler.sample (fun _ _ => token) elapsed row).1 = token := by
  rw [Sampler.sample, if_neg nonempty]
  simp only [warm.above]
  rfl

/-- What a run at a temperature keeps of the sampler that it started with. -/
structure Spares (start sampler : Sampler) : Prop where
  order : sampler.noRepeatNgram = start.noRepeatNgram
  ngramPrefix : sampler.ngramPrefix = start.ngramPrefix
  suppress : sampler.suppress = start.suppress
  warm : Warm sampler
  allowed : ∀ token ∈ sampler.history, token ∉ start.suppress
  free : 2 ≤ start.noRepeatNgram → NoneRecursBehind start.noRepeatNgram start.ngramPrefix.length
    (start.ngramPrefix ++ sampler.history)

theorem Spares.step {start : Sampler} (spares : Spares start sampler) (laws : DrawLaws arith)
    (sound : params.Sound) (drawable : Drawable arith params elapsed row sampler)
    (draws : params.Draws arith rng sampler (sampler.masked elapsed row) token next) :
    Spares start (sampler.decodeOne (fun _ _ => token) (elapsed, row)) := by
  obtain ⟨index, inside, unmasked, isToken⟩ :=
    draws_unmasked laws sound spares.warm drawable draws
  have nonempty : row ≠ [] := by
    rintro rfl
    cases inside
  obtain ⟨forced, after⟩ := @Sampler.decodeOne_eq (fun _ _ => token) sampler (elapsed, row)
  rw [after, sample_warm spares.warm nonempty]
  refine ⟨spares.order, spares.ngramPrefix, spares.suppress, ⟨spares.warm.above, spares.warm.bounded⟩,
    ?_, fun enabled => ?_⟩
  · intro other member
    rcases List.mem_append.mp member with before | here
    · exact spares.allowed other before
    · obtain rfl := List.mem_singleton.mp here
      rw [isToken, ← spares.suppress]
      exact fun suppressed => unmasked (.inl (.inl (.inl suppressed)))
  · have fresh : ¬ LastRecurs start.noRepeatNgram
        (start.ngramPrefix ++ sampler.history ++ [token]) := by
      intro recurs
      refine unmasked (.inr ⟨spares.order ▸ enabled, ?_⟩)
      rw [spares.order, spares.ngramPrefix, ← isToken]
      exact recurs
    simpa only [List.append_assoc] using (spares.free enabled).concat fresh

theorem DrawnRun.spares {start : Sampler} {inputs : List (Nat × List Ieee)}
    {before final : Rng × Sampler} (run : DrawnRun arith params inputs before final)
    (laws : DrawLaws arith) (sound : params.Sound) (spares : Spares start before.2) :
    Spares start final.2 := by
  induction run with
  | done state => exact spares
  | step drawable draws _ inductionHypothesis =>
      exact inductionHypothesis (spares.step laws sound drawable draws)

end Drawn

/-- In every run at a temperature above zero no generated token is suppressed, and no n-gram that
ends in one occurs earlier. -/
theorem drawn_noRepeat {arith : Arithmetic} (laws : DrawLaws arith) {params : DrawParams}
    (sound : params.Sound) {rng : Rng} {start : Sampler} (warm : Warm start)
    (fresh : start.history = []) {inputs : List (Nat × List Ieee)} {final : Rng × Sampler}
    (run : DrawnRun arith params inputs (rng, start) final) :
    (∀ token ∈ final.2.history, token ∉ start.suppress) ∧
      (2 ≤ start.noRepeatNgram → NoneRecursBehind start.noRepeatNgram start.ngramPrefix.length
        (start.ngramPrefix ++ final.2.history)) := by
  have spares : Spares start start := by
    refine ⟨rfl, rfl, rfl, warm, ?_, fun _ => ?_⟩
    · rw [fresh]
      intro _ member
      cases member
    · rw [fresh, List.append_nil]
      intro _ stop behind inside
      omega
  have kept := run.spares laws sound spares
  exact ⟨kept.allowed, kept.free⟩

/-- Exact formats, and an exponential that vanishes below zero. -/
def flatArith : Arithmetic where
  single := .exact
  double := .exact
  sqrt := id
  exp
    | .nan => .nan
    | .posInf => .posInf
    | .negInf => .finite 0
    | .finite x => if x < 0 then .finite 0 else .finite (x + 1)
  ln := id

theorem flatArith_laws : DrawLaws flatArith where
  double := .exact
  zero := rfl
  tiny := ⟨1 / 1000000, by norm_num, rfl⟩
  exp_nan := rfl
  exp_negInf := rfl
  exp_zero := by decide +kernel
  exp_fraction x below := by
    cases x with
    | nan => cases below
    | negInf => exact ⟨0, rfl, le_rfl, zero_le_one⟩
    | posInf => cases below
    | finite x =>
        rw [Ieee.le_finite, decide_eq_true_eq] at below
        by_cases negative : x < 0
        · exact ⟨0, if_pos negative, le_rfl, zero_le_one⟩
        · exact ⟨x + 1, if_neg negative, by linarith, by linarith⟩

/-- Three ids, of which the middle one has the largest logit. -/
def threeLogits : List Ieee := [.finite 0, .finite 5, .finite 0]

/-- The best id is suppressed, and the guard bans the first at the first step. -/
theorem drawn_noRepeat_seeded :
    ∃ final, DrawnRun flatArith (.default flatArith) [(0, threeLogits), (0, threeLogits)]
        (.new 7, (withSuppress (.finite 1) 2 [1]).setNgramPrefix [0, 0]) final ∧
      final.2.history.length = 2 ∧ (∀ token ∈ final.2.history, token ∉ [1]) ∧
        NoneRecursBehind 2 2 ([0, 0] ++ final.2.history) := by
  obtain ⟨final, run, length⟩ : ∃ final, DrawnRun flatArith (.default flatArith)
      [(0, threeLogits), (0, threeLogits)]
      (.new 7, (withSuppress (.finite 1) 2 [1]).setNgramPrefix [0, 0]) final ∧
      final.2.history.length = 2 := by
    refine ⟨_, .step ?_ (show (DrawParams.default flatArith).Draws flatArith _ _ _ 2 _ from
        ⟨[(.finite 0, 2), (.negInf, 0), (.negInf, 1)], ⟨by decide +kernel, by decide +kernel⟩,
          by decide +kernel, rfl⟩)
      (.step ?_ (show (DrawParams.default flatArith).Draws flatArith _ _ _ 0 _ from
        ⟨[(.finite 0, 2), (.finite 0, 0), (.negInf, 1)], ⟨by decide +kernel, by decide +kernel⟩,
          by decide +kernel, rfl⟩)
        (.done _)), ?_⟩
    · exact ⟨by decide, by decide, .finite 0, by decide +kernel, by decide⟩
    · exact ⟨by decide, by decide, .finite 0, by decide +kernel, by decide⟩
    · decide +kernel
  have kept := drawn_noRepeat flatArith_laws (default_sound flatArith_laws rfl)
    ⟨by decide +kernel, by decide⟩ rfl run
  exact ⟨final, run, length, kept.1, kept.2 (by decide)⟩

end KairosEngine.Daemon
