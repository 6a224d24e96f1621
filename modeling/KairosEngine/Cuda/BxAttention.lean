import Mathlib.Algebra.Order.Ring.Abs
import KairosEngine.Library.Loop
import KairosEngine.Cuda.ByteExact
import KairosEngine.Cuda.FixedExp

/-!
# The byte-exact attention kernels

`k_attn_decode_win_bx_T` reads the window of a cache in place, `k_attn_decode_ring_bx_T` through
the slots of a ring.  Dot products are folded into two residues every 64 terms and recombined; the
probe bits are off.  A `long long` that overflows has no result, and neither has a window without a
first score.
-/

namespace KairosEngine.Cuda

open KairosEngine.Library

/-! ## The chunked fold -/

structure BxFold where
  a1 : Int
  a2 : Int
  acc : Int
  cnt : Nat

/-- `a = ((a + acc) % Q + Q) % Q`. -/
def bxReduce (Q a acc : Int) : Option Int := do
  let sum ← i64 (a + acc)
  let lifted ← i64 (sum.tmod Q + Q)
  return lifted.tmod Q

def bxReduceBoth (fold : BxFold) : Option BxFold := do
  let a1 ← bxReduce bxQ1 fold.a1 fold.acc
  let a2 ← bxReduce bxQ2 fold.a2 fold.acc
  return ⟨a1, a2, 0, 0⟩

/-- One product of the loop. -/
def bxTerm (factors : Int × Int) (fold : BxFold) : Option BxFold := do
  let product ← i64 (factors.1 * factors.2)
  let acc ← i64 (fold.acc + product)
  if fold.cnt + 1 = 64 then bxReduceBoth { fold with acc, cnt := fold.cnt + 1 }
  else return { fold with acc, cnt := fold.cnt + 1 }

/-- The loop, the rest behind it and `bx_garner`. -/
def bxDot (terms : List (Int × Int)) : Option Int := do
  let fold ← runEach bxTerm terms ⟨0, 0, 0, 0⟩
  let fold ← if fold.cnt ≠ 0 then bxReduceBoth fold else some fold
  bxGarner fold.a1 fold.a2

/-! ## One head -/

/-- What a block computes: the scores and weights in the order of the positions, `S`, and for each
element `num` and the quotient that is stored. -/
structure BxHead (Out : Type) where
  scores : List Int
  weights : List Int
  S : Int
  num : List Int
  ao : List Out

def bxZb : Nat := 14

def bxDsh : Nat := 16

/-- A left shift of a signed value that keeps it. -/
def lsh64 (x : Int) (count : Nat) : Option Int := i64 (x * 2 ^ count)

/-- A score on the grid of the softmax. -/
def bxGrid (score : Int) : Option Int := do
  let shifted ← lsh64 score bxZb
  shr64 shifted (2 * bxDsh : Nat)

/-- The weight of a score on the grid below the largest. -/
def bxWeight (mxz z : Int) : Option Int := do
  let difference ← i64 (z - mxz)
  let d ← lsh64 difference (bxFb - bxZb)
  bxExpFixed d

/-- The loop for `mxz`. -/
def bxMax : List Int → Option Int
  | [] => none
  | first :: rest => some (rest.foldl (fun mxz z => if z > mxz then z else mxz) first)

/-- The loop for `S`. -/
def bxSum (weights : List Int) : Option Int := runEach (fun e S => i64 (S + e)) weights 0

section Head

variable {Out : Type} (ratio : Int → Int → Out) (ea : Nat → Int) (keys values : Nat → Nat → Int)

/-- A block over the rows of its window, in the order of their positions. -/
def bxAttend (HD : Nat) (rows : List Nat) : Option (BxHead Out) := do
  let scores ← rows.mapM fun row => bxDot ((List.range HD).map fun i => (ea i, keys row i))
  let grid ← scores.mapM bxGrid
  let mxz ← bxMax grid
  let weights ← grid.mapM (bxWeight mxz)
  let S ← bxSum weights
  let num ← (List.range HD).mapM fun i =>
    bxDot (weights.zip (rows.map fun row => values row i))
  return { scores, weights, S, num, ao := num.map fun n => ratio n S }

end Head

/-- The arguments of the kernels; `enc` is `llrintf` of a value times `2^16`. -/
structure BxArgs (F KV : Type) where
  q : Nat → F
  encQ : F → Int
  encKV : KV → Int
  ctx : Nat
  KVD : Nat
  HD : Nat
  group : Nat
  win : Int
  /-- The head, `blockIdx.x`. -/
  h : Nat

namespace BxArgs

variable {F KV Out : Type} (args : BxArgs F KV) (ratio : Int → Int → Out) (Kc Vc : Nat → KV)

def s0 : Nat :=
  let pos : Int := args.ctx - 1
  if args.win ≥ 0 ∧ pos - args.win + 1 > 0 then (pos - args.win + 1).toNat else 0

def ea (i : Nat) : Int := args.encQ (args.q (args.h * args.HD + i))

/-- The encoded row of a cache. -/
def encoded (cache : Nat → KV) (row i : Nat) : Int :=
  args.encKV (cache (row * args.KVD + args.h / args.group * args.HD + i))

/-- `k_attn_decode_win_bx_T`, one block. -/
def kAttnDecodeWinBx : Option (BxHead Out) :=
  bxAttend ratio args.ea (args.encoded Kc) (args.encoded Vc) args.HD
    ((List.range (args.ctx - args.s0)).map (args.s0 + ·))

/-- `k_attn_decode_ring_bx_T`, one block. -/
def kAttnDecodeRingBx (Wring : Nat) : Option (BxHead Out) :=
  if Wring = 0 then none
  else
    bxAttend ratio args.ea (args.encoded Kc) (args.encoded Vc) args.HD
      ((List.range (args.ctx - args.s0)).map fun j => (args.s0 + j) % Wring)

end BxArgs

/-! ## The fold is exact in the residues -/

theorem bxReduce_eq {Q a acc : Int} (positive : 0 < Q) (small : Q ≤ 2 ^ 31) (low : 0 ≤ a)
    (high : a < Q) (bound : |acc| ≤ 2 ^ 62) : bxReduce Q a acc = some ((a + acc) % Q) := by
  obtain ⟨accLow, accHigh⟩ := abs_le.mp bound
  have lift := Int.lt_tmod_of_pos (a + acc) positive
  have lift' := Int.tmod_lt_of_pos (a + acc) positive
  rw [bxReduce, i64_eq (by omega) (by omega)]
  simp only [Option.bind_eq_bind, Option.bind_some, Option.pure_def]
  rw [i64_eq (by omega) (by omega), Option.bind_some, tmod_lifted positive]

/-- The residues and the open chunk stand for what was added so far. -/
structure BxFold.Holds (fold : BxFold) (total : Int) : Prop where
  open_chunk : fold.cnt < 64
  acc : |fold.acc| ≤ fold.cnt * 2 ^ 56
  low1 : 0 ≤ fold.a1
  high1 : fold.a1 < bxQ1
  low2 : 0 ≤ fold.a2
  high2 : fold.a2 < bxQ2
  first : (fold.a1 + fold.acc) % bxQ1 = total % bxQ1
  second : (fold.a2 + fold.acc) % bxQ2 = total % bxQ2

theorem bxReduceBoth_eq {fold : BxFold} {total : Int} (acc : |fold.acc| ≤ 2 ^ 62)
    (low1 : 0 ≤ fold.a1) (high1 : fold.a1 < bxQ1) (low2 : 0 ≤ fold.a2) (high2 : fold.a2 < bxQ2)
    (first : (fold.a1 + fold.acc) % bxQ1 = total % bxQ1)
    (second : (fold.a2 + fold.acc) % bxQ2 = total % bxQ2) :
    bxReduceBoth fold = some ⟨total % bxQ1, total % bxQ2, 0, 0⟩ := by
  rw [bxReduceBoth, bxReduce_eq (by decide) (by decide) low1 high1 acc,
    bxReduce_eq (by decide) (by decide) low2 high2 acc, first, second]
  rfl

theorem BxFold.Holds.term {fold : BxFold} {total : Int} (holds : fold.Holds total)
    {factors : Int × Int} (bound : |factors.1 * factors.2| ≤ 2 ^ 56) :
    ∃ next, bxTerm factors fold = some next ∧ next.Holds (total + factors.1 * factors.2) := by
  obtain ⟨openChunk, acc, low1, high1, low2, high2, first, second⟩ := holds
  generalize product : factors.1 * factors.2 = p at *
  have sum : |fold.acc + p| ≤ (fold.cnt + 1) * 2 ^ 56 := by
    have triangle := abs_add_le fold.acc p
    linarith
  have few : ((fold.cnt : Int) + 1) * 2 ^ 56 ≤ 2 ^ 62 := by omega
  obtain ⟨pLow, pHigh⟩ := abs_le.mp bound
  obtain ⟨sumLow, sumHigh⟩ := abs_le.mp (sum.trans few)
  have moved (Q a : Int) (same : (a + fold.acc) % Q = total % Q) :
      (a + (fold.acc + p)) % Q = (total + p) % Q := by
    rw [← add_assoc, Int.add_emod, same, ← Int.add_emod]
  rw [bxTerm, product, i64_eq (by omega) (by omega)]
  simp only [Option.bind_eq_bind, Option.bind_some, Option.pure_def]
  rw [i64_eq (by omega) (by omega), Option.bind_some]
  by_cases full : fold.cnt + 1 = 64
  · rw [if_pos full, @bxReduceBoth_eq ⟨fold.a1, fold.a2, fold.acc + p, fold.cnt + 1⟩ (total + p) (sum.trans few) low1 high1 low2 high2
      (moved _ _ first) (moved _ _ second)]
    have positive1 : (0 : Int) < bxQ1 := by decide
    have positive2 : (0 : Int) < bxQ2 := by decide
    refine ⟨_, rfl, Nat.succ_pos 63, by simp, ?_, ?_, ?_, ?_, ?_, ?_⟩
    · exact Int.emod_nonneg _ positive1.ne'
    · exact Int.emod_lt_of_pos _ positive1
    · exact Int.emod_nonneg _ positive2.ne'
    · exact Int.emod_lt_of_pos _ positive2
    · rw [add_zero, Int.emod_emod]
    · rw [add_zero, Int.emod_emod]
  · rw [if_neg full]
    refine ⟨_, rfl, ?_, ?_, low1, high1, low2, high2, moved _ _ first, moved _ _ second⟩
    · dsimp only
      omega
    · dsimp only
      rw [Nat.cast_add, Nat.cast_one]
      exact sum

/-- The sum of the products. -/
def dotOf (terms : List (Int × Int)) : Int := (terms.map fun factors => factors.1 * factors.2).sum

theorem bxTerms_eq {terms : List (Int × Int)}
    (bound : ∀ factors ∈ terms, |factors.1 * factors.2| ≤ 2 ^ 56) {fold : BxFold} {total : Int}
    (holds : fold.Holds total) :
    ∃ last, runEach bxTerm terms fold = some last ∧ last.Holds (total + dotOf terms) := by
  induction terms generalizing fold total with
  | nil => exact ⟨fold, rfl, by rwa [dotOf, List.map_nil, List.sum_nil, add_zero]⟩
  | cons factors rest inductionHypothesis =>
      rw [List.forall_mem_cons] at bound
      obtain ⟨next, stepped, after⟩ := holds.term bound.1
      obtain ⟨last, run, done⟩ := inductionHypothesis bound.2 after
      refine ⟨last, by rw [runEach, stepped, Option.bind_some, run], ?_⟩
      rwa [dotOf, List.map_cons, List.sum_cons, ← add_assoc]

/-- With an empty chunk the residues are those of the sum. -/
theorem BxFold.Holds.reduced {fold : BxFold} {total : Int} (holds : fold.Holds total)
    (empty : fold.cnt = 0) : fold.a1 = total % bxQ1 ∧ fold.a2 = total % bxQ2 := by
  have acc := holds.acc
  have first := holds.first
  have second := holds.second
  rw [empty, Nat.cast_zero, zero_mul] at acc
  rw [abs_nonpos_iff.mp acc, add_zero] at first second
  rw [Int.emod_eq_of_lt holds.low1 holds.high1] at first
  rw [Int.emod_eq_of_lt holds.low2 holds.high2] at second
  exact ⟨first, second⟩

/-- The fold gives the number nearest to zero with the residues of the sum, and no word
overflows. -/
theorem bxDot_eq {terms : List (Int × Int)}
    (bound : ∀ factors ∈ terms, |factors.1 * factors.2| ≤ 2 ^ 56) :
    bxDot terms = some (centered (bxQ1 * bxQ2) (dotOf terms % (bxQ1 * bxQ2))) := by
  have start : BxFold.Holds ⟨0, 0, 0, 0⟩ 0 := by constructor <;> decide
  obtain ⟨last, run, holds⟩ := bxTerms_eq bound start
  rw [zero_add] at holds
  have positive1 : (0 : Int) < bxQ1 := by decide
  have positive2 : (0 : Int) < bxQ2 := by decide
  have residues : (if last.cnt ≠ 0 then
        (bxReduceBoth last).bind fun fold => bxGarner fold.a1 fold.a2
      else bxGarner last.a1 last.a2) =
      bxGarner (dotOf terms % bxQ1) (dotOf terms % bxQ2) := by
    by_cases rest : last.cnt ≠ 0
    · have few : ((last.cnt : Int)) * 2 ^ 56 ≤ 2 ^ 62 := by
        have below := holds.open_chunk
        omega
      rw [if_pos rest, bxReduceBoth_eq (holds.acc.trans few) holds.low1 holds.high1 holds.low2
        holds.high2 holds.first holds.second]
      rfl
    · obtain ⟨first, second⟩ := holds.reduced (not_not.mp rest)
      rw [if_neg rest, first, second]
  have low1 := Int.emod_nonneg (dotOf terms) positive1.ne'
  have high1 := Int.emod_lt_of_pos (dotOf terms) positive1
  rw [bxDot, run]
  simp only [Option.bind_eq_bind, Option.bind_some]
  rw [residues, bxGarner_eq low1 high1 (Int.emod_nonneg _ positive2.ne')
    (Int.emod_lt_of_pos _ positive2), garner_eq_emod bxInvQ1_inverts positive2 low1 high1
    (Int.mod_modEq _ _).symm (Int.mod_modEq _ _).symm]

/-- The fold is exact just where the sum is in the centered range. -/
theorem bxDot_exact_iff {terms : List (Int × Int)}
    (bound : ∀ factors ∈ terms, |factors.1 * factors.2| ≤ 2 ^ 56) :
    bxDot terms = some (dotOf terms) ↔ 2 * |dotOf terms| ≤ bxQ1 * bxQ2 - 1 := by
  have positive : (0 : Int) < bxQ1 * bxQ2 := by decide
  rw [bxDot_eq bound, Option.some.injEq]
  constructor
  · intro same
    rw [← same]
    exact centered_bounds (by decide) (Int.emod_nonneg _ positive.ne')
      (Int.emod_lt_of_pos _ positive)
  · exact centered_emod (by decide)

/-! ## The exact head -/

section Exact

variable {Out : Type} (ratio : Int → Int → Out) (ea : Nat → Int) (keys values : Nat → Nat → Int)
  (HD : Nat) (rows : List Nat)

/-- The dot product of a row with the query. -/
def exactScore (row : Nat) : Int := ((List.range HD).map fun i => ea i * keys row i).sum

def exactGrid (row : Nat) : Int := exactScore ea keys HD row * 2 ^ bxZb / 2 ^ (2 * bxDsh)

def exactMax : Int := ((rows.map (exactGrid ea keys HD)).max?).getD 0

/-- `bx_exp_fixed` of the exact difference to the maximum. -/
def exactWeight (row : Nat) : Int :=
  (bxExpFixed ((exactGrid ea keys HD row - exactMax ea keys HD rows) * 2 ^ (bxFb - bxZb))).getD 0

def exactNum (i : Nat) : Int :=
  (rows.map fun row => exactWeight ea keys HD rows row * values row i).sum

/-- A head without a rounding before its quotients, from what `num` is for each element. -/
def headOf (num : Nat → Int) : BxHead Out :=
  let S := (rows.map (exactWeight ea keys HD rows)).sum
  { scores := rows.map (exactScore ea keys HD)
    weights := rows.map (exactWeight ea keys HD rows)
    S := S
    num := (List.range HD).map num
    ao := (List.range HD).map fun i => ratio (num i) S }

/-- The headroom that the kernels state, and the range of the scores; positions are `int`s. -/
structure Headroom : Prop where
  count : rows.length < 2 ^ 31
  product : ∀ row ∈ rows, ∀ i < HD, |ea i * keys row i| ≤ 2 ^ 56
  score : ∀ row ∈ rows, |exactScore ea keys HD row| < 2 ^ 48
  value : ∀ row ∈ rows, ∀ i < HD, |values row i| ≤ 2 ^ 25

end Exact

section Attend

variable {Out : Type} {ratio : Int → Int → Out} {ea : Nat → Int} {keys values : Nat → Nat → Int}
  {HD : Nat} {rows : List Nat}

theorem bxScore_eq (room : Headroom ea keys values HD rows) {row : Nat} (member : row ∈ rows) :
    bxDot ((List.range HD).map fun i => (ea i, keys row i)) =
      some (exactScore ea keys HD row) := by
  have total : dotOf ((List.range HD).map fun i => (ea i, keys row i)) =
      exactScore ea keys HD row := by
    rw [dotOf, List.map_map]
    rfl
  have small := room.score row member
  rw [← total] at small ⊢
  apply (bxDot_exact_iff ?_).mpr
  · have wide : (2 : Int) ^ 50 ≤ bxQ1 * bxQ2 := by decide
    omega
  · intro factors listed
    obtain ⟨i, inside, rfl⟩ := List.mem_map.mp listed
    exact room.product row member i (List.mem_range.mp inside)

theorem bxGrid_eq {score : Int} (small : |score| < 2 ^ 48) :
    bxGrid score = some (score * 2 ^ bxZb / 2 ^ (2 * bxDsh)) := by
  obtain ⟨low, high⟩ := abs_lt.mp small
  have zb : bxZb = 14 := rfl
  rw [bxGrid, lsh64, zb, i64_eq (by omega) (by omega), Option.bind_eq_bind, Option.bind_some,
    shr64_eq (by decide)]

theorem exactGrid_bounds (room : Headroom ea keys values HD rows) {row : Nat} (member : row ∈ rows) :
    -2 ^ 30 ≤ exactGrid ea keys HD row ∧ exactGrid ea keys HD row ≤ 2 ^ 30 := by
  obtain ⟨low, high⟩ := abs_lt.mp (room.score row member)
  have zb : bxZb = 14 := rfl
  have dsh : bxDsh = 16 := rfl
  unfold exactGrid
  rw [zb, dsh]
  omega

theorem bxMax_eq (grid : List Int) : bxMax grid = grid.max? := by
  cases grid with
  | nil => rfl
  | cons first rest =>
      rw [bxMax, List.max?_cons']
      congr 2
      funext mxz z
      exact (max_def_lt mxz z).symm

/-- Every difference to the maximum fits, and its weight is at most one. -/
theorem bxWeight_eq (room : Headroom ea keys values HD rows) {row : Nat} (member : row ∈ rows) :
    bxWeight (exactMax ea keys HD rows) (exactGrid ea keys HD row) =
        some (exactWeight ea keys HD rows row) ∧
      0 ≤ exactWeight ea keys HD rows row ∧ exactWeight ea keys HD rows row ≤ 2 ^ 30 := by
  obtain ⟨low, high⟩ := exactGrid_bounds room member
  -- the maximum is the grid value of a row, and none is above it
  obtain ⟨top, found⟩ : ∃ top, (rows.map (exactGrid ea keys HD)).max? = some top := by
    apply Option.isSome_iff_exists.mp
    rw [List.isSome_max?_iff]
    exact List.map_eq_nil_iff.not.mpr (List.ne_nil_of_mem member)
  have greatest : exactGrid ea keys HD row ≤ top :=
    (List.max?_le_iff found).mp (Int.le_refl top) _ (List.mem_map_of_mem member)
  obtain ⟨other, otherMember, same⟩ := List.mem_map.mp (List.max?_mem found)
  have topHigh := (exactGrid_bounds room otherMember).2
  have max_eq : exactMax ea keys HD rows = top := by rw [exactMax, found, Option.getD_some]
  have range : -2 ^ 62 ≤ (exactGrid ea keys HD row - top) * 2 ^ (bxFb - bxZb) ∧
      (exactGrid ea keys HD row - top) * 2 ^ (bxFb - bxZb) ≤ 0 := by
    rw [show bxFb - bxZb = 16 from rfl]
    omega
  have exp := bxExpFixed_eq range.1 range.2
  rw [exactWeight, bxWeight, max_eq, i64_eq (by omega) (by omega)]
  simp only [Option.bind_eq_bind, Option.bind_some]
  rw [lsh64, i64_eq (by omega) (by omega), Option.bind_some, exp, Option.getD_some]
  exact ⟨rfl, expOf_nonneg _, expOf_le_one _⟩

theorem bxSum_eq {weights : List Int} (bound : ∀ e ∈ weights, 0 ≤ e ∧ e ≤ 2 ^ 30)
    (few : weights.length < 2 ^ 31) : bxSum weights = some weights.sum := by
  have partial_sum : ∀ {todo : List Int} {S : Int}, (∀ e ∈ todo, 0 ≤ e ∧ e ≤ 2 ^ 30) → 0 ≤ S →
      S + todo.length * 2 ^ 30 < 2 ^ 63 →
      runEach (fun e S => i64 (S + e)) todo S = some (S + todo.sum) := by
    intro todo
    induction todo with
    | nil =>
        intro S _ _ _
        rw [runEach, List.sum_nil, Int.add_zero]
    | cons e rest inductionHypothesis =>
        intro S small nonneg room
        rw [List.forall_mem_cons] at small
        rw [List.length_cons] at room
        push_cast at room
        rw [runEach, i64_eq (by omega) (by omega), Option.bind_some,
          inductionHypothesis small.2 (by omega) (by omega), List.sum_cons, Int.add_assoc]
  have total := @partial_sum weights 0 bound (Int.le_refl 0) (by omega)
  rwa [Int.zero_add] at total

theorem bxNum_eq (room : Headroom ea keys values HD rows) {i : Nat} (inside : i < HD) :
    bxDot ((rows.map (exactWeight ea keys HD rows)).zip (rows.map fun row => values row i)) =
        some (centered (bxQ1 * bxQ2) (exactNum ea keys values HD rows i % (bxQ1 * bxQ2))) := by
  have total : dotOf (rows.map fun row => (exactWeight ea keys HD rows row, values row i)) =
      exactNum ea keys values HD rows i := by
    rw [dotOf, List.map_map]
    rfl
  rw [List.zip_map', bxDot_eq, total]
  intro factors listed
  obtain ⟨row, member, rfl⟩ := List.mem_map.mp listed
  obtain ⟨_, nonneg, le_one⟩ := bxWeight_eq room member
  have value := room.value row member i inside
  dsimp only
  rw [abs_mul, abs_of_nonneg nonneg]
  calc exactWeight ea keys HD rows row * |values row i| ≤ 2 ^ 30 * 2 ^ 25 :=
        mul_le_mul le_one value (abs_nonneg _) (by decide)
    _ ≤ 2 ^ 56 := by decide

/-- In the headroom no word overflows, and all but `num` is exact. -/
theorem bxAttend_eq (room : Headroom ea keys values HD rows) (nonempty : rows ≠ []) :
    bxAttend ratio ea keys values HD rows = some (headOf ratio ea keys HD rows fun i =>
      centered (bxQ1 * bxQ2) (exactNum ea keys values HD rows i % (bxQ1 * bxQ2))) := by
  have grid : (rows.map (exactScore ea keys HD)).mapM bxGrid =
      some (rows.map (exactGrid ea keys HD)) := by
    rw [List.mapM_map]
    exact mapM_eq_some_map fun row member => bxGrid_eq (room.score row member)
  have largest : bxMax (rows.map (exactGrid ea keys HD)) = some (exactMax ea keys HD rows) := by
    rw [bxMax_eq, exactMax]
    obtain ⟨top, found⟩ := Option.isSome_iff_exists.mp
      (List.isSome_max?_iff.mpr (List.map_eq_nil_iff.not.mpr nonempty) :
        (rows.map (exactGrid ea keys HD)).max?.isSome = true)
    rw [found, Option.getD_some]
  have weights : (rows.map (exactGrid ea keys HD)).mapM (bxWeight (exactMax ea keys HD rows)) =
      some (rows.map (exactWeight ea keys HD rows)) := by
    rw [List.mapM_map]
    exact mapM_eq_some_map fun row member => (bxWeight_eq room member).1
  have sum : bxSum (rows.map (exactWeight ea keys HD rows)) =
      some (rows.map (exactWeight ea keys HD rows)).sum := by
    apply bxSum_eq
    · intro e listed
      obtain ⟨row, member, rfl⟩ := List.mem_map.mp listed
      exact (bxWeight_eq room member).2
    · rw [List.length_map]
      exact room.count
  have num : (List.range HD).mapM (fun i => bxDot ((rows.map (exactWeight ea keys HD rows)).zip
        (rows.map fun row => values row i))) =
      some ((List.range HD).map fun i =>
        centered (bxQ1 * bxQ2) (exactNum ea keys values HD rows i % (bxQ1 * bxQ2))) :=
    mapM_eq_some_map fun i listed => bxNum_eq room (List.mem_range.mp listed)
  have scores : rows.mapM (fun row => bxDot ((List.range HD).map fun i => (ea i, keys row i))) =
      some (rows.map (exactScore ea keys HD)) :=
    mapM_eq_some_map fun row member => bxScore_eq room member
  rw [bxAttend, scores]
  simp only [Option.bind_eq_bind, Option.bind_some, grid, largest, weights, sum, num,
    Option.pure_def]
  rw [headOf, List.map_map]
  rfl

/-- The head is exact just where there is a row and every `num` is in the centered range. -/
theorem bxAttend_exact_iff (room : Headroom ea keys values HD rows) :
    bxAttend ratio ea keys values HD rows =
        some (headOf ratio ea keys HD rows (exactNum ea keys values HD rows)) ↔
      rows ≠ [] ∧ ∀ i < HD, 2 * |exactNum ea keys values HD rows i| ≤ bxQ1 * bxQ2 - 1 := by
  have positive : (0 : Int) < bxQ1 * bxQ2 := by decide
  constructor
  · intro exact
    have nonempty : rows ≠ [] := by
      rintro rfl
      cases exact
    refine ⟨nonempty, fun i inside => ?_⟩
    rw [bxAttend_eq room nonempty, Option.some.injEq] at exact
    have nums := congrArg BxHead.num exact
    have same := List.map_inj_left.mp nums i (List.mem_range.mpr inside)
    rw [← same]
    exact centered_bounds (by decide) (Int.emod_nonneg _ positive.ne')
      (Int.emod_lt_of_pos _ positive)
  · rintro ⟨nonempty, fits⟩
    have same : ∀ i ∈ List.range HD,
        centered (bxQ1 * bxQ2) (exactNum ea keys values HD rows i % (bxQ1 * bxQ2)) =
          exactNum ea keys values HD rows i := fun i listed =>
      centered_emod (by decide) (fits i (List.mem_range.mp listed))
    rw [bxAttend_eq room nonempty, headOf, headOf, List.map_congr_left same]
    congr 2
    apply List.map_congr_left
    intro i listed
    rw [same i listed]

/-- Rows that are read through slots give what they give in place. -/
theorem bxAttend_slots {slot : Nat → Nat} {ringKeys ringValues : Nat → Nat → Int}
    (sameKeys : ∀ row ∈ rows, ∀ i < HD, ringKeys (slot row) i = keys row i)
    (sameValues : ∀ row ∈ rows, ∀ i < HD, ringValues (slot row) i = values row i) :
    bxAttend ratio ea ringKeys ringValues HD (rows.map slot) =
      bxAttend ratio ea keys values HD rows := by
  have scores : (rows.map slot).mapM
        (fun row => bxDot ((List.range HD).map fun i => (ea i, ringKeys row i))) =
      rows.mapM fun row => bxDot ((List.range HD).map fun i => (ea i, keys row i)) := by
    rw [List.mapM_map]
    apply mapM_congr_mem
    intro row member
    refine congrArg bxDot (List.map_congr_left fun i listed => ?_)
    rw [sameKeys row member i (List.mem_range.mp listed)]
  have num (weights : List Int) :
      (List.range HD).mapM (fun i =>
          bxDot (weights.zip ((rows.map slot).map fun row => ringValues row i))) =
        (List.range HD).mapM fun i => bxDot (weights.zip (rows.map fun row => values row i)) := by
    apply mapM_congr_mem
    intro i listed
    congr 2
    rw [List.map_map]
    apply List.map_congr_left
    intro row member
    exact sameValues row member i (List.mem_range.mp listed)
  unfold bxAttend
  simp only [scores, num]

end Attend

/-! ## The two kernels -/

namespace BxArgs

variable {F KV Out : Type} (args : BxArgs F KV)

/-- The positions of the window, in order. -/
def positions : List Nat := (List.range (args.ctx - args.s0)).map (args.s0 + ·)

theorem positions_eq_nil_iff (present : 1 ≤ args.ctx) : args.positions = [] ↔ args.win = 0 := by
  rw [positions, List.map_eq_nil_iff, List.range_eq_nil, s0]
  split
  next windowed => omega
  next => omega

/-- What a head is without any rounding before its quotients. -/
def exactHead (ratio : Int → Int → Out) (Kc Vc : Nat → KV) : BxHead Out :=
  headOf ratio args.ea (args.encoded Kc) args.HD args.positions
    (exactNum args.ea (args.encoded Kc) (args.encoded Vc) args.HD args.positions)

/-- The ring holds the rows of the window, position `p` at slot `p % Wring`. -/
def RingHolds (Wring : Nat) (cache ring : Nat → KV) : Prop :=
  ∀ p ∈ args.positions, ∀ i < args.HD,
    ring (p % Wring * args.KVD + args.h / args.group * args.HD + i) =
      cache (p * args.KVD + args.h / args.group * args.HD + i)

/-- A ring gives what the cache gives. -/
theorem kAttnDecodeRingBx_eq {ratio : Int → Int → Out} {Kc Vc ringK ringV : Nat → KV} {Wring : Nat}
    (positive : 0 < Wring) (heldK : args.RingHolds Wring Kc ringK)
    (heldV : args.RingHolds Wring Vc ringV) :
    args.kAttnDecodeRingBx ratio ringK ringV Wring = args.kAttnDecodeWinBx ratio Kc Vc := by
  have slots : ((List.range (args.ctx - args.s0)).map fun j => (args.s0 + j) % Wring) =
      args.positions.map (· % Wring) := by
    rw [positions, List.map_map]
    rfl
  rw [kAttnDecodeRingBx, if_neg positive.ne', slots]
  apply bxAttend_slots
  · intro p member i inside
    exact congrArg args.encKV (heldK p member i inside)
  · intro p member i inside
    exact congrArg args.encKV (heldV p member i inside)

/-- In the stated headroom, both kernels compute the exact scores, weights, sum and `num` just
where the window is not empty and every exact `num` is in the centered range of the two primes. -/
theorem bxAttention_exact_iff (args : BxArgs F KV) (ratio : Int → Int → Out)
    (Kc Vc ringK ringV : Nat → KV) (Wring : Nat) (present : 1 ≤ args.ctx)
    (room : Headroom args.ea (args.encoded Kc) (args.encoded Vc) args.HD args.positions)
    (enough : args.positions.length ≤ Wring) (heldK : args.RingHolds Wring Kc ringK)
    (heldV : args.RingHolds Wring Vc ringV) :
    args.kAttnDecodeWinBx ratio Kc Vc = some (args.exactHead ratio Kc Vc) ∧
        args.kAttnDecodeRingBx ratio ringK ringV Wring = args.kAttnDecodeWinBx ratio Kc Vc ↔
      args.win ≠ 0 ∧ ∀ i < args.HD,
        2 * |exactNum args.ea (args.encoded Kc) (args.encoded Vc) args.HD args.positions i| ≤
          bxQ1 * bxQ2 - 1 := by
  rw [Ne, ← args.positions_eq_nil_iff present, ← @bxAttend_exact_iff _ ratio _ _ _ _ _ room]
  constructor
  · rintro ⟨exact, _⟩
    exact exact
  · intro exact
    refine ⟨exact, args.kAttnDecodeRingBx_eq ?_ heldK heldV⟩
    have nonempty := (bxAttend_exact_iff room).mp exact
    exact (List.length_pos_of_ne_nil nonempty.1).trans_le enough

/-- A head of one element whose scores are all zero; every value is the largest of the headroom. -/
def flatArgs (ctx : Nat) : BxArgs Int Int where
  q := fun _ => 0
  encQ := id
  encKV := id
  ctx := ctx
  KVD := 1
  HD := 1
  group := 1
  win := -1
  h := 0

theorem bxAttention_exact_iff_flat :
    (flatArgs 15).kAttnDecodeWinBx (fun _ _ => ()) (fun _ => 0) (fun _ => 2 ^ 25) =
      some ((flatArgs 15).exactHead (fun _ _ => ()) (fun _ => 0) (fun _ => 2 ^ 25)) := by
  have exact := @bxAttention_exact_iff Int Int Unit (flatArgs 15) (fun _ _ => ()) (fun _ => 0)
    (fun _ => 2 ^ 25) (fun _ => 0) (fun _ => 2 ^ 25) 15 (by decide)
    (by constructor <;> decide +kernel) (by decide) (fun _ _ _ _ => rfl) (fun _ _ _ _ => rfl)
  exact (exact.mpr ⟨by decide, by decide +kernel⟩).1

/-- Sixteen equal scores and values of 512 in the headroom: `num` is 2^59 and wraps. -/
theorem bxAttention_wraps :
    Headroom (flatArgs 16).ea ((flatArgs 16).encoded fun _ => 0)
        ((flatArgs 16).encoded fun _ => 2 ^ 25) 1 (flatArgs 16).positions ∧
      (flatArgs 16).kAttnDecodeWinBx (fun _ _ => ()) (fun _ => 0) (fun _ => 2 ^ 25) ≠
        some ((flatArgs 16).exactHead (fun _ _ => ()) (fun _ => 0) (fun _ => 2 ^ 25)) := by
  have room : Headroom (flatArgs 16).ea ((flatArgs 16).encoded fun _ => 0)
      ((flatArgs 16).encoded fun _ => 2 ^ 25) 1 (flatArgs 16).positions := by
    constructor <;> decide +kernel
  refine ⟨room, fun exact => ?_⟩
  have fits := ((bxAttend_exact_iff room).mp exact).2 0 (by decide)
  exact absurd fits (by decide +kernel)

end BxArgs

end KairosEngine.Cuda
