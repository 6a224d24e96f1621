import Mathlib.Analysis.Complex.Exponential
import KairosEngine.Library.Softmax
import KairosEngine.Library.Tiling

/-!
# The attention of the batched prefill

`k_attn_from_T` takes the softmax of a row in two passes; `k_attn_from_tiled_T` walks the same
row a tile at a time and rescales what it has.  A block of either kernel is one query position
and one head.
-/

namespace KairosEngine.Cuda

open KairosEngine.Library

universe u

/-- The arguments that both kernels share, the rows as `kv_ld` reads them. -/
structure AttnArgs (F : Type u) where
  Q : Nat → F
  K : Nat → F
  V : Nat → F
  pos0 : Nat
  QD : Nat
  KVD : Nat
  HD : Nat
  group : Nat
  ascale : F
  win : Int

/-- The first position a query at `t` looks at. -/
def attnStart (win : Int) (t : Nat) : Nat :=
  if 0 ≤ win ∧ 0 < t - win + 1 then (t - win + 1).toNat else 0

namespace AttnArgs

variable {F : Type u} (args : AttnArgs F) (b : Nat)

def nHeads : Nat := args.QD / args.HD

/-- `t`, the position of the query of block `b`. -/
def position : Nat := args.pos0 + b / args.nHeads

def s0 : Nat := attnStart args.win (args.position b)

/-- Where the query of the block starts, and its output. -/
def queryAt : Nat := b / args.nHeads * args.QD + b % args.nHeads * args.HD

/-- Where the row of a position starts, for the head of the block. -/
def rowAt (s : Nat) : Nat := s * args.KVD + b % args.nHeads / args.group * args.HD

def score [Field F] (s : Nat) : F :=
  (List.range args.HD).foldl
    (fun acc i => acc + args.Q (args.queryAt b + i) * args.K (args.rowAt b s + i)) 0 * args.ascale

def value (i s : Nat) : F := args.V (args.rowAt b s + i)

/-- The tiles of the block: where each starts, and how many positions it has. -/
def tiles {TILE : Nat} (positive : 0 < TILE) : List (Nat × Nat) :=
  strides positive (args.position b + 1) (args.s0 b)

/-- The tiles visit the positions of the window, in order. -/
theorem tiles_flatMap {TILE : Nat} (positive : 0 < TILE) :
    (args.tiles b positive).flatMap (fun tile => List.range' tile.1 tile.2) =
      List.range' (args.s0 b) (args.position b + 1 - args.s0 b) := strides_flatMap

end AttnArgs

section Kernels

variable {F : Type u} [Field F] [LinearOrder F] (exp : F → F) (args : AttnArgs F) (b : Nat)

/-- `if (sc[s] > m) m = sc[s]`, along the given indices. -/
def scanMax (sc : Nat → F) (start : F) (indices : List Nat) : F :=
  indices.foldl (fun m s => if sc s > m then sc s else m) start

/-- What a block of `k_attn_from_T` writes into `AO`. -/
def kAttnFromT : List (Nat × F) :=
  let s0 := args.s0 b
  let t := args.position b
  let m := scanMax (args.score b) (args.score b s0) (List.range' (s0 + 1) (t - s0))
  let sum := (List.range' s0 (t + 1 - s0)).foldl (fun sum s => sum + exp (args.score b s - m)) 0
  let inv := 1 / sum
  (List.range args.HD).map fun i =>
    (args.queryAt b + i,
      (List.range' s0 (t + 1 - s0)).foldl
        (fun acc s => acc + exp (args.score b s - m) * args.value b i s) 0 * inv)

/-- The running maximum, the running denominator and the accumulators. -/
structure TileRun (F : Type u) where
  mRun : F
  lRun : F
  acc : Nat → F

/-- One tile of `nn` positions from `t0`. -/
def attnTile (t0 nn : Nat) (run : TileRun F) : TileRun F :=
  let sc := fun u => args.score b (t0 + u)
  let mTile := scanMax sc (sc 0) (List.range' 1 (nn - 1))
  let lTile := (List.range nn).foldl (fun sm u => sm + exp (sc u - mTile)) 0
  let mNew := max run.mRun mTile
  let aOld := exp (run.mRun - mNew)
  let aNew := exp (mTile - mNew)
  { mRun := mNew
    lRun := run.lRun * aOld + aNew * lTile
    acc := fun i =>
      run.acc i * aOld + aNew *
        (List.range nn).foldl (fun sv u => sv + exp (sc u - mTile) * args.value b i (t0 + u)) 0 }

/-- What a block of `k_attn_from_tiled_T` writes into `AO`. -/
def kAttnFromTiledT {TILE : Nat} (positive : 0 < TILE) : List (Nat × F) :=
  let run := (args.tiles b positive).foldl
    (fun run tile => attnTile exp args b tile.1 tile.2 run)
    { mRun := -(3 * 10 ^ 38), lRun := 0, acc := fun _ => 0 }
  let inv := 1 / run.lRun
  (List.range args.HD).map fun i => (args.queryAt b + i, run.acc i * inv)

end Kernels

/-! ## What the loops sum -/

section Sums

variable {F : Type u} [Field F] {exp : F → F} {args : AttnArgs F} {b : Nat}

theorem foldl_exp (score : Nat → F) (m : F) (indices : List Nat) :
    indices.foldl (fun total s => total + exp (score s - m)) 0 = weighed exp score 1 m indices := by
  rw [weighed, List.sum_eq_foldl, List.foldl_map]
  simp only [Pi.one_apply, mul_one]

theorem foldl_exp_mul (score value : Nat → F) (m : F) (indices : List Nat) :
    indices.foldl (fun total s => total + exp (score s - m) * value s) 0 =
      weighed exp score value m indices := by
  rw [weighed, List.sum_eq_foldl, List.foldl_map]

/-- A tile counts from its first position. -/
theorem weighed_tile (score value : Nat → F) (m : F) (t0 nn : Nat) :
    weighed exp (fun u => score (t0 + u)) (fun u => value (t0 + u)) m (List.range nn) =
      weighed exp score value m (List.range' t0 nn) := by
  rw [weighed, weighed, List.range'_eq_map_range, List.map_map]
  rfl

end Sums

/-! ## The tiles -/

section Tiles

variable {F : Type u} [Field F] [LinearOrder F] {exp : F → F} {args : AttnArgs F} {b : Nat}

/-- What the block holds after it walked the given positions. -/
def Walked (exp : F → F) (args : AttnArgs F) (b : Nat) (seen : List Nat) (run : TileRun F) : Prop :=
  Running exp (args.score b) (args.value b) seen run.mRun run.lRun run.acc

theorem Walked.tile (exponential : Exponential exp) {seen : List Nat} {run : TileRun F}
    (walked : Walked exp args b seen run) (t0 nn : Nat) :
    Walked exp args b (seen ++ List.range' t0 nn) (attnTile exp args b t0 nn run) := by
  have parts : ∀ value : Nat → F, ∀ m : F,
      weighed exp (fun u => args.score b (t0 + u)) (fun u => value (t0 + u)) m (List.range nn) =
        weighed exp (args.score b) value m (List.range' t0 nn) :=
    fun value m => weighed_tile (args.score b) value m t0 nn
  have absorbed := fun tile next => walked.absorb exponential (List.range' t0 nn) tile next
  unfold Walked attnTile
  simp only [foldl_exp, foldl_exp_mul]
  convert absorbed _ _ using 2
  · rw [← parts 1]
    rfl
  · rw [← parts (args.value b _)]

theorem Walked.tiles (exponential : Exponential exp) (tiles : List (Nat × Nat)) {seen : List Nat}
    {run : TileRun F} (walked : Walked exp args b seen run) :
    Walked exp args b (seen ++ tiles.flatMap fun tile => List.range' tile.1 tile.2)
      (tiles.foldl (fun run tile => attnTile exp args b tile.1 tile.2 run) run) := by
  induction tiles generalizing seen run with
  | nil => rwa [List.flatMap_nil, List.append_nil]
  | cons tile rest inductionHypothesis =>
      rw [List.flatMap_cons, ← List.append_assoc]
      exact inductionHypothesis (walked.tile exponential tile.1 tile.2)

end Tiles

/-! ## The two kernels -/

section Agreement

variable {F : Type u} [Field F] [LinearOrder F]

/-- Every block of the tiled kernel writes what the block of the two-pass kernel writes. -/
theorem kAttnFromTiledT_eq (exp : F → F) (positive : ∀ a, 0 < exp a)
    (additive : ∀ a b, exp (a + b) = exp a * exp b) (args : AttnArgs F) (b TILE : Nat)
    (tile : 0 < TILE) :
    kAttnFromTiledT exp args b tile = kAttnFromT exp args b := by
  have exponential : Exponential exp := ⟨positive, additive⟩
  have walked := @Walked.tiles F _ _ exp args b exponential (args.tiles b tile) []
    { mRun := -(3 * 10 ^ 38), lRun := 0, acc := fun _ => 0 } running_nil
  rw [List.nil_append, AttnArgs.tiles_flatMap] at walked
  unfold kAttnFromTiledT kAttnFromT
  simp only [foldl_exp, foldl_exp_mul]
  apply List.map_congr_left
  intro i _
  rw [walked.denominator_eq, walked.sums_eq i]
  congr 1
  exact exponential.normalized _

/-- Three positions, read two at a time by one head of width one. -/
theorem kAttnFromTiledT_eq_three :
    kAttnFromTiledT Real.exp ⟨fun _ => 1, fun s => s, fun s => s, 2, 1, 1, 1, 1, 1, -1⟩ 0
        (by decide : 0 < 2) =
      kAttnFromT Real.exp ⟨fun _ => 1, fun s => s, fun s => s, 2, 1, 1, 1, 1, 1, -1⟩ 0 :=
  kAttnFromTiledT_eq Real.exp Real.exp_pos Real.exp_add _ 0 2 (by decide)

end Agreement

end KairosEngine.Cuda
