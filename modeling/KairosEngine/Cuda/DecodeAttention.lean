import KairosEngine.Library.Scatter
import KairosEngine.Library.WarpReduce
import KairosEngine.Cuda.PrefillAttention

/-!
# The attention of a decode step

One query attends to the window of a cache that is linear or a ring.  The flat kernels take the
softmax in two passes, the tiled ones a tile at a time, and the split ones cut the window into
chunks whose partial results `k_attn_split_combine` puts together.  Which of them runs is up to
`g4_attn_launch`.
-/

namespace KairosEngine.Cuda

open KairosEngine.Library

universe u

/-- What the kernels read; the rows of the cache as `kv_ld` reads them. -/
structure DecodeArgs (F : Type u) where
  q : Nat → F
  K : Nat → F
  V : Nat → F
  /-- `*dpos`. -/
  dpos : Nat
  KVD : Nat
  HD : Nat
  group : Nat
  ascale : F
  win : Int
  /-- The slots of the ring; 0 is a linear cache. -/
  Wring : Nat

namespace DecodeArgs

variable {F : Type u} (args : DecodeArgs F)

def ctx : Nat := args.dpos + 1

def s0 : Nat := attnStart args.win args.dpos

/-- The positions of the window. -/
def window : List Nat := List.range' args.s0 (args.ctx - args.s0)

def slot (p : Nat) : Nat := if 0 < args.Wring then p % args.Wring else p

/-- Where the row of a position starts, for a KV head. -/
def rowAt (kvh p : Nat) : Nat := args.slot p * args.KVD + kvh * args.HD

def value (kvh i p : Nat) : F := args.V (args.rowAt kvh p + i)

theorem s0_le : args.s0 ≤ args.ctx := by
  rw [s0, ctx, attnStart]
  split
  next bounded => omega
  next => exact Nat.zero_le _

variable [Field F]

/-- `qh[i] * kv_ld(kh, i)`, the query from its address on. -/
def product (query kvh p i : Nat) : F := args.q (query + i) * args.K (args.rowAt kvh p + i)

/-- One thread takes the dot product. -/
def score (h p : Nat) : F :=
  (List.range args.HD).foldl
    (fun acc i => acc + args.product (h * args.HD) (h / args.group) p i) 0 * args.ascale

/-- What a lane of a warp sums up, `for (i = lane; i < HD; i += 32)`. -/
def laneDot (query kvh p lane : Nat) : F :=
  (laneLoop args.HD lane).foldl (fun a i => a + args.product query kvh p i) 0

/-- A warp takes the dot product and its first lane has the score. -/
def scoreDown (h p : Nat) : F :=
  [16, 8, 4, 2, 1].foldl (shuffleDown (· + ·)) (args.laneDot (h * args.HD) (h / args.group) p) 0 *
    args.ascale

/-- The score of a head of the group that a block of the split kernel serves. -/
def scoreXor (kvh g p : Nat) : F :=
  [16, 8, 4, 2, 1].foldl (shuffleXor (· + ·))
    (args.laneDot (kvh * args.group * args.HD + g * args.HD) kvh p) 0 * args.ascale

end DecodeArgs

section Kernels

variable {F : Type u} [Field F] [LinearOrder F] (exp : F → F) (args : DecodeArgs F)

/-! ## The flat kernels -/

/-- The block of a head of `k_attn_decode_ring_T`, scores counted from the window's start. -/
def kAttnDecodeRingT (h : Nat) : List (Nat × F) :=
  let wl := args.ctx - args.s0
  let sc := fun j => args.score h (args.s0 + j)
  let mx := scanMax sc (sc 0) (List.range' 1 (wl - 1))
  let sum := (List.range wl).foldl (fun sum j => sum + exp (sc j - mx)) 0
  let inv := 1 / sum
  (List.range args.HD).map fun i =>
    (h * args.HD + i,
      (List.range wl).foldl
        (fun acc j => acc + exp (sc j - mx) * args.value (h / args.group) i (args.s0 + j)) 0 * inv)

/-- The block of a head of `k_attn_decode_win_dyn_T`, which knows no ring. -/
def kAttnDecodeWinDynT (h : Nat) : List (Nat × F) :=
  let linear := { args with Wring := 0 }
  let sc := linear.score h
  let mx := scanMax sc (sc args.s0) (List.range' (args.s0 + 1) (args.ctx - (args.s0 + 1)))
  let sum := args.window.foldl (fun sum s => sum + exp (sc s - mx)) 0
  let inv := 1 / sum
  (List.range args.HD).map fun i =>
    (h * args.HD + i,
      args.window.foldl (fun acc s => acc + exp (sc s - mx) * linear.value (h / args.group) i s) 0 *
        inv)

/-! ## The tiled kernels -/

/-- One tile of `n` positions from `t0`. -/
def decodeTile (score : Nat → F) (value : Nat → Nat → F) (t0 n : Nat) (run : TileRun F) :
    TileRun F :=
  let sc := fun j => score (t0 + j)
  let mTile := scanMax sc (sc 0) (List.range' 1 (n - 1))
  let lTile := (List.range n).foldl (fun sm j => sm + exp (sc j - mTile)) 0
  let mNew := max run.mRun mTile
  let aOld := exp (run.mRun - mNew)
  let aNew := exp (mTile - mNew)
  { mRun := mNew
    lRun := run.lRun * aOld + aNew * lTile
    acc := fun i =>
      run.acc i * aOld + aNew *
        (List.range n).foldl (fun sv j => sv + exp (sc j - mTile) * value i (t0 + j)) 0 }

/-- `-3.0e38f`. -/
def noScore : F := -((3 * 10 ^ 38 : Nat) : F)

/-- `m_run`, `l_run` and `acc` before the first tile. -/
def emptyRun : TileRun F where
  mRun := noScore
  lRun := 0
  acc := fun _ => 0

/-- The block of a head of a tiled kernel. -/
def tiledBlock (score : Nat → F) {TILE : Nat} (positive : 0 < TILE) (h : Nat) : List (Nat × F) :=
  let run := (strides positive args.ctx args.s0).foldl
    (fun run tile => decodeTile exp score (args.value (h / args.group)) tile.1 tile.2 run) emptyRun
  let inv := 1 / run.lRun
  (List.range args.HD).map fun i => (h * args.HD + i, run.acc i * inv)

def kAttnDecodeWinTiledT {TILE : Nat} (positive : 0 < TILE) (h : Nat) : List (Nat × F) :=
  tiledBlock exp args (args.score h) positive h

def kAttnDecodeWinTiledV2T {TILE : Nat} (positive : 0 < TILE) (h : Nat) : List (Nat × F) :=
  tiledBlock exp args (args.scoreDown h) positive h

/-! ## The split kernel -/

/-- The `mx` of a lane, of the positions it takes and of all others. -/
def laneMax (sc : Nat → F) (n : Nat) : Nat → F :=
  [16, 8, 4, 2, 1].foldl (shuffleXor max) fun lane =>
    (laneLoop n lane).foldl (fun mx j => max mx (sc j)) noScore

/-- One sub-tile of a chunk.  The lanes of a warp share out its positions, each with the maximum it
has itself; the first one rescales. -/
def splitTile (score : Nat → F) (value : Nat → Nat → F) (t0 n : Nat) (run : TileRun F) :
    TileRun F :=
  let sc := fun j => score (t0 + j)
  let mNew := fun lane => max run.mRun (laneMax sc n lane)
  let weight := fun j => exp (sc j - mNew (j % 32))
  let sm := [16, 8, 4, 2, 1].foldl (shuffleXor (· + ·))
    (fun lane => (laneLoop n lane).foldl (fun sm j => sm + weight j) 0) 0
  let al := exp (run.mRun - mNew 0)
  { mRun := mNew 0
    lRun := run.lRun * al + sm
    acc := fun i =>
      run.acc i * al + (List.range n).foldl (fun sv j => sv + weight j * value i (t0 + j)) 0 }

variable (NS : Nat)

/-- `CH`, the positions of a chunk. -/
def splitChunk : Nat := (args.ctx - args.s0 + NS - 1) / NS

/-- What a block has for a head of its group when its chunk is through. -/
def splitRun (kvh g split : Nat) : TileRun F :=
  let c0 := args.s0 + split * splitChunk args NS
  let c1 := min (c0 + splitChunk args NS) args.ctx
  (strides (by decide : 0 < 64) c1 c0).foldl
    (fun run tile => splitTile exp (args.scoreXor kvh g) (args.value kvh) tile.1 tile.2 run) emptyRun

/-! The partials in one buffer: `pm`, `pl` behind it, and `pacc` behind both. -/

def pmAt (h split : Nat) : Nat := h * NS + split

def plAt (nh h split : Nat) : Nat := nh * NS + (h * NS + split)

def paccAt (nh h split i : Nat) : Nat := 2 * (nh * NS) + ((h * NS + split) * args.HD + i)

/-- The elements of a head that the 256 threads of a block own, four each. -/
def splitElements : List Nat :=
  (List.range 256).flatMap fun tid =>
    ((List.range 4).map fun r => tid + r * 256).filter fun i => decide (i < args.HD)

/-- The block of a KV head and a chunk. -/
def kAttnDecodeSplitT (nh kvh split : Nat) : List (Nat × F) :=
  (List.range args.group).flatMap fun g =>
    let h := kvh * args.group + g
    let run := splitRun exp args NS kvh g split
    (pmAt NS h split, run.mRun) :: (plAt NS nh h split, run.lRun) ::
      (splitElements args).map fun i => (paccAt args NS nh h split i, run.acc i)

/-- The block of a head of `k_attn_split_combine`. -/
def kAttnSplitCombine (nh : Nat) (buf : Nat → F) (h : Nat) : List (Nat × F) :=
  let m := fun s => buf (pmAt NS h s)
  let M := (List.range NS).foldl (fun M s => max M (m s)) noScore
  let L := (List.range NS).foldl (fun L s => L + exp (m s - M) * buf (plAt NS nh h s)) 0
  let inv := 1 / L
  (List.range args.HD).map fun i =>
    (h * args.HD + i,
      (List.range NS).foldl (fun o s => o + exp (m s - M) * buf (paccAt args NS nh h s i)) 0 * inv)

/-! ## The launch -/

/-- The environment of `g4_attn_launch` with the byte-exact kernels off: the tile width, the split
and the v2 switch, and the floats of the scratch of the split kernel, where it was allocated. -/
structure AttnMode where
  tile : Nat
  split : Nat
  v2 : Nat
  scratch : Option Nat

/-- The chunks of `g4_attn_split_launch`. -/
def splitCount (nh grp : Nat) : Nat :=
  let nkvh := nh / grp
  max (min (if 0 < nkvh then (64 + nkvh - 1) / nkvh else 1) 32) 1

/-- `g4_split_shm`. -/
def g4SplitShm (group hd : Nat) : Nat := (group * hd + group * 64) * 4 + 64 * 4

/-- `g4_attn_split_launch`: what the second kernel writes, from the memory that the writes of the
first leave; nothing where the shape or the scratch is declined. -/
def g4AttnSplitLaunch (mode : AttnMode) (settle : List (Nat × F) → Nat → F) (nh : Nat) :
    Option (List (Nat × F)) :=
  let NS := splitCount nh args.group
  let fits := mode.scratch.any fun cap => decide (nh * NS * (args.HD + 2) ≤ cap)
  if args.group < 1 ∨ 8 < args.group ∨ nh % args.group ≠ 0 ∨ 4 * 256 < args.HD ∨
      48 * 1024 < g4SplitShm args.group args.HD ∨ !fits then
    none
  else
    let buf := settle ((List.range (nh / args.group)).flatMap fun kvh =>
      (List.range NS).flatMap fun split => kAttnDecodeSplitT exp args NS nh kvh split)
    some ((List.range nh).flatMap (kAttnSplitCombine exp args NS nh buf))

/-- The writes to `ao` of `g4_attn_launch`, of the served kernel where a second one runs beside it. -/
def g4AttnLaunch (mode : AttnMode) (settle : List (Nat × F) → Nat → F) (nh : Nat) :
    List (Nat × F) :=
  if armed : 0 < mode.tile then
    let tiled :=
      (List.range nh).flatMap
        (if mode.v2 = 1 then kAttnDecodeWinTiledV2T exp args armed
        else kAttnDecodeWinTiledT exp args armed)
    if mode.split = 1 then (g4AttnSplitLaunch exp args mode settle nh).getD tiled else tiled
  else if 0 < args.Wring then (List.range nh).flatMap (kAttnDecodeRingT exp args)
  else (List.range nh).flatMap (kAttnDecodeWinDynT exp args)

end Kernels

/-! ## What attention is -/

section Attend

variable {F : Type u} [Field F] (exp : F → F) (args : DecodeArgs F)

/-- The values of the window, weighed by the softmax of their scores. -/
def attend (h i : Nat) : F :=
  weighed exp (args.score h) (args.value (h / args.group) i) 0 args.window *
    (1 / weighed exp (args.score h) 1 0 args.window)

def attendHead (h : Nat) : List (Nat × F) :=
  (List.range args.HD).map fun i => (h * args.HD + i, attend exp args h i)

end Attend

/-! ## Scores -/

section Scores

variable {F : Type u} [Field F] {args : DecodeArgs F}

theorem foldl_add (f : Nat → F) (indices : List Nat) :
    indices.foldl (fun acc i => acc + f i) 0 = (indices.map f).sum := by
  rw [List.sum_eq_foldl, List.foldl_map]

/-- The lanes of a warp take the same dot product. -/
theorem laneDot_sum (query kvh p : Nat) :
    meet (· + ·) (halves 5) (args.laneDot query kvh p) 0 =
      (List.range args.HD).foldl (fun acc i => acc + args.product query kvh p i) 0 := by
  have lanes : args.laneDot query kvh p =
      fun lane => ((laneLoop args.HD lane).map (args.product query kvh p)).sum :=
    funext fun lane => foldl_add _ _
  rw [lanes, meet_laneLoop, foldl_add]

theorem scoreDown_eq (h : Nat) : args.scoreDown h = args.score h := by
  funext p
  have reduced := @foldl_shuffleDown F (· + ·)
    (args.laneDot (h * args.HD) (h / args.group) p) 0 (halves 5) (by decide)
  rw [laneDot_sum] at reduced
  rw [DecodeArgs.scoreDown, DecodeArgs.score, ← reduced]
  rfl

omit [Field F] in
theorem div_group {kvh g : Nat} (inside : g < args.group) :
    (kvh * args.group + g) / args.group = kvh :=
  (row_div inside).1

theorem scoreXor_eq {kvh g : Nat} (inside : g < args.group) :
    args.scoreXor kvh g = args.score (kvh * args.group + g) := by
  funext p
  have reduced := @foldl_shuffleXor_zero F (· + ·)
    (args.laneDot (kvh * args.group * args.HD + g * args.HD) kvh p) 5
  rw [laneDot_sum] at reduced
  rw [DecodeArgs.scoreXor, DecodeArgs.score, div_group inside, Nat.add_mul, ← reduced]
  rfl

end Scores

/-! ## Flat and tiled kernels -/

section Blocks

variable {F : Type u} [Field F] {exp : F → F} {args : DecodeArgs F}

theorem weighed_congr {score other value channel : Nat → F} {m : F} {indices : List Nat}
    (scores : ∀ p ∈ indices, score p = other p) (values : ∀ p ∈ indices, value p = channel p) :
    weighed exp score value m indices = weighed exp other channel m indices := by
  rw [weighed, weighed]
  congr 1
  apply List.map_congr_left
  intro p inside
  rw [scores p inside, values p inside]

theorem weighed_window (score value : Nat → F) (m : F) :
    weighed exp (fun j => score (args.s0 + j)) (fun j => value (args.s0 + j)) m
        (List.range (args.ctx - args.s0)) =
      weighed exp score value m args.window := weighed_tile score value m _ _

/-- A run that has the sums of these positions. -/
def Seen (exp : F → F) (score : Nat → F) (value : Nat → Nat → F) (seen : List Nat)
    (run : TileRun F) : Prop :=
  Running exp score value seen run.mRun run.lRun run.acc

variable {score : Nat → F} {value : Nat → Nat → F} {seen : List Nat} {run : TileRun F}

theorem seen_empty : Seen exp score value [] emptyRun := running_nil

/-- Steps that each add a tile add all of them. -/
theorem Seen.tiles (walked : Seen exp score value seen run)
    {step : TileRun F → Nat × Nat → TileRun F}
    (adds : ∀ seen run tile, Seen exp score value seen run →
      Seen exp score value (seen ++ List.range' tile.1 tile.2) (step run tile))
    (tiles : List (Nat × Nat)) :
    Seen exp score value (seen ++ tiles.flatMap fun tile => List.range' tile.1 tile.2)
      (tiles.foldl step run) := by
  induction tiles generalizing seen run with
  | nil => rwa [List.flatMap_nil, List.append_nil]
  | cons tile rest inductionHypothesis =>
      rw [List.flatMap_cons, ← List.append_assoc]
      exact inductionHypothesis (adds seen run tile walked)

variable [LinearOrder F]

/-- Sums over the window against any reference give the attention. -/
theorem attend_eq (exponential : Exponential exp) (h i : Nat) (m : F) :
    weighed exp (args.score h) (args.value (h / args.group) i) m args.window *
        (1 / weighed exp (args.score h) 1 m args.window) = attend exp args h i :=
  exponential.normalized args.window

theorem kAttnDecodeRingT_eq (exponential : Exponential exp) (h : Nat) :
    kAttnDecodeRingT exp args h = attendHead exp args h := by
  unfold kAttnDecodeRingT attendHead
  simp only [foldl_exp, foldl_exp_mul]
  apply List.map_congr_left
  intro i _
  rw [← attend_eq exponential h i]
  congr 2
  · exact weighed_window _ _ _
  · rw [← weighed_window]
    rfl

theorem kAttnDecodeWinDynT_eq (exponential : Exponential exp) (linear : args.Wring = 0) (h : Nat) :
    kAttnDecodeWinDynT exp args h = attendHead exp args h := by
  have same : { args with Wring := 0 } = args := by
    cases args
    cases linear
    rfl
  unfold kAttnDecodeWinDynT attendHead
  simp only [foldl_exp, foldl_exp_mul, same]
  apply List.map_congr_left
  intro i _
  rw [attend_eq exponential h i]

theorem Seen.tile (exponential : Exponential exp) (walked : Seen exp score value seen run)
    (t0 n : Nat) :
    Seen exp score value (seen ++ List.range' t0 n) (decodeTile exp score value t0 n run) := by
  have parts : ∀ channel : Nat → F, ∀ m : F,
      weighed exp (fun j => score (t0 + j)) (fun j => channel (t0 + j)) m (List.range n) =
        weighed exp score channel m (List.range' t0 n) :=
    fun channel m => weighed_tile score channel m t0 n
  have absorbed := fun tile next => walked.absorb exponential (List.range' t0 n) tile next
  unfold Seen decodeTile
  simp only [foldl_exp, foldl_exp_mul]
  convert absorbed _ _ using 2
  · rw [← parts 1]
    rfl
  · rw [← parts (value _)]

theorem tiledBlock_eq (exponential : Exponential exp) {TILE : Nat} (positive : 0 < TILE) (h : Nat) :
    tiledBlock exp args (args.score h) positive h = attendHead exp args h := by
  have empty : Seen exp (args.score h) (args.value (h / args.group)) [] emptyRun := seen_empty
  have walked := empty.tiles (fun _ _ tile walked => walked.tile exponential tile.1 tile.2)
    (strides positive args.ctx args.s0)
  rw [List.nil_append, strides_flatMap] at walked
  unfold tiledBlock attendHead
  apply List.map_congr_left
  intro i _
  rw [walked.denominator_eq, walked.sums_eq i, ← attend_eq exponential h i]
  rfl

end Blocks

/-! ## The split kernel and its combination -/

section Split

variable {F : Type u} [Field F] [LinearOrder F] {exp : F → F} {args : DecodeArgs F}
variable {score : Nat → F} {value : Nat → Nat → F} {seen : List Nat} {run : TileRun F}

/-- Every lane has the maximum of the first, so the weights of a sub-tile have one reference. -/
theorem splitTile_eq (t0 n : Nat) :
    ∃ mNew, splitTile exp score value t0 n run =
      { mRun := mNew
        lRun := run.lRun * exp (run.mRun - mNew) +
          weighed exp score 1 mNew (List.range' t0 n)
        acc := fun i => run.acc i * exp (run.mRun - mNew) +
          weighed exp score (value i) mNew (List.range' t0 n) } := by
  have offsets : halves 5 = [16, 8, 4, 2, 1] := rfl
  have maxima : ∀ j, laneMax (fun j => score (t0 + j)) n (j % 32) =
      laneMax (fun j => score (t0 + j)) n 0 :=
    fun j => foldl_shuffleXor_const max_comm 5 (j % 32) (Nat.mod_lt j (by decide))
  refine ⟨max run.mRun (laneMax (fun j => score (t0 + j)) n 0), ?_⟩
  unfold splitTile
  simp only [maxima]
  congr 1
  · congr 1
    simp only [foldl_add]
    rw [← offsets, foldl_shuffleXor_zero, meet_laneLoop, ← weighed_tile, weighed]
    simp only [Pi.one_apply, mul_one]
  · funext i
    rw [foldl_exp_mul, weighed_tile]

theorem Seen.splitTile (exponential : Exponential exp) (walked : Seen exp score value seen run)
    (t0 n : Nat) :
    Seen exp score value (seen ++ List.range' t0 n) (splitTile exp score value t0 n run) := by
  obtain ⟨mNew, tile⟩ := @splitTile_eq F _ _ exp score value run t0 n
  rw [tile]
  exact walked.join exponential (List.range' t0 n) mNew

variable {NS : Nat}

/-- The positions of a chunk. -/
def chunkOf (args : DecodeArgs F) (NS split : Nat) : List Nat :=
  let c0 := args.s0 + split * splitChunk args NS
  List.range' c0 (min (c0 + splitChunk args NS) args.ctx - c0)

theorem splitRun_seen (exponential : Exponential exp) {kvh g : Nat} (inside : g < args.group)
    (split : Nat) :
    Seen exp (args.score (kvh * args.group + g))
      (args.value ((kvh * args.group + g) / args.group)) (chunkOf args NS split)
      (splitRun exp args NS kvh g split) := by
  have empty : Seen exp (args.scoreXor kvh g) (args.value kvh) [] emptyRun := seen_empty
  have walked := empty.tiles (fun _ _ tile walked => walked.splitTile exponential tile.1 tile.2)
    (strides (by decide : 0 < 64)
      (min (args.s0 + split * splitChunk args NS + splitChunk args NS) args.ctx)
      (args.s0 + split * splitChunk args NS))
  rw [List.nil_append, strides_flatMap, scoreXor_eq inside] at walked
  unfold splitRun
  rw [div_group inside, scoreXor_eq inside]
  exact walked

theorem chunks_flatMap {CH base last : Nat} (inside : base ≤ last) (count : Nat) :
    ((List.range count).flatMap fun split =>
        List.range' (base + split * CH) (min (base + split * CH + CH) last - (base + split * CH))) =
      List.range' base (min (count * CH) (last - base)) := by
  induction count with
  | zero => rw [Nat.zero_mul, Nat.zero_min]; rfl
  | succ count inductionHypothesis =>
      rw [List.range_succ, List.flatMap_append, inductionHypothesis, List.flatMap_singleton,
        Nat.succ_mul]
      by_cases within : base + count * CH ≤ last
      · rw [Nat.min_eq_left (by omega), List.range'_append_1]
        congr 1
        omega
      · have before : min (count * CH) (last - base) = last - base := by omega
        have after : min (count * CH + CH) (last - base) = last - base := by omega
        have rest : min (base + count * CH + CH) last - (base + count * CH) = 0 := by omega
        rw [before, after, rest, List.range'_zero, List.append_nil]

omit [Field F] [LinearOrder F] in
/-- The chunks are the window, in order. -/
theorem chunkOf_flatMap (args : DecodeArgs F) (positive : 0 < NS) :
    (List.range NS).flatMap (chunkOf args NS) = args.window := by
  have start := args.s0_le
  have whole : args.ctx - args.s0 ≤ NS * splitChunk args NS := by
    rw [splitChunk]
    have rounded := Nat.lt_mul_div_succ (args.ctx - args.s0 + NS - 1) positive
    rw [Nat.mul_add, Nat.mul_one] at rounded
    omega
  unfold chunkOf
  rw [chunks_flatMap start, Nat.min_eq_right whole]
  rfl

/-! ### The partials -/

section Partials

variable (exp args) (NS nh : Nat)

/-- What the blocks write. -/
def splitWrites : List (Nat × F) :=
  (List.range (nh / args.group)).flatMap fun kvh =>
    (List.range NS).flatMap fun split => kAttnDecodeSplitT exp args NS nh kvh split

/-- The partial of a head and a chunk. -/
def partialOf (h split : Nat) : TileRun F :=
  splitRun exp args NS (h / args.group) (h % args.group) split

/-- What belongs at an address of the buffer. -/
def partialAt (address : Nat) : F :=
  if address < nh * NS then (partialOf exp args NS (address / NS) (address % NS)).mRun
  else if address < 2 * (nh * NS) then
    let index := address - nh * NS
    (partialOf exp args NS (index / NS) (index % NS)).lRun
  else
    let element := address - 2 * (nh * NS)
    let index := element / args.HD
    (partialOf exp args NS (index / NS) (index % NS)).acc (element % args.HD)

end Partials

variable {nh : Nat}

theorem partialAt_pm {h split : Nat} (inHead : h < nh) (inSplit : split < NS) :
    partialAt exp args NS nh (pmAt NS h split) = (partialOf exp args NS h split).mRun := by
  rw [partialAt, pmAt, if_pos (row_lt inHead inSplit), (row_div inSplit).1, (row_div inSplit).2]

theorem partialAt_pl {h split : Nat} (inHead : h < nh) (inSplit : split < NS) :
    partialAt exp args NS nh (plAt NS nh h split) = (partialOf exp args NS h split).lRun := by
  have inside := row_lt inHead inSplit
  rw [partialAt, plAt, if_neg (by omega), if_pos (by omega)]
  simp only [Nat.add_sub_cancel_left]
  rw [(row_div inSplit).1, (row_div inSplit).2]

theorem partialAt_pacc {h split i : Nat} (inSplit : split < NS) (inRow : i < args.HD) :
    partialAt exp args NS nh (paccAt args NS nh h split i) =
      (partialOf exp args NS h split).acc i := by
  rw [partialAt, paccAt, if_neg (by omega), if_neg (by omega)]
  simp only [Nat.add_sub_cancel_left]
  rw [(row_div inRow).1, (row_div inRow).2, (row_div inSplit).1, (row_div inSplit).2]

omit [Field F] [LinearOrder F] in
theorem mem_splitElements (small : args.HD ≤ 4 * 256) {i : Nat} :
    i ∈ splitElements args ↔ i < args.HD := by
  rw [splitElements, List.mem_flatMap]
  constructor
  · rintro ⟨tid, _, member⟩
    exact of_decide_eq_true (List.mem_filter.mp member).2
  · intro below
    refine ⟨i % 256, List.mem_range.mpr (Nat.mod_lt i (by decide)), ?_⟩
    refine List.mem_filter.mpr ⟨List.mem_map.mpr ⟨i / 256, ?_, ?_⟩, decide_eq_true below⟩
    · exact List.mem_range.mpr (by omega)
    · omega

variable (exp) in
/-- A head of a group that divides the heads. -/
theorem partialOf_block {kvh g : Nat} (inside : g < args.group) (split : Nat) :
    partialOf exp args NS (kvh * args.group + g) split = splitRun exp args NS kvh g split := by
  rw [partialOf, (row_div inside).1, (row_div inside).2]

/-- Every write puts what belongs at its address. -/
theorem splitWrites_eq (whole : nh % args.group = 0) (small : args.HD ≤ 4 * 256) {address : Nat}
    {written : F} (member : (address, written) ∈ splitWrites exp args NS nh) :
    written = partialAt exp args NS nh address := by
  simp only [splitWrites, kAttnDecodeSplitT, List.mem_flatMap, List.mem_range] at member
  obtain ⟨kvh, inKvh, split, inSplit, g, inGroup, entry⟩ := member
  have inHead : kvh * args.group + g < nh := by
    have heads := @row_lt args.group kvh g (nh / args.group) inKvh inGroup
    rwa [Nat.div_mul_cancel (Nat.dvd_of_mod_eq_zero whole)] at heads
  simp only [List.mem_cons, List.mem_map, Prod.mk.injEq] at entry
  rcases entry with ⟨rfl, rfl⟩ | ⟨rfl, rfl⟩ | ⟨i, inRow, rfl, rfl⟩
  · rw [partialAt_pm inHead inSplit, partialOf_block exp inGroup]
  · rw [partialAt_pl inHead inSplit, partialOf_block exp inGroup]
  · rw [partialAt_pacc inSplit ((mem_splitElements small).mp inRow), partialOf_block exp inGroup]

/-- What is written is what the buffer holds once all writes have landed, in whatever order. -/
theorem splitWrites_landed (whole : nh % args.group = 0) (small : args.HD ≤ 4 * 256)
    {order : List (Nat × F)} (landed : order.Perm (splitWrites exp args NS nh)) (memory : Nat → F)
    {address : Nat} (written : address ∈ (splitWrites exp args NS nh).map Prod.fst) :
    scatter memory order address = partialAt exp args NS nh address := by
  obtain ⟨⟨place, there⟩, member, rfl⟩ := List.mem_map.mp written
  refine scatter_of_perm landed ((splitWrites_eq whole small member) ▸ member) ?_
  intro other found
  exact splitWrites_eq whole small found

/-- The writes of the block that has the partial of a head and a chunk. -/
theorem mem_splitWrites (whole : nh % args.group = 0) (grouped : 0 < args.group) {h split : Nat}
    (inHead : h < nh) (inSplit : split < NS) {write : Nat × F}
    (member : write = (pmAt NS h split, (partialOf exp args NS h split).mRun) ∨
      write = (plAt NS nh h split, (partialOf exp args NS h split).lRun) ∨
      write ∈ (splitElements args).map fun i =>
        (paccAt args NS nh h split i, (partialOf exp args NS h split).acc i)) :
    write ∈ splitWrites exp args NS nh := by
  have parts : h / args.group * args.group + h % args.group = h := Nat.div_add_mod' h args.group
  have inKvh : h / args.group < nh / args.group :=
    Nat.div_lt_div_of_lt_of_dvd (Nat.dvd_of_mod_eq_zero whole) inHead
  simp only [splitWrites, kAttnDecodeSplitT, List.mem_flatMap, List.mem_range]
  refine ⟨h / args.group, inKvh, split, inSplit, h % args.group, Nat.mod_lt h grouped, ?_⟩
  rw [parts, List.mem_cons, List.mem_cons]
  exact member

/-- Putting the partials of a head together gives its attention. -/
theorem kAttnSplitCombine_eq (exponential : Exponential exp) (grouped : 0 < args.group)
    (whole : nh % args.group = 0) (small : args.HD ≤ 4 * 256) (positive : 0 < NS)
    {buf : Nat → F} (holds : ∀ address ∈ (splitWrites exp args NS nh).map Prod.fst,
      buf address = partialAt exp args NS nh address) {h : Nat} (inHead : h < nh) :
    kAttnSplitCombine exp args NS nh buf h = attendHead exp args h := by
  have parts : h / args.group * args.group + h % args.group = h := Nat.div_add_mod' h args.group
  have pm : ∀ split ∈ List.range NS,
      buf (pmAt NS h split) = (partialOf exp args NS h split).mRun := by
    intro split member
    have inSplit := List.mem_range.mp member
    rw [holds _ (List.mem_map.mpr ⟨_, mem_splitWrites whole grouped inHead inSplit
      (Or.inl rfl), rfl⟩), partialAt_pm inHead inSplit]
  have pl : ∀ split ∈ List.range NS,
      buf (plAt NS nh h split) = (partialOf exp args NS h split).lRun := by
    intro split member
    have inSplit := List.mem_range.mp member
    rw [holds _ (List.mem_map.mpr ⟨_, mem_splitWrites whole grouped inHead inSplit
      (Or.inr (Or.inl rfl)), rfl⟩), partialAt_pl inHead inSplit]
  have pacc : ∀ i < args.HD, ∀ split ∈ List.range NS,
      buf (paccAt args NS nh h split i) = (partialOf exp args NS h split).acc i := by
    intro i inRow split member
    have inSplit := List.mem_range.mp member
    have own := List.mem_map_of_mem
      (f := fun i => (paccAt args NS nh h split i, (partialOf exp args NS h split).acc i))
      ((mem_splitElements small).mpr inRow)
    rw [holds _ (List.mem_map.mpr ⟨_, mem_splitWrites whole grouped inHead inSplit
      (Or.inr (Or.inr own)), rfl⟩), partialAt_pacc inSplit inRow]
  have seen : ∀ split, Seen exp (args.score h) (args.value (h / args.group))
      (chunkOf args NS split) (partialOf exp args NS h split) := by
    intro split
    have run := @splitRun_seen F _ _ exp args NS exponential (h / args.group) (h % args.group)
      (Nat.mod_lt h grouped) split
    rwa [parts] at run
  -- Any reference puts the partials together; the kernel takes the largest.
  have merged : ∀ (M : F) (channel : Nat → F) (part : Nat → F),
      (∀ split ∈ List.range NS, part split = weighed exp (args.score h) channel
        (partialOf exp args NS h split).mRun (chunkOf args NS split)) →
      (List.range NS).foldl (fun total split => total + exp (buf (pmAt NS h split) - M) * part split)
          0 = weighed exp (args.score h) channel M args.window := by
    intro M channel part sums
    rw [foldl_add, ← chunkOf_flatMap args positive, ← exponential.merge
      (fun split => (partialOf exp args NS h split).mRun) (chunkOf args NS)]
    congr 1
    apply List.map_congr_left
    intro split member
    rw [pm split member, sums split member]
  unfold kAttnSplitCombine attendHead
  apply List.map_congr_left
  intro i inRow
  have denominator := merged
    ((List.range NS).foldl (fun M s => max M (buf (pmAt NS h s))) noScore) 1 _
    fun split member => (pl split member).trans (seen split).denominator_eq
  have numerator := merged
    ((List.range NS).foldl (fun M s => max M (buf (pmAt NS h s))) noScore)
    (args.value (h / args.group) i) _ fun split member =>
      (pacc i (List.mem_range.mp inRow) split member).trans ((seen split).sums_eq i)
  rw [denominator, numerator, attend_eq exponential]

end Split

/-! ## Whatever the launch picks -/

section Launch

variable {F : Type u} [Field F] [LinearOrder F]

theorem splitCount_pos (nh grp : Nat) : 0 < splitCount nh grp := by
  rw [splitCount]
  omega

theorem g4AttnSplitLaunch_eq {exp : F → F} {args : DecodeArgs F} (exponential : Exponential exp)
    {mode : AttnMode} {settle : List (Nat × F) → Nat → F}
    (settles : ∀ writes, ∃ memory order, order.Perm writes ∧ settle writes = scatter memory order)
    {nh : Nat} {out : List (Nat × F)}
    (launched : g4AttnSplitLaunch exp args mode settle nh = some out) :
    out = (List.range nh).flatMap (attendHead exp args) := by
  unfold g4AttnSplitLaunch at launched
  dsimp only at launched
  split at launched
  next => cases launched
  next accepted =>
    simp only [not_or, Nat.not_lt, ne_eq, Decidable.not_not] at accepted
    obtain ⟨grouped, _, whole, small, _⟩ := accepted
    cases launched
    obtain ⟨memory, order, landed, settled⟩ :=
      settles (splitWrites exp args (splitCount nh args.group) nh)
    apply List.flatMap_congr
    intro h member
    refine kAttnSplitCombine_eq exponential grouped whole small (splitCount_pos nh args.group) ?_
      (List.mem_range.mp member)
    intro address written
    rw [← splitWrites, settled]
    exact splitWrites_landed whole small landed memory written

/-- Every kernel the launch can pick leaves the attention of the window, whatever the tile width,
the number of chunks and the order in which the partials land. -/
theorem g4AttnLaunch_eq (exp : F → F) (positive : ∀ a, 0 < exp a)
    (additive : ∀ a b, exp (a + b) = exp a * exp b) (args : DecodeArgs F) (mode : AttnMode)
    (settle : List (Nat × F) → Nat → F)
    (settles : ∀ writes, ∃ memory order, order.Perm writes ∧ settle writes = scatter memory order)
    (nh : Nat) :
    g4AttnLaunch exp args mode settle nh = (List.range nh).flatMap (attendHead exp args) := by
  have exponential : Exponential exp := ⟨positive, additive⟩
  unfold g4AttnLaunch
  split
  next armed =>
    have tiled : (List.range nh).flatMap
        (if mode.v2 = 1 then kAttnDecodeWinTiledV2T exp args armed
        else kAttnDecodeWinTiledT exp args armed) =
          (List.range nh).flatMap (attendHead exp args) := by
      apply List.flatMap_congr
      intro h _
      split
      next =>
        rw [kAttnDecodeWinTiledV2T, scoreDown_eq]
        exact tiledBlock_eq exponential armed h
      next => exact tiledBlock_eq exponential armed h
    dsimp only
    split
    next =>
      cases launched : g4AttnSplitLaunch exp args mode settle nh with
      | none => exact tiled
      | some out => exact g4AttnSplitLaunch_eq exponential settles launched
    next => exact tiled
  next =>
    split
    next => exact List.flatMap_congr fun h _ => kAttnDecodeRingT_eq exponential h
    next linear =>
      exact List.flatMap_congr fun h _ => kAttnDecodeWinDynT_eq exponential (by omega) h

/-- One head of two elements over five positions, in three chunks of two. -/
theorem g4AttnLaunch_eq_chunks :
    g4AttnLaunch Real.exp ⟨fun _ => 1, fun a => a, fun a => a, 4, 2, 2, 1, 1, -1, 0⟩
        ⟨32, 1, 0, some 256⟩ (scatter 0) 1 =
      (List.range 1).flatMap
        (attendHead Real.exp ⟨fun _ => 1, fun a => a, fun a => a, 4, 2, 2, 1, 1, -1, 0⟩) :=
  g4AttnLaunch_eq Real.exp Real.exp_pos Real.exp_add _ _ _
    (fun writes => ⟨0, writes, List.Perm.refl writes, rfl⟩) 1

end Launch

/-! ## Rings -/

section Rings

variable {F : Type u}

/-- `k_kv_store_T` and `k_kv_rowwrite_T`: the row of a step into its slot. -/
def kvStore (KVD slot : Nat) (row : Nat → F) (cache : Nat → F) : Nat → F :=
  fun a => if slot * KVD ≤ a ∧ a < slot * KVD + KVD then row (a - slot * KVD) else cache a

/-- The cache after a number of steps from position 0 on. -/
def kvSteps (Wring KVD : Nat) (rows : Nat → Nat → F) (cache : Nat → F) : Nat → Nat → F
  | 0 => cache
  | p + 1 =>
      kvStore KVD (if 0 < Wring then p % Wring else p) (rows p) (kvSteps Wring KVD rows cache p)

variable {Wring KVD : Nat} {rows : Nat → Nat → F} {cache : Nat → F}

theorem kvStore_at {slot c : Nat} {row : Nat → F} (inRow : c < KVD) :
    kvStore KVD slot row cache (slot * KVD + c) = row c := by
  rw [kvStore, if_pos ⟨Nat.le_add_right _ _, by omega⟩, Nat.add_sub_cancel_left]

theorem kvStore_other {slot other c : Nat} {row : Nat → F} (inRow : c < KVD) (apart : slot ≠ other) :
    kvStore KVD slot row cache (other * KVD + c) = cache (other * KVD + c) := by
  rw [kvStore, if_neg]
  rintro ⟨above, below⟩
  rcases Nat.lt_or_gt_of_ne apart with before | behind
  · have next := Nat.mul_le_mul_right KVD (Nat.succ_le_of_lt before)
    rw [Nat.succ_mul] at next
    omega
  · have next := Nat.mul_le_mul_right KVD (Nat.succ_le_of_lt behind)
    rw [Nat.succ_mul] at next
    omega

/-- A ring holds as many of the last rows as it has slots; a linear cache holds all. -/
theorem kvSteps_at {n p c : Nat} (inRow : c < KVD) (written : p < n)
    (recent : 0 < Wring → n ≤ p + Wring) :
    kvSteps Wring KVD rows cache n ((if 0 < Wring then p % Wring else p) * KVD + c) = rows p c := by
  induction n with
  | zero => exact absurd written (Nat.not_lt_zero p)
  | succ n inductionHypothesis =>
      rw [kvSteps]
      by_cases last : p = n
      · rw [last]
        exact kvStore_at inRow
      · rw [kvStore_other inRow]
        · exact inductionHypothesis (by omega) fun ringed => by have := recent ringed; omega
        · split
          next ringed =>
            intro same
            have near := recent ringed
            have divides := (Nat.modEq_iff_dvd' (by omega : p ≤ n)).mp same.symm
            have far := Nat.le_of_dvd (by omega) divides
            omega
          next => exact fun same => last same.symm

/-- The arguments of the step behind so many others, its row stored. -/
def stepArgs (base : DecodeArgs F) (Wring : Nat) (keys values : Nat → Nat → F) (K V : Nat → F) :
    DecodeArgs F :=
  { base with
    Wring
    K := kvSteps Wring base.KVD keys K (base.dpos + 1)
    V := kvSteps Wring base.KVD values V (base.dpos + 1) }

/-- The positions of a window are the last ones of the steps. -/
theorem near_of_window {base : DecodeArgs F} {p : Nat} (inside : p ∈ base.window) :
    p < base.dpos + 1 ∧ (0 ≤ base.win → base.dpos + 1 ≤ p + base.win) := by
  obtain ⟨above, below⟩ := List.mem_range'_1.mp inside
  have start := base.s0_le
  refine ⟨by rw [DecodeArgs.ctx] at below start; omega, ?_⟩
  intro windowed
  rw [DecodeArgs.s0, attnStart] at above
  split at above <;> omega

variable {base : DecodeArgs F} {keys values : Nat → Nat → F} {K V : Nat → F}

/-- What the kernels read of a position is the row of its step. -/
theorem stepArgs_reads (recent : 0 < Wring → 0 ≤ base.win ∧ base.win ≤ Wring) {p kvh i : Nat}
    (inside : p ∈ base.window) (inRow : kvh * base.HD + i < base.KVD) :
    (stepArgs base Wring keys values K V).K
        ((stepArgs base Wring keys values K V).rowAt kvh p + i) = keys p (kvh * base.HD + i) ∧
      (stepArgs base Wring keys values K V).value kvh i p = values p (kvh * base.HD + i) := by
  obtain ⟨written, near⟩ := near_of_window inside
  have last : 0 < Wring → base.dpos + 1 ≤ p + Wring := by
    intro ringed
    obtain ⟨windowed, holds⟩ := recent ringed
    have reach := near windowed
    omega
  rw [DecodeArgs.value, DecodeArgs.rowAt, Nat.add_assoc]
  exact ⟨kvSteps_at inRow written last, kvSteps_at inRow written last⟩

variable [Field F]

/-- The attention of a step, from the rows alone. -/
theorem attend_stepArgs (exp : F → F)
    (recent : 0 < Wring → 0 ≤ base.win ∧ base.win ≤ Wring) {h i : Nat}
    (wide : (h / base.group + 1) * base.HD ≤ base.KVD) (inRow : i < base.HD) :
    attend exp (stepArgs base Wring keys values K V) h i =
      weighed exp
          (fun p => ((List.range base.HD).map fun i =>
            base.q (h * base.HD + i) * keys p (h / base.group * base.HD + i)).sum * base.ascale)
          (fun p => values p (h / base.group * base.HD + i)) 0 base.window *
        (1 / weighed exp
          (fun p => ((List.range base.HD).map fun i =>
            base.q (h * base.HD + i) * keys p (h / base.group * base.HD + i)).sum * base.ascale)
          1 0 base.window) := by
  rw [Nat.succ_mul] at wide
  have scores : ∀ p ∈ base.window,
      (stepArgs base Wring keys values K V).score h p =
        ((List.range base.HD).map fun i =>
          base.q (h * base.HD + i) * keys p (h / base.group * base.HD + i)).sum * base.ascale := by
    intro p inside
    rw [DecodeArgs.score, foldl_add]
    refine congrArg (· * base.ascale) (congrArg List.sum (List.map_congr_left ?_))
    intro j member
    have inHead : j < base.HD := List.mem_range.mp member
    have reads := @stepArgs_reads F Wring base keys values K V recent p (h / base.group) j inside
      (by omega)
    exact congrArg _ reads.1
  have channel := fun p inside =>
    (@stepArgs_reads F Wring base keys values K V recent p (h / base.group) i inside (by omega)).2
  exact congrArg₂ (fun sum total => sum * (1 / total)) (weighed_congr scores channel)
    (weighed_congr scores fun _ _ => rfl)

variable [LinearOrder F]

/-- Attention over a ring is that over a linear cache: after any number of steps, whatever the two
caches held before, as long as the ring holds the window. -/
theorem g4AttnLaunch_ring (exp : F → F) (positive : ∀ a, 0 < exp a)
    (additive : ∀ a b, exp (a + b) = exp a * exp b) (base : DecodeArgs F) (Wring : Nat)
    (keys values : Nat → Nat → F) (K V K' V' : Nat → F) (mode mode' : AttnMode)
    (settle settle' : List (Nat × F) → Nat → F)
    (settles : ∀ writes, ∃ memory order, order.Perm writes ∧ settle writes = scatter memory order)
    (settles' : ∀ writes, ∃ memory order, order.Perm writes ∧ settle' writes = scatter memory order)
    (nh : Nat) (wide : ∀ h < nh, (h / base.group + 1) * base.HD ≤ base.KVD)
    (windowed : 0 ≤ base.win) (holds : base.win ≤ Wring) :
    g4AttnLaunch exp (stepArgs base Wring keys values K V) mode settle nh =
      g4AttnLaunch exp (stepArgs base 0 keys values K' V') mode' settle' nh := by
  rw [g4AttnLaunch_eq exp positive additive _ _ _ settles,
    g4AttnLaunch_eq exp positive additive _ _ _ settles']
  apply List.flatMap_congr
  intro h member
  have room := wide h (List.mem_range.mp member)
  apply List.map_congr_left
  intro i inRow
  have inHead : i < base.HD := List.mem_range.mp inRow
  rw [attend_stepArgs exp (fun _ => ⟨windowed, holds⟩) room inHead,
    attend_stepArgs exp (fun ringed => absurd ringed (Nat.lt_irrefl 0)) room inHead]
  rfl

/-- Six steps through a ring of three slots and a window of two. -/
theorem g4AttnLaunch_ring_six :
    g4AttnLaunch Real.exp
        (stepArgs ⟨fun _ => 1, fun _ => 0, fun _ => 0, 5, 2, 2, 1, 1, 2, 0⟩ 3
          (fun p c => p + c) (fun p c => p + c) (fun _ => 7) fun _ => 7)
        ⟨32, 1, 0, some 256⟩ (scatter 0) 1 =
      g4AttnLaunch Real.exp
        (stepArgs ⟨fun _ => 1, fun _ => 0, fun _ => 0, 5, 2, 2, 1, 1, 2, 0⟩ 0
          (fun p c => p + c) (fun p c => p + c) (fun _ => 0) fun _ => 0)
        ⟨0, 0, 0, none⟩ (scatter 0) 1 :=
  g4AttnLaunch_ring Real.exp Real.exp_pos Real.exp_add _ 3 _ _ _ _ _ _ _ _ _ _
    (fun writes => ⟨0, writes, List.Perm.refl writes, rfl⟩)
    (fun writes => ⟨0, writes, List.Perm.refl writes, rfl⟩) 1
    (by
      intro h below
      rw [Nat.lt_one_iff] at below
      subst below
      exact Nat.le_refl 2)
    (by decide) (by decide)

end Rings

end KairosEngine.Cuda
