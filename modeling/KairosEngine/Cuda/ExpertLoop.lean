import Mathlib.Data.List.Nodup
import KairosEngine.Cuda.ExpertBuckets
import KairosEngine.Cuda.RoutedExperts

/-!
# The expert loop of a block of tokens

The loop of `g4_ffn_apply` gathers an expert's tokens, multiplies all their rows at once and adds
what comes out back to the tokens.  Token by token it adds up the chosen experts.
-/

namespace KairosEngine.Cuda

open KairosEngine.Library

variable {F Double : Type}

/-! ## The kernels -/

/-- `k_moe_gather_rows`. -/
def kMoeGatherRows (src : Nat → F) (rows : Nat → Nat) (nrows E : Nat) : List (Nat × F) :=
  (List.range (nrows * E)).map fun i => (i, src (rows (i / E) * E + i % E))

/-- `k_moe_scatter_acc`: what it adds, and where. -/
def kMoeScatterAcc (arith : MoeArith F Double) (src : Nat → F) (rows : Nat → Nat) (w : Nat → F)
    (nrows E : Nat) : List (Nat × F) :=
  (List.range (nrows * E)).map fun i =>
    (rows (i / E) * E + i % E, arith.mul (w (i / E)) (src i))

/-- `AMMD`: every row of `X` times every row of `W`.  How a product is computed may depend on how many
rows there are, but not on the other rows. -/
def ammd (product : Nat → DevTensor → List F → Nat → F) (W : DevTensor) (X : Nat → F) (nTok : Nat) :
    List (Nat × F) :=
  (List.range nTok).flatMap fun t => (List.range W.out).map fun j =>
    (t * W.out + j, product nTok W ((List.range W.inputs).map (tokenRow X W.inputs t)) j)

/-- The buffers of a `MoeScratch` that the loop writes. -/
structure LoopBuffers (F : Type) where
  gath : Nat → F
  gu : Nat → F
  h : Nat → F
  out : Nat → F
  acc : Nat → F

/-- The experts of a layer and the rows of the tokens, `ms->in`. -/
structure BlockLayer (F : Type) where
  E : Nat
  FFE : Nat
  gupRows : Nat → Q4bArena
  downRows : Nat → Q4bArena
  x : Nat → F

namespace BlockLayer

variable (layer : BlockLayer F)

def gateUp (e : Nat) : DevTensor where
  arena := layer.gupRows e
  inputs := layer.E
  out := 2 * layer.FFE
  prec := 4
  hasBscale := true

def down (e : Nat) : DevTensor where
  arena := layer.downRows e
  inputs := layer.FFE
  out := layer.E
  prec := 4
  hasBscale := true

end BlockLayer

section Loop

variable (arith : MoeArith F Double) (floats : GateFloats F)
  (product : Nat → DevTensor → List F → Nat → F) (layer : BlockLayer F)

/-- The kernels of an expert, one behind the other. -/
structure ExpertTurn (e cnt : Nat) (rows : Nat → Nat) (w : Nat → F) (before after : LoopBuffers F) :
    Prop where
  gathered : Landed before.gath (kMoeGatherRows layer.x rows cnt layer.E) after.gath
  gateUp : Landed before.gu (ammd product (layer.gateUp e) after.gath cnt) after.gu
  gelu : Landed before.h (kMoeGeluSplitBatch floats after.gu layer.FFE cnt) after.h
  down : Landed before.out (ammd product (layer.down e) after.h cnt) after.out
  added : Added arith.add before.acc (kMoeScatterAcc arith after.out rows w cnt layer.E) after.acc

/-- `d_rows` and `d_w` of every expert, and how many there are. -/
structure LoopRows (F : Type) where
  n : Nat → Nat
  rows : Nat → Nat → Nat
  w : Nat → Nat → F

/-- Copied out of the stripes. -/
def stripedRows (nTok : Nat) (buckets : TokenBuckets F) (dsc : Nat → F) : LoopRows F where
  n := buckets.n
  rows := fun e i => buckets.bkt (e * nTok + i)
  w := fun e i => arith.mul (buckets.bktw (e * nTok + i)) (dsc e)

/-- In the packed buffers. -/
def packedRows (buckets : TokenBuckets F) (packed : PackedBuckets F) : LoopRows F where
  n := buckets.n
  rows := fun e i => packed.brows (packed.boff e + i)
  w := fun e i => packed.bw (packed.boff e + i)

/-- The loop over these experts. -/
inductive ExpertLoop (given : LoopRows F) : List Nat → LoopBuffers F → LoopBuffers F → Prop
  | done (buffers : LoopBuffers F) : ExpertLoop given [] buffers buffers
  | skip {e : Nat} {rest : List Nat} {before after : LoopBuffers F} (empty : given.n e = 0)
      (loop : ExpertLoop given rest before after) : ExpertLoop given (e :: rest) before after
  | turn {e : Nat} {rest : List Nat} {before between after : LoopBuffers F} (busy : given.n e ≠ 0)
      (turn : ExpertTurn arith floats product layer e (given.n e) (given.rows e) (given.w e) before
        between)
      (loop : ExpertLoop given rest between after) : ExpertLoop given (e :: rest) before after

/-! ## What the loop comes to -/

/-- An expert applied to one row, in a product of so many rows. -/
def expertRow (cnt e : Nat) (x : List F) : Nat → F :=
  product cnt (layer.down e) ((List.range layer.FFE).map fun c =>
    floats.gelu (product cnt (layer.gateUp e) x c) (product cnt (layer.gateUp e) x (layer.FFE + c)))

/-- The chosen experts of a token, added up in ascending order. -/
def routedSum (chosen : List (Option Nat × F)) (dsc : Nat → F) (out : Nat → F) (experts : List Nat)
    (acc : F) : F :=
  experts.foldl (fun acc e =>
    match chosen.lookup (some e) with
    | some wt => arith.add acc (arith.mul (arith.mul wt (dsc e)) (out e))
    | none => acc) acc

end Loop

section Turn

variable {arith : MoeArith F Double} {floats : GateFloats F}
  {product : Nat → DevTensor → List F → Nat → F} {layer : BlockLayer F} {e cnt : Nat}
  {rows : Nat → Nat} {w : Nat → F} {before after : LoopBuffers F}

theorem gatherRows_get {src old new : Nat → F} {E : Nat}
    (landed : Landed old (kMoeGatherRows src rows cnt E) new) {r : Nat} (inside : r < cnt) {c : Nat}
    (below : c < E) : tokenRow new E r c = tokenRow src E (rows r) c := by
  apply landed.get
  · refine List.mem_map.mpr ⟨r * E + c, List.mem_range.mpr (row_lt inside below), ?_⟩
    rw [(row_div below).1, (row_div below).2]
    rfl
  · intro other member
    obtain ⟨i, _, same⟩ := List.mem_map.mp member
    obtain ⟨rfl, rfl⟩ := Prod.mk.injEq .. ▸ same
    rw [(row_div below).1, (row_div below).2]
    rfl

theorem ammd_get {W : DevTensor} {X old new : Nat → F} (landed : Landed old (ammd product W X cnt) new)
    {r : Nat} (inside : r < cnt) {j : Nat} (below : j < W.out) :
    tokenRow new W.out r j =
      product cnt W ((List.range W.inputs).map (tokenRow X W.inputs r)) j := by
  apply landed.get
  · exact List.mem_flatMap.mpr ⟨r, List.mem_range.mpr inside, List.mem_map.mpr
      ⟨j, List.mem_range.mpr below, rfl⟩⟩
  · intro other member
    obtain ⟨u, _, member⟩ := List.mem_flatMap.mp member
    obtain ⟨k, small, same⟩ := List.mem_map.mp member
    obtain ⟨address, rfl⟩ := Prod.mk.injEq .. ▸ same
    obtain ⟨rfl, rfl⟩ := split_place (List.mem_range.mp small) below address
    rfl

/-- Behind its last product a row of the block is the expert applied to its token. -/
theorem ExpertTurn.row (turn : ExpertTurn arith floats product layer e cnt rows w before after)
    {r : Nat} (inside : r < cnt) {i : Nat} (below : i < layer.E) :
    tokenRow after.out layer.E r i = expertRow floats product layer cnt e
      ((List.range layer.E).map (tokenRow layer.x layer.E (rows r))) i := by
  have gathered : (List.range layer.E).map (tokenRow after.gath layer.E r) =
      (List.range layer.E).map (tokenRow layer.x layer.E (rows r)) :=
    List.map_congr_left fun c small => gatherRows_get turn.gathered inside (List.mem_range.mp small)
  have gateUp : ∀ j < 2 * layer.FFE, tokenRow after.gu (2 * layer.FFE) r j =
      product cnt (layer.gateUp e) ((List.range layer.E).map (tokenRow layer.x layer.E (rows r))) j := by
    intro j small
    rw [← gathered]
    exact ammd_get turn.gateUp inside small
  have gated : (List.range layer.FFE).map (tokenRow after.h layer.FFE r) =
      (List.range layer.FFE).map fun c =>
        floats.gelu
          (product cnt (layer.gateUp e)
            ((List.range layer.E).map (tokenRow layer.x layer.E (rows r))) c)
          (product cnt (layer.gateUp e)
            ((List.range layer.E).map (tokenRow layer.x layer.E (rows r))) (layer.FFE + c)) := by
    apply List.map_congr_left
    intro c member
    have small := List.mem_range.mp member
    rw [geluSplit_get floats turn.gelu inside small, gateUp c (by omega), gateUp _ (by omega)]
  rw [expertRow, ← gated]
  exact ammd_get turn.down inside below

theorem scatterAcc_distinct {src : Nat → F} {E : Nat}
    (distinct : ∀ r < cnt, ∀ s < cnt, rows r = rows s → r = s) :
    ((kMoeScatterAcc arith src rows w cnt E).map Prod.fst).Nodup := by
  rw [kMoeScatterAcc, List.map_map]
  refine List.Nodup.map_on ?_ List.nodup_range
  intro i inside k other same
  rw [List.mem_range] at inside other
  have positive : 0 < E := Nat.pos_of_ne_zero fun zero => by
    rw [zero, Nat.mul_zero] at inside
    exact Nat.not_lt_zero i inside
  obtain ⟨row, place⟩ := split_place (Nat.mod_lt i positive) (Nat.mod_lt k positive) same
  have block := distinct _ (Nat.div_lt_of_lt_mul (by rwa [Nat.mul_comm])) _
    (Nat.div_lt_of_lt_mul (by rwa [Nat.mul_comm])) row
  rw [← Nat.div_add_mod i E, ← Nat.div_add_mod k E, block, place]

/-- A token of the expert gets its weighted output. -/
theorem ExpertTurn.hit (turn : ExpertTurn arith floats product layer e cnt rows w before after)
    (distinct : ∀ r < cnt, ∀ s < cnt, rows r = rows s → r = s) {r : Nat} (inside : r < cnt) {i : Nat}
    (below : i < layer.E) :
    tokenRow after.acc layer.E (rows r) i = arith.add (tokenRow before.acc layer.E (rows r) i)
      (arith.mul (w r) (expertRow floats product layer cnt e
        ((List.range layer.E).map (tokenRow layer.x layer.E (rows r))) i)) := by
  rw [← turn.row inside below]
  apply turn.added.get (scatterAcc_distinct distinct)
  refine List.mem_map.mpr ⟨r * layer.E + i, List.mem_range.mpr (row_lt inside below), ?_⟩
  rw [(row_div below).1, (row_div below).2]
  rfl

/-- Another token gets nothing. -/
theorem ExpertTurn.miss (turn : ExpertTurn arith floats product layer e cnt rows w before after)
    {t : Nat} (elsewhere : ∀ r < cnt, rows r ≠ t) {i : Nat} (below : i < layer.E) :
    tokenRow after.acc layer.E t i = tokenRow before.acc layer.E t i := by
  apply turn.added.untouched
  intro member
  obtain ⟨_, entry, place⟩ := List.mem_map.mp member
  obtain ⟨k, inside, rfl⟩ := List.mem_map.mp entry
  rw [List.mem_range] at inside
  have positive : 0 < layer.E := Nat.zero_lt_of_lt below
  obtain ⟨row, _⟩ := split_place (Nat.mod_lt k positive) below place
  exact elsewhere _ (Nat.div_lt_of_lt_mul (by rwa [Nat.mul_comm])) row

end Turn

section Run

variable {arith : MoeArith F Double} {floats : GateFloats F}
  {product : Nat → DevTensor → List F → Nat → F} {layer : BlockLayer F} {given : LoopRows F}
  {experts : List Nat} {before after : LoopBuffers F}

/-- The rows that an expert is given for a token are those of the router's choice. -/
structure LoopRows.Follows (given : LoopRows F) (arith : MoeArith F Double) (dsc : Nat → F)
    (chosen : List (Option Nat × F)) (t e : Nat) : Prop where
  distinct : ∀ r < given.n e, ∀ s < given.n e, given.rows e r = given.rows e s → r = s
  hit : ∀ wt, chosen.lookup (some e) = some wt →
    ∃ r < given.n e, given.rows e r = t ∧ given.w e r = arith.mul wt (dsc e)
  miss : chosen.lookup (some e) = none → ∀ r < given.n e, given.rows e r ≠ t

/-- The loop leaves a token the sum of its experts. -/
theorem ExpertLoop.sum (loop : ExpertLoop arith floats product layer given experts before after)
    {chosen : List (Option Nat × F)} {dsc : Nat → F} {t : Nat}
    (follows : ∀ e ∈ experts, given.Follows arith dsc chosen t e) {i : Nat} (below : i < layer.E) :
    tokenRow after.acc layer.E t i = routedSum arith chosen dsc
      (fun e => expertRow floats product layer (given.n e) e
        ((List.range layer.E).map (tokenRow layer.x layer.E t)) i) experts
      (tokenRow before.acc layer.E t i) := by
  induction loop with
  | done buffers => rfl
  | @skip e rest before after empty _ inductionHypothesis =>
      have here := follows e List.mem_cons_self
      rw [inductionHypothesis fun other member => follows other (List.mem_cons_of_mem _ member),
        routedSum, routedSum, List.foldl_cons]
      cases picked : chosen.lookup (some e) with
      | none => rfl
      | some wt =>
          obtain ⟨r, inside, _⟩ := here.hit wt picked
          rw [empty] at inside
          exact absurd inside (Nat.not_lt_zero r)
  | @turn e rest before between after _ turn _ inductionHypothesis =>
      have here := follows e List.mem_cons_self
      rw [inductionHypothesis fun other member => follows other (List.mem_cons_of_mem _ member),
        routedSum, routedSum, List.foldl_cons]
      congr 1
      cases picked : chosen.lookup (some e) with
      | none => exact turn.miss (here.miss picked) below
      | some wt =>
          obtain ⟨r, inside, rfl, weight⟩ := here.hit wt picked
          rw [turn.hit here.distinct inside below, weight]

/-- What is no row of a token keeps its value. -/
theorem ExpertLoop.beyond (loop : ExpertLoop arith floats product layer given experts before after)
    {t : Nat} (elsewhere : ∀ e ∈ experts, ∀ r < given.n e, given.rows e r ≠ t) {i : Nat}
    (below : i < layer.E) :
    tokenRow after.acc layer.E t i = tokenRow before.acc layer.E t i := by
  induction loop with
  | done buffers => rfl
  | skip _ _ inductionHypothesis =>
      exact inductionHypothesis fun e member => elsewhere e (List.mem_cons_of_mem _ member)
  | turn _ turn _ inductionHypothesis =>
      rw [inductionHypothesis fun e member => elsewhere e (List.mem_cons_of_mem _ member)]
      exact turn.miss (elsewhere _ List.mem_cons_self) below

end Run

section Choice

variable {arith : MoeArith F Double} {NE NU nTok : Nat} {logh : Nat → F} {dsc : Nat → F}
  {filled : TokenBuckets F} {packed : PackedBuckets F} {t e : Nat}

theorem BucketsHold.distinct (holds : BucketsHold arith NE NU nTok logh dsc filled packed) (e : Nat) :
    ∀ r < filled.n e, ∀ s < filled.n e,
      filled.bkt (e * nTok + r) = filled.bkt (e * nTok + s) → r = s := by
  have nodup := (holds.ascending e).imp fun less => Nat.ne_of_lt less
  intro r inside s other same
  exact List.inj_on_of_nodup_map nodup (List.mem_range.mpr inside) (List.mem_range.mpr other) same

theorem mem_of_lookup {chosen : List (Option Nat × F)} {wt : F}
    (picked : chosen.lookup (some e) = some wt) : (some e, wt) ∈ chosen := by
  obtain ⟨front, back, split, _⟩ := List.lookup_eq_some_iff.mp picked
  rw [split]
  exact List.mem_append_right _ List.mem_cons_self

theorem BucketsHold.follows_striped (holds : BucketsHold arith NE NU nTok logh dsc filled packed)
    (token : t < nTok) (e : Nat) :
    (stripedRows arith nTok filled dsc).Follows arith dsc
      (arith.moeTopkHost (logitRow NE logh t) NU) t e where
  distinct := holds.distinct e
  hit := fun wt picked => by
    obtain ⟨_, r, inside, row, weight, _⟩ := holds.once t token e wt (mem_of_lookup picked)
    exact ⟨r, inside, row, congrArg (arith.mul · (dsc e)) weight⟩
  miss := fun absent r inside row => by
    obtain ⟨_, present⟩ := holds.only e r inside
    rw [show filled.bkt (e * nTok + r) = t from row] at present
    have differs := List.lookup_eq_none_iff.mp absent _ present
    simp at differs

theorem BucketsHold.follows_packed (holds : BucketsHold arith NE NU nTok logh dsc filled packed)
    (token : t < nTok) (expert : e < NE) :
    (packedRows filled packed).Follows arith dsc
      (arith.moeTopkHost (logitRow NE logh t) NU) t e := by
  have striped := holds.follows_striped token e
  have same := holds.same e expert
  refine ⟨fun r inside s other equal => ?_, fun wt picked => ?_, fun absent r inside row => ?_⟩
  · apply striped.distinct r inside s other
    rw [packedRows] at equal
    dsimp only at equal
    rwa [(same r inside).1, (same s other).1] at equal
  · obtain ⟨r, inside, row, weight⟩ := striped.hit wt picked
    exact ⟨r, inside, (same r inside).1.trans row, (same r inside).2.trans weight⟩
  · exact striped.miss absent r inside ((same r inside).1.symm.trans row)

end Choice

/-! ## The block -/

/-- However the buckets are handed to the device, and however the writes and the additions of each
kernel land, a token of the block gets its chosen experts in ascending order, with their weights and
scales, and what lies behind the tokens keeps its value. -/
theorem expertLoop_exact (arith : MoeArith F Double) (floats : GateFloats F)
    (product : Nat → DevTensor → List F → Nat → F) (layer : BlockLayer F) (NE NU nTok : Nat)
    (logh : Nat → F) (start filled : TokenBuckets F) (dsc : Nat → F) (packed : PackedBuckets F)
    (before after : LoopBuffers F)
    (bucketed : bucketTokens arith NE NU nTok logh start nTok = some filled)
    (run : ExpertLoop arith floats product layer (stripedRows arith nTok filled dsc) (List.range NE)
        before after ∨
      ExpertLoop arith floats product layer
        (packedRows filled (packBuckets arith nTok filled dsc packed NE)) (List.range NE) before
        after) :
    (∀ t < nTok, ∀ i < layer.E,
        tokenRow after.acc layer.E t i =
          routedSum arith (arith.moeTopkHost (logitRow NE logh t) NU) dsc
            (fun e => expertRow floats product layer (filled.n e) e
              ((List.range layer.E).map (tokenRow layer.x layer.E t)) i)
            (List.range NE) (tokenRow before.acc layer.E t i)) ∧
      ∀ t ≥ nTok, ∀ i < layer.E,
        tokenRow after.acc layer.E t i = tokenRow before.acc layer.E t i := by
  have holds := bucketsHold bucketed dsc packed
  have inside : ∀ e, ∀ r < filled.n e, filled.bkt (e * nTok + r) < nTok :=
    fun e r below => (holds.only e r below).1
  rcases run with striped | pinned
  · refine ⟨fun t token i below => striped.sum (fun e _ => holds.follows_striped token e) below,
      fun t beyond i below => striped.beyond (fun e _ r small row => ?_) below⟩
    have token := inside e r small
    rw [show filled.bkt (e * nTok + r) = t from row] at token
    exact absurd token (Nat.not_lt.mpr beyond)
  · refine ⟨fun t token i below => pinned.sum
        (fun e member => holds.follows_packed token (List.mem_range.mp member)) below,
      fun t beyond i below => pinned.beyond (fun e member r small row => ?_) below⟩
    have token := inside e r small
    rw [← (holds.same e (List.mem_range.mp member) r small).1,
      show (packBuckets arith nTok filled dsc packed NE).brows
        ((packBuckets arith nTok filled dsc packed NE).boff e + r) = t from row] at token
    exact absurd token (Nat.not_lt.mpr beyond)

/-- In program order every loop runs. -/
theorem exists_expertLoop (arith : MoeArith F Double) (floats : GateFloats F)
    (product : Nat → DevTensor → List F → Nat → F) (layer : BlockLayer F) (given : LoopRows F)
    (experts : List Nat) (before : LoopBuffers F) :
    ∃ after, ExpertLoop arith floats product layer given experts before after := by
  induction experts generalizing before with
  | nil => exact ⟨before, .done before⟩
  | cons e rest inductionHypothesis =>
      by_cases empty : given.n e = 0
      · obtain ⟨after, loop⟩ := inductionHypothesis before
        exact ⟨after, .skip empty loop⟩
      · let gath := scatter before.gath (kMoeGatherRows layer.x (given.rows e) (given.n e) layer.E)
        let gu := scatter before.gu (ammd product (layer.gateUp e) gath (given.n e))
        let h := scatter before.h (kMoeGeluSplitBatch floats gu layer.FFE (given.n e))
        let out := scatter before.out (ammd product (layer.down e) h (given.n e))
        let acc := addAll arith.add before.acc
          (kMoeScatterAcc arith out (given.rows e) (given.w e) (given.n e) layer.E)
        obtain ⟨after, loop⟩ := inductionHypothesis ⟨gath, gu, h, out, acc⟩
        exact ⟨after, .turn empty
          ⟨landed_scatter, landed_scatter, landed_scatter, landed_scatter, added_addAll⟩ loop⟩

/-- Codes times activations, the scales left out. -/
def codeProduct (_ : Nat) (W : DevTensor) (x : List Int) (j : Nat) : Int :=
  x.zipIdx.foldl (fun sum entry => sum + entry.1 * dequantCode (W.arena.rowCodes j) entry.2) 0

/-- Two experts of two columns. -/
def smallBlock : BlockLayer Int where
  E := 2
  FFE := 2
  gupRows := fun e => expertArena [0x21, 0x13, 0x31, UInt8.ofNat e] [] 2
  downRows := fun e => expertArena [0x12, UInt8.ofNat e] [] 2
  x := fun i => i + 1

/-- Scores of one and two, so that one expert of two is chosen with the whole weight. -/
def steppedArith : MoeArith Int Int := { wholeArith with narrow := fun x => x + 1 }

/-- Two tokens that choose different experts. -/
theorem expertLoop_exact_two :
    ∃ filled after, bucketTokens steppedArith 2 1 2 (fun i => [5, 3, 3, 5].getD i 0)
        ⟨fun _ => 0, fun _ => 0, fun _ => 0⟩ 2 = some filled ∧
      ExpertLoop steppedArith wholeGate codeProduct smallBlock
        (stripedRows steppedArith 2 filled fun e => e + 2) (List.range 2)
        ⟨fun _ => 0, fun _ => 0, fun _ => 0, fun _ => 0, fun _ => 0⟩ after ∧
      tokenRow after.acc 2 0 1 = 105 ∧ tokenRow after.acc 2 1 0 = 660 := by
  obtain ⟨filled, bucketed⟩ : ∃ filled, bucketTokens steppedArith 2 1 2
      (fun i => [5, 3, 3, 5].getD i 0) ⟨fun _ => 0, fun _ => 0, fun _ => 0⟩ 2 = some filled :=
    ⟨_, rfl⟩
  obtain ⟨after, run⟩ := exists_expertLoop steppedArith wholeGate codeProduct smallBlock
    (stripedRows steppedArith 2 filled fun e => e + 2) (List.range 2)
    ⟨fun _ => 0, fun _ => 0, fun _ => 0, fun _ => 0, fun _ => 0⟩
  obtain ⟨sums, _⟩ := expertLoop_exact steppedArith wholeGate codeProduct smallBlock 2 1 2 _ _ filled
    _ ⟨0, fun _ => 0, fun _ => 0, fun _ => 0⟩ _ after bucketed (Or.inl run)
  have same : ∀ cnt, expertRow wholeGate codeProduct smallBlock cnt =
      expertRow wholeGate codeProduct smallBlock 1 := fun _ => rfl
  refine ⟨filled, after, bucketed, run, (sums 0 (by decide) 1 (by decide)).trans ?_,
    (sums 1 (by decide) 0 (by decide)).trans ?_⟩
  · simp only [same]
    decide +kernel
  · simp only [same]
    decide +kernel

end KairosEngine.Cuda
