import KairosEngine.Library.WarpReduce
import KairosEngine.Cuda.Q4bReaders

/-!
# An expert's rows on the host and on the card

The host quantizes and multiplies in the order of the kernels it stands in for: a chunk goes to the
lane of its index modulo 32, its two products are contracted as the compiled kernel contracts them,
and the lanes are put together in the tree of the warp.  The floats are a parameter; of their
addition only that it commutes is used.
-/

namespace KairosEngine.Cuda

open KairosEngine.Library

/-! ## The quantizers -/

structure QuantFloats (F : Type) where
  zero : F
  one : F
  abs : F → F
  greater : F → F → Bool
  mul : F → F → F
  div : F → F → F
  /-- `1.0f / 127.0f`. -/
  inv127 : F
  /-- To the nearest integer. -/
  rint : F → Int

section Quant

variable {F : Type} (floats : QuantFloats F)

/-- The scale of a block of 16 magnitudes. -/
def blockScaleOf (a : Nat → F) : F :=
  let m := (List.range 16).foldl (fun m i => if floats.greater (a i) m then a i else m) floats.zero
  if floats.greater m floats.zero then floats.mul m floats.inv127 else floats.one

/-- `if (q > 127) q = 127; if (q < -127) q = -127;`. -/
def clamp127 (q : Int) : Int :=
  let q := if q > 127 then 127 else q
  if q < -127 then -127 else q

/-- `k_quant_act_int8`: the code of an index and the scale of a block; behind the end of `x` are
zeros. -/
def kQuantActInt8 (x : Nat → F) (n : Nat) : (Nat → Int8) × (Nat → F) :=
  let scale := fun b => blockScaleOf floats fun i =>
    if 16 * b + i < n then floats.abs (x (16 * b + i)) else floats.zero
  let code := fun idx =>
    let inv := floats.div floats.one (scale (idx / 16))
    clamp127 (floats.rint (if idx < n then floats.mul (x idx) inv else floats.zero))
  (fun idx => Int8.ofInt (code idx), scale)

/-- `sp_moe_cpu_quant`. -/
def spMoeCpuQuant (x : Nat → F) (inputs : Nat) : Option (List Int8 × List F) :=
  if inputs &&& 31 ≠ 0 ∨ inputs > 4096 then none
  else
    let scale := fun b => blockScaleOf floats fun i => floats.abs (x (16 * b + i))
    let code := fun idx =>
      let inv := floats.div floats.one (scale (idx / 16))
      clamp127 (floats.rint (floats.mul (x idx) inv))
    some ((List.range inputs).map fun idx => Int8.ofInt (code idx),
      (List.range (inputs >>> 4)).map scale)

end Quant

/-! ## The product on the card -/

/-- What the quantizers and the contracted products need. -/
structure ExpertFloats (F : Type) extends GemvFloats F, QuantFloats F where
  fma : F → F → F → F

section Card

variable {F : Type} (floats : ExpertFloats F)

/-- What a chunk adds to a sum: `fma(wbsc, fma(a0, s0, a1 * s1), facc)`. -/
def fusedChunk (scale : UInt16) (s0 s1 facc : F) (a0 a1 : Int) : F :=
  floats.fma (floats.half scale)
    (floats.fma (floats.ofInt a0) s0 (floats.mul (floats.ofInt a1) s1)) facc

variable (arena : Q4bArena) (cols : Nat) (qx : Nat → Int8) (sxb : Nat → F) (j : Nat)

/-- The `facc` of a lane of `g4_gemv_q4b_dp4a_body`, which is that of `k_gemv_q4b_dp4a_v2`. -/
def bodyLane (lane : Nat) : Option F :=
  runEach (fun c facc => (gemvChunk (arena.rowCodes j) qx c).map fun sums =>
    fusedChunk floats (arena.blockScale j c) (sxb (2 * c)) (sxb (2 * c + 1)) facc sums.1 sums.2)
    (laneLoop (cols >>> 5) lane) floats.zero

/-- What lane 0 writes to `y[j]`. -/
def g4GemvQ4bDp4aBody : Option F := do
  let sums ← (List.range 32).mapM fun lane => bodyLane floats arena cols qx sxb j lane
  return [16, 8, 4, 2, 1].foldl (shuffleDown floats.add) (fun lane => sums.getD lane floats.zero) 0

end Card

/-! ## The product on the host -/

section Host

variable {F : Type} (floats : ExpertFloats F)

/-- `s0` and `s1` of an `ActX`. -/
def chunkScales (sx : List F) (n32 which c : Nat) : F :=
  if c < n32 then sx.getD (2 * c + which) floats.zero else floats.zero

/-- The sixteen lanes of a half after the chunks from `c0` on, `cnt` of them. -/
def hostHalf (a0 a1 : Nat → Int) (s0 s1 : Nat → F) (bs : Nat → UInt16) (c0 cnt : Nat)
    (f : Nat → F) (l : Nat) : F :=
  let x0 := floats.ofInt (if l < cnt then a0 (c0 + l) else 0)
  let x1 := floats.ofInt (if l < cnt then a1 (c0 + l) else 0)
  let w := floats.half (if l < cnt then bs (c0 + l) else 0)
  let t := floats.fma x0 (s0 (c0 + l)) (floats.mul x1 (s1 (c0 + l)))
  if l < cnt then floats.fma w t (f l) else f l

/-- A round of `for (cb = 0; cb < nb; cb += 32)`; the second half stops at the end of the row. -/
def hostRound (a0 a1 : Nat → Int) (s0 s1 : Nat → F) (bs : Nat → UInt16) (nb cb : Nat)
    (f : (Nat → F) × (Nat → F)) : (Nat → F) × (Nat → F) :=
  let f0 := hostHalf floats a0 a1 s0 s1 bs cb (min (nb - cb) 16) f.1
  if cb + 16 ≥ nb then (f0, f.2)
  else (f0, hostHalf floats a0 a1 s0 s1 bs (cb + 16) (min (nb - (cb + 16)) 16) f.2)

/-- The array `lane` that the halves are stored to. -/
def storedLanes (f : (Nat → F) × (Nat → F)) (l : Nat) : F := if l < 16 then f.1 l else f.2 (l - 16)

def hostLanes (a0 a1 : Nat → Int) (s0 s1 : Nat → F) (bs : Nat → UInt16) (nb : Nat) : Nat → F :=
  storedLanes ((strides warp_pos nb 0).foldl
    (fun f round => hostRound floats a0 a1 s0 s1 bs nb round.1 f)
    (fun _ => floats.zero, fun _ => floats.zero))

/-- The `y[j]` of `gemv_rows_exact`, from the integers of the row. -/
def rowExact (bsc : List UInt16) (A : ActX) (sx : List F) (j : Nat) (a0 a1 : Nat → Int) : F :=
  [16, 8, 4, 2, 1].foldl (foldHalf floats.add)
    (hostLanes floats a0 a1 (chunkScales floats sx A.n32 0) (chunkScales floats sx A.n32 1)
      (fun c => bsc.getD (j * A.n32 + c) 0) A.n32) 0

/-- A round of `gemv_rows_exact`: `y`, and the arrays `a0` and `a1` that go from row to row. -/
def exactRound (codes : List UInt8) (bsc : List UInt16) (A : ActX) (sx : List F)
    (state : (Nat → F) × (Nat → Int) × (Nat → Int)) (j : Nat) :
    (Nat → F) × (Nat → Int) × (Nat → Int) :=
  let sums := gemvRowsExactInts codes A j state.2.1 state.2.2
  (Function.update state.1 j (rowExact floats bsc A sx j sums.1 sums.2), sums)

/-- `gemv_rows_exact`, for the rows from `r0` up to `r1`. -/
def gemvRowsExact (codes : List UInt8) (bsc : List UInt16) (A : ActX) (sx : List F) (r0 r1 : Nat)
    (y : Nat → F) (a0 a1 : Nat → Int) : Nat → F :=
  ((List.range' r0 (r1 - r0)).foldl (exactRound floats codes bsc A sx) (y, a0, a1)).1

end Host

/-- The bytes of an expert as the card reads them. -/
def expertArena (codes : List UInt8) (bsc : List UInt16) (inputs : Nat) : Q4bArena where
  base := 0
  codes := fun byte => codes.getD byte 0
  rowOff := fun j => j * (inputs / 2)
  bscale := fun block => bsc.getD block 0
  bsNblk := inputs / 32

/-! ## The quantizers agree -/

section Quantizers

variable {F : Type} {floats : QuantFloats F} {x : Nat → F} {inputs : Nat}

theorem clamp127_bounds (q : Int) : -127 ≤ clamp127 q ∧ clamp127 q ≤ 127 := by
  unfold clamp127
  dsimp only
  split <;> split <;> omega

theorem toInt_clamped (q : Int) :
    -127 ≤ (Int8.ofInt (clamp127 q)).toInt ∧ (Int8.ofInt (clamp127 q)).toInt ≤ 127 := by
  have bounds := clamp127_bounds q
  have size : Int8.size = 256 := rfl
  rw [Int8.toInt_ofInt, Int.bmod_eq_of_le (by omega) (by omega)]
  exact bounds

theorem blockScaleOf_congr {a b : Nat → F} (same : ∀ i < 16, a i = b i) :
    blockScaleOf floats a = blockScaleOf floats b := by
  have fold := List.foldl_ext (fun m i => if floats.greater (a i) m then a i else m)
    (fun m i => if floats.greater (b i) m then b i else m) floats.zero (l := List.range 16)
    fun m i member => by rw [same i (List.mem_range.mp member)]
  unfold blockScaleOf
  rw [fold]

theorem spMoeCpuQuant_accepts {quants : List Int8 × List F}
    (quantized : spMoeCpuQuant floats x inputs = some quants) : inputs % 32 = 0 ∧ inputs ≤ 4096 := by
  have mask : inputs &&& 31 = inputs % 32 := Nat.and_two_pow_sub_one_eq_mod inputs 5
  unfold spMoeCpuQuant at quantized
  split at quantized
  next => cases quantized
  next accepted => omega

/-- A row of whole blocks has no index behind its end, so the quantizers agree. -/
theorem spMoeCpuQuant_eq (whole : inputs % 32 = 0) (short : inputs ≤ 4096) :
    spMoeCpuQuant floats x inputs =
      some ((List.range inputs).map (kQuantActInt8 floats x inputs).1,
        (List.range (inputs / 16)).map (kQuantActInt8 floats x inputs).2) := by
  have mask : inputs &&& 31 = inputs % 32 := Nat.and_two_pow_sub_one_eq_mod inputs 5
  have blocks : inputs >>> 4 = inputs / 16 := Nat.shiftRight_eq_div_pow inputs 4
  have scales : ∀ b < inputs / 16,
      blockScaleOf floats (fun i => floats.abs (x (16 * b + i))) =
        (kQuantActInt8 floats x inputs).2 b := by
    intro b below
    apply blockScaleOf_congr
    intro i small
    rw [if_pos (by omega)]
  rw [spMoeCpuQuant, if_neg (by omega), blocks]
  refine congrArg some (Prod.ext (List.map_congr_left ?_) (List.map_congr_left ?_))
  · intro idx member
    have below := List.mem_range.mp member
    dsimp only
    rw [scales _ (by omega), kQuantActInt8]
    dsimp only
    rw [if_pos below]
  · exact fun b member => scales b (List.mem_range.mp member)

theorem spMoeCpuQuant_some {qx : List Int8} {sx : List F}
    (quantized : spMoeCpuQuant floats x inputs = some (qx, sx)) :
    (∀ idx < inputs, qx.getD idx 0 = (kQuantActInt8 floats x inputs).1 idx) ∧
      ∀ b < inputs / 16, sx.getD b floats.zero = (kQuantActInt8 floats x inputs).2 b := by
  obtain ⟨whole, short⟩ := spMoeCpuQuant_accepts quantized
  rw [spMoeCpuQuant_eq whole short] at quantized
  cases quantized
  constructor
  · intro idx below
    rw [List.getD_eq_getElem _ _ (by rwa [List.length_map, List.length_range]),
      List.getElem_map, List.getElem_range]
  · intro b below
    rw [List.getD_eq_getElem _ _ (by rwa [List.length_map, List.length_range]),
      List.getElem_map, List.getElem_range]

/-- A quantizer never gives the code -128. -/
theorem quantized_range {qx : List Int8} {sx : List F}
    (quantized : spMoeCpuQuant floats x inputs = some (qx, sx)) :
    ∀ activation ∈ qx, -127 ≤ activation.toInt ∧ activation.toInt ≤ 127 := by
  unfold spMoeCpuQuant at quantized
  split at quantized
  next => cases quantized
  next =>
    cases quantized
    intro activation member
    obtain ⟨idx, _, rfl⟩ := List.mem_map.mp member
    exact toInt_clamped _

end Quantizers

/-! ## The lanes -/

section Lanes

variable {F : Type} (floats : ExpertFloats F)

theorem hostHalf_eq (a0 a1 : Nat → Int) (s0 s1 : Nat → F) (bs : Nat → UInt16) (c0 cnt : Nat)
    (f : Nat → F) (l : Nat) :
    hostHalf floats a0 a1 s0 s1 bs c0 cnt f l =
      if l < cnt then
        fusedChunk floats (bs (c0 + l)) (s0 (c0 + l)) (s1 (c0 + l)) (f l) (a0 (c0 + l)) (a1 (c0 + l))
      else f l := by
  unfold hostHalf
  by_cases within : l < cnt
  · simp only [if_pos within]
    rfl
  · simp only [if_neg within]

/-- A round gives every lane its chunk, if there is one. -/
theorem hostRound_lane (a0 a1 : Nat → Int) (s0 s1 : Nat → F) (bs : Nat → UInt16) (nb cb : Nat)
    (f : (Nat → F) × (Nat → F)) {l : Nat} (inWarp : l < 32) :
    storedLanes (hostRound floats a0 a1 s0 s1 bs nb cb f) l =
      if cb + l < nb then
        fusedChunk floats (bs (cb + l)) (s0 (cb + l)) (s1 (cb + l)) (storedLanes f l) (a0 (cb + l))
          (a1 (cb + l))
      else storedLanes f l := by
  unfold storedLanes hostRound
  dsimp only
  by_cases low : l < 16
  · have bound : l < min (nb - cb) 16 ↔ cb + l < nb := by omega
    rw [if_pos low, if_pos low]
    have first := hostHalf_eq floats a0 a1 s0 s1 bs cb (min (nb - cb) 16) f.1 l
    simp only [bound] at first
    split
    next => exact first
    next => exact first
  · rw [if_neg low, if_neg low]
    split
    next beyond => rw [if_neg (by omega)]
    next =>
      have bound : l - 16 < min (nb - (cb + 16)) 16 ↔ cb + l < nb := by omega
      have place : cb + 16 + (l - 16) = cb + l := by omega
      have second := hostHalf_eq floats a0 a1 s0 s1 bs (cb + 16) (min (nb - (cb + 16)) 16) f.2 (l - 16)
      simp only [bound, place] at second
      exact second

/-- A lane of the host goes through the chunks of the lane on the card. -/
theorem hostLanes_eq (a0 a1 : Nat → Int) (s0 s1 : Nat → F) (bs : Nat → UInt16) (nb : Nat) {l : Nat}
    (inWarp : l < 32) :
    hostLanes floats a0 a1 s0 s1 bs nb l =
      (laneLoop nb l).foldl (fun facc c => fusedChunk floats (bs c) (s0 c) (s1 c) facc (a0 c) (a1 c))
        floats.zero := by
  have rounds : ∀ (todo : List (Nat × Nat)) (f : (Nat → F) × (Nat → F)),
      storedLanes (todo.foldl
          (fun f round => hostRound floats a0 a1 s0 s1 bs nb round.1 f) f) l =
        todo.foldl (fun facc round => if round.1 + l < nb then
          fusedChunk floats (bs (round.1 + l)) (s0 (round.1 + l)) (s1 (round.1 + l)) facc
            (a0 (round.1 + l)) (a1 (round.1 + l)) else facc) (storedLanes f l) := by
    intro todo
    induction todo with
    | nil => exact fun _ => rfl
    | cons round rest inductionHypothesis =>
        intro f
        rw [List.foldl_cons, List.foldl_cons, inductionHypothesis, hostRound_lane _ _ _ _ _ _ _ _ _ inWarp]
  have start : storedLanes (fun _ : Nat => floats.zero, fun _ : Nat => floats.zero) l = floats.zero :=
    ite_self _
  rw [hostLanes, rounds, start, foldl_strides_lane
    (fun c facc => fusedChunk floats (bs c) (s0 c) (s1 c) facc (a0 c) (a1 c)), Nat.zero_add, laneLoop]

/-- A lane of the card, with the integers of its chunks exact. -/
theorem bodyLane_eq (arena : Q4bArena) {cols : Nat} {qx : Nat → Int8} (sxb : Nat → F) (j : Nat)
    (quantized : Quantized qx cols) (lane : Nat) :
    bodyLane floats arena cols qx sxb j lane =
      some ((laneLoop (cols >>> 5) lane).foldl (fun facc c =>
        fusedChunk floats (arena.blockScale j c) (sxb (2 * c)) (sxb (2 * c + 1)) facc
          (dot (arena.rowCodes j) qx (32 * c) 16) (dot (arena.rowCodes j) qx (32 * c + 16) 16))
        floats.zero) := by
  have chunks : ∀ c ∈ laneLoop (cols >>> 5) lane, 32 * c + 32 ≤ cols := by
    intro c member
    have below := (mem_starts.mp member).2.1
    rw [Nat.shiftRight_eq_div_pow] at below
    omega
  unfold bodyLane
  revert chunks
  generalize laneLoop (cols >>> 5) lane = todo
  generalize floats.zero = facc
  intro chunks
  induction todo generalizing facc with
  | nil => rfl
  | cons c rest inductionHypothesis =>
      rw [List.forall_mem_cons] at chunks
      rw [runEach, gemvChunk_eq quantized chunks.1, Option.map_some, Option.bind_some,
        List.foldl_cons]
      exact inductionHypothesis _ chunks.2

end Lanes

/-! ## The integers of a chunk -/

/-- Both halves of a chunk as the host has them are the dot products that the card adds up. -/
theorem gemvRowsExactInts_dot {qx : List Int8} {inputs : Nat} (whole : inputs % 32 = 0)
    (range : ∀ activation ∈ qx, -127 ≤ activation.toInt ∧ activation.toInt ≤ 127)
    (codes : List UInt8) (j : Nat) (a0 a1 : Nat → Int) {chunk : Nat} (before : chunk < inputs / 32) :
    let sums := gemvRowsExactInts codes (actxFromQ qx inputs) j a0 a1
    let row := codeRow codes (actxFromQ qx inputs) j
    sums.1 chunk = dot row (fun i => qx.getD i 0) (32 * chunk) 16 ∧
      sums.2 chunk = dot row (fun i => qx.getD i 0) (32 * chunk + 16) 16 := by
  intro sums row
  have even : inputs % 2 = 0 := by omega
  have stored : chunk < 4 * (actxFromQ qx inputs).ng := by
    rw [show (actxFromQ qx inputs).ng = (inputs + 127) / 128 from rfl]
    omega
  have lanes : ∀ lane < 4, pa0 lane % 16 = 2 * (2 * lane) ∧ pa1 lane % 16 = 2 * (2 * lane + 1) := by
    decide
  obtain ⟨first, second⟩ := lanes (chunk % 4) (Nat.mod_lt _ (by decide))
  have base : 128 * (chunk / 4) + 16 * (2 * (chunk % 4)) = 32 * chunk := by omega
  have baseSecond : 128 * (chunk / 4) + 16 * (2 * (chunk % 4) + 1) = 32 * chunk + 16 := by omega
  constructor
  · calc sums.1 chunk
        = paired (actxFromQ qx inputs) row (chunk / 4) (2 * (2 * (chunk % 4))) := by
          rw [← first]
          exact (foldl_storeSi128 _ _ _ _).trans (if_pos stored)
      _ = dot row (fun i => qx.getD i 0) (32 * chunk) 16 := by
          rw [paired_eq range even _ (by omega), base, span_within _ _ (by omega)]
          rfl
  · calc sums.2 chunk
        = paired (actxFromQ qx inputs) row (chunk / 4) (2 * (2 * (chunk % 4) + 1)) := by
          rw [← second]
          exact (foldl_storeSi128 _ _ _ _).trans (if_pos stored)
      _ = dot row (fun i => qx.getD i 0) (32 * chunk + 16) 16 := by
          rw [paired_eq range even _ (by omega), baseSecond, span_within _ _ (by omega)]
          rfl

theorem dot_congr {row : Nat → UInt8} {qx other : Nat → Int8} {start count : Nat}
    (same : ∀ i < start + count, qx i = other i) :
    dot row qx start count = dot row other start count := by
  unfold dot
  congr 1
  apply List.map_congr_left
  intro k member
  have inside := List.mem_range.mp member
  rw [same (start + k) (by omega)]

/-! ## A row on both sides -/

section Row

variable {F : Type} {floats : ExpertFloats F} (commutes : ∀ a b, floats.add a b = floats.add b a)
  {x : Nat → F} {inputs : Nat} {qx : List Int8} {sx : List F}
  (quantized : spMoeCpuQuant floats.toQuantFloats x inputs = some (qx, sx))

include commutes quantized

/-- Whatever the arrays held before, lane 0 of the card has the number of the host. -/
theorem rowExact_eq (codes : List UInt8) (bsc : List UInt16) (j : Nat) (a0 a1 : Nat → Int) :
    let sums := gemvRowsExactInts codes (actxFromQ qx inputs) j a0 a1
    g4GemvQ4bDp4aBody floats (expertArena codes bsc inputs) inputs
        (kQuantActInt8 floats.toQuantFloats x inputs).1
        (kQuantActInt8 floats.toQuantFloats x inputs).2 j =
      some (rowExact floats bsc (actxFromQ qx inputs) sx j sums.1 sums.2) := by
  intro sums
  obtain ⟨whole, _⟩ := spMoeCpuQuant_accepts quantized
  obtain ⟨sameCodes, sameScales⟩ := spMoeCpuQuant_some quantized
  have range := quantized_range quantized
  have onCard : Quantized (kQuantActInt8 floats.toQuantFloats x inputs).1 inputs := by
    intro i below
    rw [← sameCodes i below]
    exact getD_range range i
  have chunks : inputs >>> 5 = inputs / 32 := Nat.shiftRight_eq_div_pow inputs 5
  have lanes : ∀ lane < 32, bodyLane floats (expertArena codes bsc inputs) inputs
      (kQuantActInt8 floats.toQuantFloats x inputs).1
      (kQuantActInt8 floats.toQuantFloats x inputs).2 j lane =
        some (hostLanes floats sums.1 sums.2 (chunkScales floats sx (inputs / 32) 0)
          (chunkScales floats sx (inputs / 32) 1) (fun c => bsc.getD (j * (inputs / 32) + c) 0)
          (inputs / 32) lane) := by
    intro lane inWarp
    rw [bodyLane_eq floats _ _ _ onCard, hostLanes_eq _ _ _ _ _ _ _ inWarp, chunks]
    congr 1
    apply List.foldl_ext
    intro facc c member
    have below : c < inputs / 32 := (mem_starts.mp member).2.1
    obtain ⟨first, second⟩ := gemvRowsExactInts_dot whole range codes j a0 a1 below
    have scale : ∀ which < 2, chunkScales floats sx (inputs / 32) which c =
        (kQuantActInt8 floats.toQuantFloats x inputs).2 (2 * c + which) := by
      intro which small
      rw [chunkScales, if_pos below]
      exact sameScales _ (by omega)
    have halves : ∀ start, start + 16 ≤ inputs → dot (codeRow codes (actxFromQ qx inputs) j)
        (kQuantActInt8 floats.toQuantFloats x inputs).1 start 16 =
          dot (codeRow codes (actxFromQ qx inputs) j) (fun i => qx.getD i 0) start 16 :=
      fun start within => dot_congr fun i inside => (sameCodes i (by omega)).symm
    rw [first, second, scale 0 (by decide), scale 1 (by decide), ← halves _ (by omega),
      ← halves _ (by omega)]
    rfl
  have all := mapM_eq_some_map fun lane member => lanes lane (List.mem_range.mp member)
  rw [g4GemvQ4bDp4aBody, all, Option.bind_eq_bind, Option.bind_some]
  apply congrArg some
  calc _ = meet floats.add (halves 5) _ 0 := foldl_shuffleDown (by decide)
    _ = meet floats.add (halves 5) (hostLanes floats sums.1 sums.2
          (chunkScales floats sx (inputs / 32) 0) (chunkScales floats sx (inputs / 32) 1)
          (fun c => bsc.getD (j * (inputs / 32) + c) 0) (inputs / 32)) 0 := by
        apply meet_congr
        intro lane _ below
        have inWarp : lane < 32 := Nat.lt_of_le_of_lt below (by decide)
        rw [List.getD_eq_getElem _ _ (by rwa [List.length_map, List.length_range]),
          List.getElem_map, List.getElem_range]
    _ = rowExact floats bsc (actxFromQ qx inputs) sx j sums.1 sums.2 :=
        (foldl_foldHalf commutes 5).symm

omit commutes quantized in
theorem exactRound_fst (codes : List UInt8) (bsc : List UInt16) (A : ActX) (sx : List F)
    (state : (Nat → F) × (Nat → Int) × (Nat → Int)) (j : Nat) :
    (exactRound floats codes bsc A sx state j).1 = Function.update state.1 j
      (rowExact floats bsc A sx j (gemvRowsExactInts codes A j state.2.1 state.2.2).1
        (gemvRowsExactInts codes A j state.2.1 state.2.2).2) := rfl

theorem foldl_exactRound (codes : List UInt8) (bsc : List UInt16) (todo : List Nat)
    (state : (Nat → F) × (Nat → Int) × (Nat → Int)) (j : Nat) :
    let y := (todo.foldl (exactRound floats codes bsc (actxFromQ qx inputs) sx) state).1
    (j ∈ todo → g4GemvQ4bDp4aBody floats (expertArena codes bsc inputs) inputs
        (kQuantActInt8 floats.toQuantFloats x inputs).1
        (kQuantActInt8 floats.toQuantFloats x inputs).2 j = some (y j)) ∧
      (j ∉ todo → y j = state.1 j) := by
  induction todo generalizing state with
  | nil => exact ⟨fun member => absurd member List.not_mem_nil, fun _ => rfl⟩
  | cons row rest inductionHypothesis =>
      obtain ⟨written, untouched⟩ :=
        inductionHypothesis (exactRound floats codes bsc (actxFromQ qx inputs) sx state row)
      rw [List.foldl_cons]
      constructor
      · intro member
        by_cases again : j ∈ rest
        · exact written again
        · obtain rfl : j = row := (List.mem_cons.mp member).resolve_right again
          rw [untouched again, exactRound_fst, Function.update_self]
          exact rowExact_eq commutes quantized codes bsc j _ _
      · intro absent
        rw [List.mem_cons, not_or] at absent
        rw [untouched absent.2, exactRound_fst, Function.update_of_ne absent.1]

end Row

/-- Integers in the place of floats, with the largest magnitude of a block for its scale. -/
def wholeFloats : ExpertFloats Int where
  zero := 0
  one := 1
  add := (· + ·)
  mul := (· * ·)
  div := (· / ·)
  fma := fun a b c => a * b + c
  abs := fun a => a.natAbs
  greater := fun a b => decide (b < a)
  inv127 := 1
  rint := id
  ofInt := id
  half := fun bits => bits.toNat

end KairosEngine.Cuda
