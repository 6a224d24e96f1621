import KairosEngine.Library.LoopNest
import KairosEngine.Library.Scatter
import KairosEngine.Cuda.ExpertGemv

/-!
# The packed product of a whole tile of tokens

A prefill multiplies the packed rows with up to eight tokens a warp and unpacks each chunk once.
Token for token it leaves what a decode of that token would compute.
-/

namespace KairosEngine.Cuda

open KairosEngine.Library

/-! ## The quantizer of many tokens -/

section Quant

variable {F : Type} (floats : QuantFloats F)

/-- The vector of a token, `X + t * in`. -/
def tokenRow {Value : Type} (X : Nat → Value) (stride t i : Nat) : Value := X (t * stride + i)

/-- What `k_quant_act_int8_batched` leaves behind: the codes and the scales of the tokens. -/
def kQuantActInt8Batched (X : Nat → F) (n inputs npad : Nat) :
    List (Nat × Int8) × List (Nat × F) :=
  ((List.range n).flatMap fun t => (List.range (npad >>> 4)).flatMap fun b =>
      (List.range 16).map fun i =>
        (t * npad + (16 * b + i), (kQuantActInt8 floats (tokenRow X inputs t) inputs).1 (16 * b + i)),
    (List.range n).flatMap fun t => (List.range (npad >>> 4)).map fun b =>
      (t * (npad >>> 4) + b, (kQuantActInt8 floats (tokenRow X inputs t) inputs).2 b))

end Quant

/-! ## The product of a tile -/

/-- `wa`: the words of a chunk, unpacked. -/
def unpackedWords (row : Nat → UInt8) (c : Nat) : Nat → BitVec 32 :=
  let wv := loadInt4 (fun byte => (row byte).toBitVec) c
  let words := [wv.x, wv.y, wv.z, wv.w].flatMap fun w => [(spUnpack8 w).1, (spUnpack8 w).2]
  fun index => words.getD index 0

/-- `a0` and `a1` of a token. -/
def tokenChunk (wa : Nat → BitVec 32) (qx : Nat → Int8) (c : Nat) : Option (Int × Int) := do
  let q0 := loadInt4 (fun i => (qx i).toBitVec) (2 * c)
  let q1 := loadInt4 (fun i => (qx i).toBitVec) (2 * c + 1)
  let a0 ← dp4a (wa 0) q0.x 0
  let a0 ← dp4a (wa 1) q0.y a0
  let a0 ← dp4a (wa 2) q0.z a0
  let a0 ← dp4a (wa 3) q0.w a0
  let a1 ← dp4a (wa 4) q1.x 0
  let a1 ← dp4a (wa 5) q1.y a1
  let a1 ← dp4a (wa 6) q1.z a1
  let a1 ← dp4a (wa 7) q1.w a1
  return (a0, a1)

section Gemm

variable {F : Type} (floats : GemvFloats F) (arena : Q4bArena) (cols npad : Nat) (qx : Nat → Int8)
  (sxb : Nat → F) (out n : Nat)

/-- The `facc` of a lane for the `nt` tokens from `tb` on. -/
def tileLane (j tb nt lane : Nat) : Option (Nat → F) :=
  runEach (fun c facc =>
    let wa := unpackedWords (arena.rowCodes j) c
    runEach (fun tt facc => (tokenChunk wa (tokenRow qx npad (tb + tt)) c).map fun sums =>
        Function.update facc tt (addChunk floats arena (tokenRow sxb (npad >>> 4) (tb + tt)) j c
          (facc tt) sums.1 sums.2))
      (List.range nt) facc)
    (laneChunks (cols >>> 5) lane) fun _ => floats.zero

/-- What a warp of `k_gemm_q4b_dp4a` writes: `tile` is `blockIdx.y`. -/
def gemmWarp (j tile : Nat) : Option (List (Nat × F)) :=
  let tb := tile * 8
  if j ≥ out ∨ tb ≥ n then some []
  else do
    let nt := if n - tb < 8 then n - tb else 8
    let sums ← (List.range 32).mapM fun lane =>
      tileLane floats arena cols npad qx sxb j tb nt lane
    return (List.range nt).map fun tt =>
      ((tb + tt) * out + j, [16, 8, 4, 2, 1].foldl (fun facc o => shflDown floats o facc)
        (fun lane => sums.getD lane (fun _ => floats.zero) tt) 0)

/-- The launch of `gemm_q4b_dp4a_batched`: a warp a row, eight to a block, by tiles of tokens. -/
def kGemmQ4bDp4a : Option (List (Nat × F)) :=
  ((List.range ((out + 7) / 8)).flatMap fun block => (List.range 8).flatMap fun warp =>
    (List.range ((n + 7) / 8)).map fun tile => (block * 8 + warp, tile)).mapM
      (fun task => gemmWarp floats arena cols npad qx sxb out n task.1 task.2) |>.map List.flatten

end Gemm

/-- A packed tensor on the card. -/
structure DevTensor where
  arena : Q4bArena
  inputs : Nat
  out : Nat
  prec : Nat
  hasBscale : Bool

/-- The buffers of `gemm_q4b_dp4a_batched` before and behind its two launches. -/
structure BatchedBuffers (F : Type) where
  qx : Nat → Int8
  sxb : Nat → F
  Y : Nat → F

section Run

variable {F : Type} (floats : ExpertFloats F)

/-- A call that takes the packed path; otherwise the caller goes another way. -/
structure BatchedRun (W : DevTensor) (X : Nat → F) (nTok : Nat)
    (before after : BatchedBuffers F) : Prop where
  q4b : W.hasBscale = true ∧ W.prec = 4
  chunks : W.inputs &&& 31 = 0
  codes : Landed before.qx (kQuantActInt8Batched floats.toQuantFloats X nTok W.inputs
    ((W.inputs + 31) / 32 * 32)).1 after.qx
  scales : Landed before.sxb (kQuantActInt8Batched floats.toQuantFloats X nTok W.inputs
    ((W.inputs + 31) / 32 * 32)).2 after.sxb
  products : ∃ writes, kGemmQ4bDp4a floats.toGemvFloats W.arena W.inputs
    ((W.inputs + 31) / 32 * 32) after.qx after.sxb W.out nTok = some writes ∧
      Landed before.Y writes after.Y

end Run

/-! ## The buffers of the quantizer -/

section Buffers

variable {F : Type} {floats : QuantFloats F} {X : Nat → F} {n inputs npad : Nat}

theorem batchedCodes_get {before after : Nat → Int8} (whole : 16 ∣ npad)
    (landed : Landed before (kQuantActInt8Batched floats X n inputs npad).1 after) {t : Nat}
    (token : t < n) {i : Nat} (inside : i < npad) :
    tokenRow after npad t i = (kQuantActInt8 floats (tokenRow X inputs t) inputs).1 i := by
  have blocks : npad >>> 4 = npad / 16 := Nat.shiftRight_eq_div_pow npad 4
  have place : 16 * (i / 16) + i % 16 = i := Nat.div_add_mod i 16
  obtain ⟨count, rfl⟩ := whole
  apply landed.get
  · refine List.mem_flatMap.mpr ⟨t, List.mem_range.mpr token, List.mem_flatMap.mpr
      ⟨i / 16, List.mem_range.mpr (by omega), List.mem_map.mpr
        ⟨i % 16, List.mem_range.mpr (Nat.mod_lt _ (by decide)), ?_⟩⟩⟩
    rw [place]
  · intro other member
    obtain ⟨u, _, member⟩ := List.mem_flatMap.mp member
    obtain ⟨b, inRow, member⟩ := List.mem_flatMap.mp member
    obtain ⟨k, small, same⟩ := List.mem_map.mp member
    rw [List.mem_range] at inRow small
    obtain ⟨address, rfl⟩ := Prod.mk.injEq .. ▸ same
    obtain ⟨rfl, rfl⟩ := split_place (by omega) inside address
    rfl

theorem batchedScales_get {before after : Nat → F}
    (landed : Landed before (kQuantActInt8Batched floats X n inputs npad).2 after) {t : Nat}
    (token : t < n) {b : Nat} (inside : b < npad >>> 4) :
    tokenRow after (npad >>> 4) t b = (kQuantActInt8 floats (tokenRow X inputs t) inputs).2 b := by
  apply landed.get
  · exact List.mem_flatMap.mpr ⟨t, List.mem_range.mpr token, List.mem_map.mpr
      ⟨b, List.mem_range.mpr inside, rfl⟩⟩
  · intro other member
    obtain ⟨u, _, member⟩ := List.mem_flatMap.mp member
    obtain ⟨k, inRow, same⟩ := List.mem_map.mp member
    rw [List.mem_range] at inRow
    obtain ⟨address, rfl⟩ := Prod.mk.injEq .. ▸ same
    obtain ⟨rfl, rfl⟩ := split_place inRow inside address
    rfl

theorem kQuantActInt8_quantized (x : Nat → F) (cols : Nat) :
    Quantized (kQuantActInt8 floats x inputs).1 cols := fun _ _ => toInt_clamped _

end Buffers

/-! ## The tile and the single token -/

/-- Unpacked in advance or on the way, the words are the same. -/
theorem tokenChunk_unpacked (row : Nat → UInt8) (qx : Nat → Int8) (c : Nat) :
    tokenChunk (unpackedWords row c) qx c = gemvChunk row qx c := by
  simp only [tokenChunk, gemvChunk, dotUnpacked, Option.bind_eq_bind, Option.bind_assoc]
  rfl

section Tile

variable {F : Type} (floats : GemvFloats F) (arena : Q4bArena) {cols npad : Nat} {qx : Nat → Int8}
  (sxb : Nat → F)

/-- A lane of a tile holds for each token the sum of that token's own product. -/
theorem tileLane_eq (j tb nt lane : Nat)
    (quantized : ∀ tt < nt, Quantized (tokenRow qx npad (tb + tt)) cols) :
    ∃ facc, tileLane floats arena cols npad qx sxb j tb nt lane = some facc ∧ ∀ tt < nt,
      facc tt = exactLaneSum floats arena (tokenRow sxb (npad >>> 4) (tb + tt)) j cols
        (tokenRow qx npad (tb + tt)) lane := by
  let visit (c tt : Nat) (facc : F) : F :=
    addChunk floats arena (tokenRow sxb (npad >>> 4) (tb + tt)) j c facc
      (dot (arena.rowCodes j) (tokenRow qx npad (tb + tt)) (32 * c) 16)
      (dot (arena.rowCodes j) (tokenRow qx npad (tb + tt)) (32 * c + 16) 16)
  refine ⟨(laneChunks (cols >>> 5) lane).foldl
    (fun facc c => updateEach (visit c) (List.range nt) facc) fun _ => floats.zero, ?_, ?_⟩
  · apply runEach_eq_foldl
    intro c member facc
    have below := mem_laneChunks member
    rw [Nat.shiftRight_eq_div_pow] at below
    apply runEach_eq_updateEach
    intro tt inTile facc
    rw [tokenChunk_unpacked,
      gemvChunk_eq (quantized tt (List.mem_range.mp inTile)) (by omega), Option.map_some]
  · intro tt inTile
    exact foldl_updateEach visit List.nodup_range _ _ (List.mem_range.mpr inTile)

variable (out n : Nat) (quantized : ∀ t < n, Quantized (tokenRow qx npad t) cols)

include quantized

/-- The product of a token alone. -/
theorem kGemvQ4bDp4aV2_token (j : Nat) {t : Nat} (token : t < n) :
    ∃ value, kGemvQ4bDp4aV2 floats arena cols (tokenRow qx npad t)
      (tokenRow sxb (npad >>> 4) t) j = some value :=
  ⟨_, kGemvQ4bDp4aV2_eq floats arena _ j (quantized t token)⟩

/-- A warp writes the products of its row with the tokens of its tile. -/
theorem gemmWarp_eq {j tile : Nat} (row : j < out) (first : tile * 8 < n) :
    ∃ writes, gemmWarp floats arena cols npad qx sxb out n j tile = some writes ∧
      ∀ address value, (address, value) ∈ writes ↔ ∃ t < n, t / 8 = tile ∧
        address = t * out + j ∧ kGemvQ4bDp4aV2 floats arena cols (tokenRow qx npad t)
          (tokenRow sxb (npad >>> 4) t) j = some value := by
  have clamp : (if n - tile * 8 < 8 then n - tile * 8 else 8) = min (n - tile * 8) 8 := by
    split <;> omega
  have lanes := fun lane => tileLane_eq floats arena sxb j (tile * 8) (min (n - tile * 8) 8) lane
    fun tt inTile => quantized (tile * 8 + tt) (by omega)
  choose facc computed exactly using lanes
  have value : ∀ tt < min (n - tile * 8) 8,
      kGemvQ4bDp4aV2 floats arena cols (tokenRow qx npad (tile * 8 + tt))
          (tokenRow sxb (npad >>> 4) (tile * 8 + tt)) j =
        some ([16, 8, 4, 2, 1].foldl (fun facc o => shflDown floats o facc)
          (fun lane => ((List.range 32).map facc).getD lane (fun _ => floats.zero) tt) 0) := by
    intro tt inTile
    have sums : (fun lane => ((List.range 32).map (exactLaneSum floats arena
          (tokenRow sxb (npad >>> 4) (tile * 8 + tt)) j cols
          (tokenRow qx npad (tile * 8 + tt)))).getD lane floats.zero) =
        fun lane => ((List.range 32).map facc).getD lane (fun _ => floats.zero) tt := by
      funext lane
      rcases Nat.lt_or_ge lane 32 with inWarp | beyond
      · rw [List.getD_eq_getElem _ _ (by simpa using inWarp),
          List.getD_eq_getElem _ _ (by simpa using inWarp), List.getElem_map, List.getElem_map,
          List.getElem_range, exactly lane tt inTile]
      · rw [List.getD_eq_default _ _ (by simpa using beyond),
          List.getD_eq_default _ _ (by simpa using beyond)]
    rw [kGemvQ4bDp4aV2_eq floats arena _ j (quantized (tile * 8 + tt) (by omega)), sums]
  refine ⟨(List.range (min (n - tile * 8) 8)).map fun tt => ((tile * 8 + tt) * out + j,
    [16, 8, 4, 2, 1].foldl (fun facc o => shflDown floats o facc)
      (fun lane => ((List.range 32).map facc).getD lane (fun _ => floats.zero) tt) 0), ?_, ?_⟩
  · unfold gemmWarp
    dsimp only
    rw [if_neg (by omega), clamp, mapM_eq_some_map fun lane _ => computed lane]
    rfl
  · intro address v
    simp only [List.mem_map, List.mem_range, Prod.mk.injEq]
    constructor
    · rintro ⟨tt, inTile, rfl, rfl⟩
      exact ⟨tile * 8 + tt, by omega, by omega, rfl, value tt inTile⟩
    · rintro ⟨t, token, rfl, rfl, computed⟩
      have place : t / 8 * 8 + t % 8 = t := Nat.div_add_mod' t 8
      have inTile : t % 8 < min (n - t / 8 * 8) 8 := by omega
      have here := value (t % 8) inTile
      rw [place, computed, Option.some.injEq] at here
      exact ⟨t % 8, inTile, by rw [place], here.symm⟩

/-- Over its grid the launch writes every row of every token, and nothing else. -/
theorem kGemmQ4bDp4a_eq :
    ∃ writes, kGemmQ4bDp4a floats arena cols npad qx sxb out n = some writes ∧
      ∀ address value, (address, value) ∈ writes ↔ ∃ t < n, ∃ j < out,
        address = t * out + j ∧ kGemvQ4bDp4aV2 floats arena cols (tokenRow qx npad t)
          (tokenRow sxb (npad >>> 4) t) j = some value := by
  have warps : ∀ task : Nat × Nat, ∃ writes,
      gemmWarp floats arena cols npad qx sxb out n task.1 task.2 = some writes ∧
        ∀ address value, (address, value) ∈ writes ↔ ∃ t < n, t / 8 = task.2 ∧ task.1 < out ∧
          address = t * out + task.1 ∧ kGemvQ4bDp4aV2 floats arena cols (tokenRow qx npad t)
            (tokenRow sxb (npad >>> 4) t) task.1 = some value := by
    rintro ⟨j, tile⟩
    by_cases inside : j < out ∧ tile * 8 < n
    · obtain ⟨writes, computed, listed⟩ :=
        gemmWarp_eq floats arena sxb out n quantized inside.1 inside.2
      refine ⟨writes, computed, fun address value => (listed address value).trans ?_⟩
      simp only [inside.1, true_and]
    · refine ⟨[], by rw [gemmWarp, if_pos (by omega)], fun address value => ?_⟩
      simp only [List.not_mem_nil, false_iff]
      rintro ⟨t, token, sameTile, row, _⟩
      omega
  choose result computed listed using warps
  refine ⟨((List.range ((out + 7) / 8)).flatMap fun block => (List.range 8).flatMap fun warp =>
    (List.range ((n + 7) / 8)).map fun tile => (block * 8 + warp, tile)).flatMap result, ?_, ?_⟩
  · rw [kGemmQ4bDp4a, mapM_eq_some_map fun task _ => computed task]
    rfl
  · intro address value
    rw [List.mem_flatMap]
    constructor
    · rintro ⟨⟨j, tile⟩, _, member⟩
      obtain ⟨t, token, _, row, same, value⟩ := (listed _ _ _).mp member
      exact ⟨t, token, j, row, same, value⟩
    · rintro ⟨t, token, j, row, same, value⟩
      refine ⟨(j, t / 8), ?_, (listed _ _ _).mpr ⟨t, token, rfl, row, same, value⟩⟩
      have place : j / 8 * 8 + j % 8 = j := Nat.div_add_mod' j 8
      refine List.mem_flatMap.mpr ⟨j / 8, List.mem_range.mpr (by omega), List.mem_flatMap.mpr
        ⟨j % 8, List.mem_range.mpr (Nat.mod_lt _ (by decide)), List.mem_map.mpr
          ⟨t / 8, List.mem_range.mpr (by omega), by rw [place]⟩⟩⟩

end Tile

/-- The product reads the codes of the row and the scales of its blocks. -/
theorem kGemvQ4bDp4aV2_congr {F : Type} (floats : GemvFloats F) (arena : Q4bArena) {cols : Nat}
    {qx other : Nat → Int8} {sxb scales : Nat → F} (j : Nat) (quantized : Quantized qx cols)
    (sameCodes : ∀ i < cols, qx i = other i) (sameScales : ∀ b < cols / 16, sxb b = scales b) :
    kGemvQ4bDp4aV2 floats arena cols qx sxb j = kGemvQ4bDp4aV2 floats arena cols other scales j := by
  have alsoQuantized : Quantized other cols := fun i inside => sameCodes i inside ▸ quantized i inside
  have sums : exactLaneSum floats arena sxb j cols qx =
      exactLaneSum floats arena scales j cols other := by
    funext lane
    apply List.foldl_ext
    intro facc c member
    have below := mem_laneChunks member
    rw [Nat.shiftRight_eq_div_pow] at below
    rw [dot_congr fun i inside => sameCodes i (by omega),
      dot_congr fun i inside => sameCodes i (by omega), addChunk, addChunk,
      sameScales (2 * c) (by omega), sameScales (2 * c + 1) (by omega)]
  rw [kGemvQ4bDp4aV2_eq floats arena _ j quantized, kGemvQ4bDp4aV2_eq floats arena _ j alsoQuantized,
    sums]

theorem buffers_quantized {F : Type} (floats : QuantFloats F) {X : Nat → F} {nTok inputs : Nat}
    {before after : Nat → Int8} (chunks : inputs % 32 = 0)
    (codes : Landed before (kQuantActInt8Batched floats X nTok inputs inputs).1 after) :
    ∀ t < nTok, Quantized (tokenRow after inputs t) inputs := by
  intro t token i inside
  rw [batchedCodes_get (Nat.dvd_of_mod_eq_zero (by omega)) codes token inside]
  exact toInt_clamped _

/-- On packed weights in whole chunks the call finishes. -/
theorem exists_batchedRun {F : Type} (floats : ExpertFloats F) {W : DevTensor} (X : Nat → F)
    (nTok : Nat) (before : BatchedBuffers F) (q4b : W.hasBscale = true ∧ W.prec = 4)
    (chunks : W.inputs % 32 = 0) : ∃ after, BatchedRun floats W X nTok before after := by
  have padded : (W.inputs + 31) / 32 * 32 = W.inputs := by omega
  let rows := kQuantActInt8Batched floats.toQuantFloats X nTok W.inputs W.inputs
  have codes : Landed before.qx rows.1 (scatter before.qx rows.1) := landed_scatter
  obtain ⟨writes, computed, _⟩ := kGemmQ4bDp4a_eq floats.toGemvFloats W.arena
    (scatter before.sxb rows.2) W.out nTok (buffers_quantized floats.toQuantFloats chunks codes)
  refine ⟨⟨scatter before.qx rows.1, scatter before.sxb rows.2, scatter before.Y writes⟩, ?_⟩
  constructor
  · exact q4b
  · rwa [show W.inputs &&& 31 = W.inputs % 32 from Nat.and_two_pow_sub_one_eq_mod _ 5]
  · rw [padded]
    exact codes
  · rw [padded]
    exact landed_scatter
  · rw [padded]
    exact ⟨writes, computed, landed_scatter⟩

/-- A prefill on packed weights leaves for every token what the single-token product computes from
the single-token quantizer, in whatever order its writes land, and leaves the rest alone. -/
theorem gemmQ4bDp4aBatched_eq {F : Type} (floats : ExpertFloats F) (W : DevTensor) (X : Nat → F)
    (nTok : Nat) (before after : BatchedBuffers F)
    (run : BatchedRun floats W X nTok before after) :
    (∀ t < nTok, ∀ j < W.out,
        kGemvQ4bDp4aV2 floats.toGemvFloats W.arena W.inputs
          (kQuantActInt8 floats.toQuantFloats (tokenRow X W.inputs t) W.inputs).1
          (kQuantActInt8 floats.toQuantFloats (tokenRow X W.inputs t) W.inputs).2 j =
            some (after.Y (t * W.out + j))) ∧
      ∀ address ≥ nTok * W.out, after.Y address = before.Y address := by
  obtain ⟨_, chunks, codes, scales, writes, computed, landed⟩ := run
  rw [show W.inputs &&& 31 = W.inputs % 32 from Nat.and_two_pow_sub_one_eq_mod _ 5] at chunks
  have padded : (W.inputs + 31) / 32 * 32 = W.inputs := by omega
  have blocks : W.inputs >>> 4 = W.inputs / 16 := Nat.shiftRight_eq_div_pow _ 4
  have inCodes : ∀ t < nTok, ∀ i < W.inputs, tokenRow after.qx W.inputs t i =
      (kQuantActInt8 floats.toQuantFloats (tokenRow X W.inputs t) W.inputs).1 i := by
    intro t token i inside
    rw [padded] at codes
    exact batchedCodes_get (Nat.dvd_of_mod_eq_zero (by omega)) codes token inside
  have inScales : ∀ t < nTok, ∀ b < W.inputs / 16, tokenRow after.sxb (W.inputs >>> 4) t b =
      (kQuantActInt8 floats.toQuantFloats (tokenRow X W.inputs t) W.inputs).2 b := by
    intro t token b inside
    rw [padded] at scales
    exact batchedScales_get scales token (by rwa [blocks])
  rw [padded] at codes computed
  have quantized := buffers_quantized floats.toQuantFloats chunks codes
  obtain ⟨listing, asComputed, listed⟩ := kGemmQ4bDp4a_eq floats.toGemvFloats W.arena after.sxb W.out
    nTok quantized
  obtain rfl : listing = writes := Option.some.inj (asComputed.symm.trans computed)
  constructor
  · intro t token j row
    have single := kGemvQ4bDp4aV2_congr floats.toGemvFloats W.arena j (quantized t token)
      (inCodes t token) (inScales t token)
    obtain ⟨value, there⟩ := kGemvQ4bDp4aV2_token floats.toGemvFloats W.arena after.sxb nTok quantized
      j token
    rw [← single, there]
    refine congrArg some (landed.get ((listed _ _).mpr ⟨t, token, j, row, rfl, there⟩) ?_).symm
    intro other member
    obtain ⟨u, _, k, otherRow, same, computed⟩ := (listed _ _).mp member
    obtain ⟨rfl, rfl⟩ := split_place row otherRow same
    exact Option.some.inj (computed.symm.trans there)
  · intro address beyond
    apply landed.untouched
    intro value member
    obtain ⟨t, token, j, row, rfl, _⟩ := (listed _ _).mp member
    have inside : (t + 1) * W.out ≤ nTok * W.out := Nat.mul_le_mul_right _ token
    rw [Nat.add_mul, Nat.one_mul] at inside
    omega

/-- Two rows for the product. -/
def twoRows : DevTensor where
  arena := expertArena (List.replicate 32 0x7F) [2, 3] 32
  inputs := 32
  out := 2
  prec := 4
  hasBscale := true

/-- Nine tokens, the last in a tile of its own. -/
theorem gemmQ4bDp4aBatched_eq_nine :
    ∃ after, BatchedRun wholeFloats twoRows (fun i => i) 9 ⟨fun _ => 0, fun _ => 0, fun _ => 0⟩ after ∧
      kGemvQ4bDp4aV2 wholeFloats.toGemvFloats twoRows.arena 32
        (kQuantActInt8 wholeFloats.toQuantFloats (tokenRow (fun i => i) 32 8) 32).1
        (kQuantActInt8 wholeFloats.toQuantFloats (tokenRow (fun i => i) 32 8) 32).2 1 =
          some (after.Y 17) := by
  obtain ⟨after, run⟩ := @exists_batchedRun _ wholeFloats twoRows (fun i => i) 9
    ⟨fun _ => 0, fun _ => 0, fun _ => 0⟩ ⟨rfl, rfl⟩ (by decide)
  exact ⟨after, run, (gemmQ4bDp4aBatched_eq wholeFloats twoRows _ 9 _ after run).1 8 (by decide) 1
    (by decide)⟩

end KairosEngine.Cuda
