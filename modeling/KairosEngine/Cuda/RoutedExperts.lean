import KairosEngine.Cuda.BatchedGemm
import KairosEngine.Cuda.HostFreeMid

/-!
# The routed experts of a decoded token

The grouped launches compute the experts that are resident, the host computes the others from the
pinned arena, and one kernel adds all of them up in ascending order.  Where an expert is computed
does not show in the sum.
-/

namespace KairosEngine.Cuda

open KairosEngine.Library

/-- The gate, on the card and on the host. -/
structure GateFloats (F : Type) extends ExpertFloats F where
  /-- An element of `k_moe_gelu_split_batch`, from its gate half and its up half. -/
  gelu : F → F → F
  /-- `gelu_exact`. -/
  geluExact : F → F → F

/-- The packed rows of an expert in the pinned arena, and in the slot they are copied to. -/
structure ExpertCodes where
  gupCodes : List UInt8
  gupBs : List UInt16
  downCodes : List UInt8
  downBs : List UInt16

/-! ## The kernels of the grouped path -/

section Kernels

variable {F : Type} (floats : GateFloats F)

/-- A warp of `k_gemv_q4b_dp4a_grp`. -/
def grpWarp (cols : Nat) (qxAll : Nat → Int8) (qxStride : Nat) (sxbAll : Nat → F)
    (sxStride yStride out : Nat) (entry : (Q4bArena × Nat) × Nat) (j : Nat) :
    Option (List (Nat × F)) :=
  if j ≥ out then some []
  else (g4GemvQ4bDp4aBody floats.toExpertFloats entry.1.1 cols (tokenRow qxAll qxStride entry.2)
    (tokenRow sxbAll sxStride entry.2) j).map fun value => [(entry.1.2 * yStride + j, value)]

/-- `k_gemv_q4b_dp4a_grp`: a table of rows and their slots, eight warps to a block. -/
def kGemvQ4bDp4aGrp (table : List (Q4bArena × Nat)) (cols : Nat) (qxAll : Nat → Int8)
    (qxStride : Nat) (sxbAll : Nat → F) (sxStride yStride out : Nat) : Option (List (Nat × F)) :=
  (table.zipIdx.flatMap fun entry => (List.range ((out + 7) / 8)).flatMap fun block =>
    (List.range 8).map fun warp => (entry, block * 8 + warp)).mapM
      (fun task => grpWarp floats cols qxAll qxStride sxbAll sxStride yStride out task.1 task.2)
    |>.map List.flatten

/-- `k_moe_gelu_split_batch`. -/
def kMoeGeluSplitBatch (gu : Nat → F) (ffe nrows : Nat) : List (Nat × F) :=
  (List.range (nrows * ffe)).map fun i =>
    let g := tokenRow gu (2 * ffe) (i / ffe)
    (i, floats.gelu (g (i % ffe)) (g (ffe + i % ffe)))

end Kernels

/-! ## The functions of the host -/

section Host

variable {F : Type} (floats : GateFloats F)

/-- `sp_moe_cpu_gemv`, with the shares of all threads done; `stale` is what lies on the stack. -/
def spMoeCpuGemv (codes : List UInt8) (bs : List UInt16) (inputs rows : Nat) (qx : List Int8)
    (sx : List F) (y : Nat → F) (stale : (Nat → Int) × (Nat → Int)) : Option (Nat → F) :=
  if inputs &&& 31 ≠ 0 ∨ inputs > 4096 then none
  else some (gemvRowsExact floats.toExpertFloats codes bs (actxFromQ qx inputs) sx 0 rows y stale.1
    stale.2)

def spMoeCpuGelu (gu : Nat → F) (ffe : Nat) (h : Nat → F) (c : Nat) : F :=
  if c < ffe then floats.geluExact (gu c) (gu (ffe + c)) else h c

/-- What the buffers of the host hold before a call. -/
structure HostBuffers (F : Type) where
  gu : Nat → F
  h : Nat → F
  out : Nat → F
  stale : (Nat → Int) × (Nat → Int)

/-- An expert on the host, with the tables of the gate built. -/
def hostExpert (codes : ExpertCodes) (x : Nat → F) (E FFE : Nat) (buffers : HostBuffers F) :
    Option (Nat → F) := do
  let (qx, sx) ← spMoeCpuQuant floats.toQuantFloats x E
  let gu ← spMoeCpuGemv floats codes.gupCodes codes.gupBs E (2 * FFE) qx sx buffers.gu buffers.stale
  let (hq, hs) ← spMoeCpuQuant floats.toQuantFloats (spMoeCpuGelu floats gu FFE buffers.h) FFE
  spMoeCpuGemv floats codes.downCodes codes.downBs FFE E hq hs buffers.out buffers.stale

end Host

/-! ## An expert on the card -/

section Card

variable {F : Type} (floats : GateFloats F)

/-- What the card computes for a row of an expert, all of it in a slot. -/
def cardExpert (codes : ExpertCodes) (x : Nat → F) (E FFE i : Nat) : Option F := do
  let quantIn := kQuantActInt8 floats.toQuantFloats x E
  let gu ← (List.range (2 * FFE)).mapM (g4GemvQ4bDp4aBody floats.toExpertFloats
    (expertArena codes.gupCodes codes.gupBs E) E quantIn.1 quantIn.2)
  let h := fun c => floats.gelu (gu.getD c floats.zero) (gu.getD (FFE + c) floats.zero)
  let quantMid := kQuantActInt8 floats.toQuantFloats h FFE
  g4GemvQ4bDp4aBody floats.toExpertFloats (expertArena codes.downCodes codes.downBs FFE) FFE
    quantMid.1 quantMid.2 i

end Card

/-! ## A layer -/

/-- The buffers of a `MoeScratch` that the grouped path writes; `gqx` and `gsx` in their two
parts. -/
structure GroupedBuffers (F : Type) where
  qxE : Nat → Int8
  sxE : Nat → F
  ggu : Nat → F
  gh : Nat → F
  qxF : Nat → Int8
  sxF : Nat → F
  gout : Nat → F

/-- The experts of a layer and the vector they all read. -/
structure ExpertLayer (F : Type) where
  E : Nat
  FFE : Nat
  codes : Nat → ExpertCodes
  /-- `ms->in`. -/
  x : Nat → F

/-- The resident experts among the active ones, with their places. -/
def hitsOf (ready : Nat → Bool) (active : List Nat) : List (Nat × Nat) :=
  active.zipIdx.filter fun entry => ready entry.1

/-- The others. -/
def missesOf (ready : Nat → Bool) (active : List Nat) : List (Nat × Nat) :=
  active.zipIdx.filter fun entry => !ready entry.1

section Layer

variable {F : Type} (floats : GateFloats F) (layer : ExpertLayer F)

/-- The launches for the resident experts. -/
structure GroupedLaunch (hits : List (Nat × Nat)) (before after : GroupedBuffers F) : Prop where
  codesIn : ∀ i < layer.E, after.qxE i = (kQuantActInt8 floats.toQuantFloats layer.x layer.E).1 i
  scalesIn : ∀ b < layer.E / 16,
    after.sxE b = (kQuantActInt8 floats.toQuantFloats layer.x layer.E).2 b
  gateUp : ∃ writes, kGemvQ4bDp4aGrp floats
      (hits.zipIdx.map fun hit => (expertArena (layer.codes hit.1.1).gupCodes
        (layer.codes hit.1.1).gupBs layer.E, hit.2))
      layer.E after.qxE 0 after.sxE 0 (2 * layer.FFE) (2 * layer.FFE) = some writes ∧
    Landed before.ggu writes after.ggu
  gelu : Landed before.gh (kMoeGeluSplitBatch floats after.ggu layer.FFE hits.length) after.gh
  codesMid : Landed before.qxF (kQuantActInt8Batched floats.toQuantFloats after.gh hits.length
    layer.FFE layer.FFE).1 after.qxF
  scalesMid : Landed before.sxF (kQuantActInt8Batched floats.toQuantFloats after.gh hits.length
    layer.FFE layer.FFE).2 after.sxF
  down : ∃ writes, kGemvQ4bDp4aGrp floats
      (hits.map fun hit => (expertArena (layer.codes hit.1).downCodes (layer.codes hit.1).downBs
        layer.FFE, hit.2))
      layer.FFE after.qxF layer.FFE after.sxF (layer.FFE >>> 4) layer.E layer.E = some writes ∧
    Landed before.gout writes after.gout

/-- A row that is copied to its place. -/
def writeRow (memory : Nat → F) (stride place : Nat) (row : Nat → F) (address : Nat) : F :=
  if place * stride ≤ address ∧ address < (place + 1) * stride then row (address - place * stride)
  else memory address

/-- A loop in which every item leaves a row at its place, unless one fails. -/
def writeRows {Item : Type} (compute : Item → (Nat → F) → Option (Nat → F)) (stride : Nat)
    (place : Item → Nat) (items : List Item) (memory : Nat → F) : Option (Nat → F) :=
  runEach (fun item memory =>
    (compute item memory).map (writeRow memory stride (place item))) items memory

/-- The rows of the host, one behind the other: `cout_h`. -/
def hostRows (buffers : Nat → HostBuffers F) (misses : List (Nat × Nat)) (cout : Nat → F) :
    Option (Nat → F) :=
  writeRows (fun miss cout => hostExpert floats (layer.codes miss.1.1) layer.x layer.E layer.FFE
      { buffers miss.2 with out := tokenRow cout layer.E miss.2 })
    layer.E Prod.snd misses.zipIdx cout

/-- The grouped path of a layer whose other experts run on the host alone: their rows go up in one
copy, behind the eight of the card. -/
structure HostLayer (ready : Nat → Bool) (active : List Nat) (before after : GroupedBuffers F)
    (gout : Nat → F) : Prop where
  wholeE : layer.E &&& 31 = 0
  wholeF : layer.FFE &&& 31 = 0
  few : active.length ≤ 8
  launched : hitsOf ready active ≠ [] → GroupedLaunch floats layer (hitsOf ready active) before after
  uploaded : ∃ buffers cout0 cout,
    hostRows floats layer buffers (missesOf ready active) cout0 = some cout ∧
      gout = fun address =>
        if 8 * layer.E ≤ address ∧ address < (8 + (missesOf ready active).length) * layer.E then
          cout (address - 8 * layer.E)
        else after.gout address

/-- The gate and up rows of the host: `cgu_h`. -/
def hostGateUp (stale : Nat → (Nat → Int) × (Nat → Int)) (misses : List (Nat × Nat)) (qx : List Int8)
    (sx : List F) (cgu : Nat → F) : Option (Nat → F) :=
  writeRows (fun miss cgu => spMoeCpuGemv floats (layer.codes miss.1.1).gupCodes
      (layer.codes miss.1.1).gupBs layer.E (2 * layer.FFE) qx sx
      (tokenRow cgu (2 * layer.FFE) miss.2) (stale miss.2))
    (2 * layer.FFE) Prod.snd misses.zipIdx cgu

/-- The down rows of the host, each uploaded to the place of its expert; `cq_h` and `csx_h` have the
codes and the scales that came back from the card. -/
def hostDown (stale : Nat → (Nat → Int) × (Nat → Int)) (cout : Nat → Nat → F)
    (misses : List (Nat × Nat)) (cq : Nat → Int8) (csx : Nat → F) (gout : Nat → F) :
    Option (Nat → F) :=
  writeRows (fun miss _ => spMoeCpuGemv floats (layer.codes miss.1.1).downCodes
      (layer.codes miss.1.1).downBs layer.FFE layer.E
      ((List.range layer.FFE).map (tokenRow cq layer.FFE miss.2))
      ((List.range (layer.FFE / 16)).map (tokenRow csx (layer.FFE >>> 4) miss.2))
      (cout miss.2) (stale miss.2))
    layer.E (fun miss => miss.1.2) misses.zipIdx gout

/-- What the round trip writes beside `gout`. -/
structure TripBuffers (F : Type) where
  cgu : Nat → F
  gh : Nat → F
  qx : Nat → Int8
  sx : Nat → F

/-- The grouped path of a layer whose other experts go back to the card for the gate. -/
structure RoundTripLayer (ready : Nat → Bool) (active : List Nat)
    (before after : GroupedBuffers F) (old new : TripBuffers F) (gout : Nat → F) : Prop where
  wholeE : layer.E &&& 31 = 0
  wholeF : layer.FFE &&& 31 = 0
  few : active.length ≤ 8
  launched : hitsOf ready active ≠ [] → GroupedLaunch floats layer (hitsOf ready active) before after
  gateUp : ∃ qx sx stale, spMoeCpuQuant floats.toQuantFloats layer.x layer.E = some (qx, sx) ∧
    hostGateUp floats layer stale (missesOf ready active) qx sx old.cgu = some new.cgu
  gelu : Landed old.gh (kMoeGeluSplitBatch floats new.cgu layer.FFE (missesOf ready active).length)
    new.gh
  codes : Landed old.qx (kQuantActInt8Batched floats.toQuantFloats new.gh
    (missesOf ready active).length layer.FFE layer.FFE).1 new.qx
  scales : Landed old.sx (kQuantActInt8Batched floats.toQuantFloats new.gh
    (missesOf ready active).length layer.FFE layer.FFE).2 new.sx
  down : ∃ stale cout, hostDown floats layer stale cout (missesOf ready active) new.qx new.sx
    after.gout = some gout

end Layer

/-! ## The product of a row, total -/

section Exact

variable {F : Type} (floats : ExpertFloats F) (arena : Q4bArena) (cols : Nat) (qx : Nat → Int8)
  (sxb : Nat → F) (j : Nat)

/-- What lane 0 has for a row, with the integers exact. -/
def exactBody : F :=
  [16, 8, 4, 2, 1].foldl (shuffleDown floats.add)
    (fun lane => ((List.range 32).map fun lane => (laneLoop (cols >>> 5) lane).foldl (fun facc c =>
      fusedChunk floats (arena.blockScale j c) (sxb (2 * c)) (sxb (2 * c + 1)) facc
        (dot (arena.rowCodes j) qx (32 * c) 16) (dot (arena.rowCodes j) qx (32 * c + 16) 16))
      floats.zero).getD lane floats.zero) 0

variable {cols qx}

theorem g4GemvQ4bDp4aBody_eq (quantized : Quantized qx cols) :
    g4GemvQ4bDp4aBody floats arena cols qx sxb j = some (exactBody floats arena cols qx sxb j) := by
  rw [g4GemvQ4bDp4aBody,
    mapM_eq_some_map fun lane _ => bodyLane_eq floats arena sxb j quantized lane]
  rfl

/-- The row reads the codes and the block scales of its own columns. -/
theorem exactBody_congr {other : Nat → Int8} {scales : Nat → F}
    (sameCodes : ∀ i < cols, qx i = other i) (sameScales : ∀ b < cols / 16, sxb b = scales b) :
    exactBody floats arena cols qx sxb j = exactBody floats arena cols other scales j := by
  have lanes : ∀ lane, (laneLoop (cols >>> 5) lane).foldl (fun facc c =>
      fusedChunk floats (arena.blockScale j c) (sxb (2 * c)) (sxb (2 * c + 1)) facc
        (dot (arena.rowCodes j) qx (32 * c) 16) (dot (arena.rowCodes j) qx (32 * c + 16) 16))
      floats.zero = (laneLoop (cols >>> 5) lane).foldl (fun facc c =>
      fusedChunk floats (arena.blockScale j c) (scales (2 * c)) (scales (2 * c + 1)) facc
        (dot (arena.rowCodes j) other (32 * c) 16) (dot (arena.rowCodes j) other (32 * c + 16) 16))
      floats.zero := by
    intro lane
    apply List.foldl_ext
    intro facc c member
    have below : c < cols >>> 5 := (mem_starts.mp member).2.1
    rw [Nat.shiftRight_eq_div_pow] at below
    rw [dot_congr fun i inside => sameCodes i (by omega),
      dot_congr fun i inside => sameCodes i (by omega), sameScales (2 * c) (by omega),
      sameScales (2 * c + 1) (by omega)]
  unfold exactBody
  simp only [lanes]

end Exact

/-- A quantizer reads its own vector. -/
theorem kQuantActInt8_congr {F : Type} (floats : QuantFloats F) {x y : Nat → F} {n : Nat}
    (same : ∀ i < n, x i = y i) : kQuantActInt8 floats x n = kQuantActInt8 floats y n := by
  have within : ∀ (i : Nat) (f : F → F), (if i < n then f (x i) else floats.zero) =
      if i < n then f (y i) else floats.zero := by
    intro i f
    split
    next inside => rw [same i inside]
    next => rfl
  have scaled : ∀ (i : Nat) (inv : F), (if i < n then floats.mul (x i) inv else floats.zero) =
      if i < n then floats.mul (y i) inv else floats.zero :=
    fun i inv => within i fun v => floats.mul v inv
  unfold kQuantActInt8
  simp only [within _ floats.abs, scaled]

/-! ## The grouped launches -/

section Grouped

variable {F : Type} (floats : GateFloats F)

/-- Over its grid a grouped launch writes every row of every entry of its table. -/
theorem kGemvQ4bDp4aGrp_eq {table : List (Q4bArena × Nat)} {cols : Nat} {qxAll : Nat → Int8}
    {qxStride : Nat} {sxbAll : Nat → F} {sxStride : Nat} (yStride out : Nat)
    (quantized : ∀ k < table.length, Quantized (tokenRow qxAll qxStride k) cols) :
    ∃ writes, kGemvQ4bDp4aGrp floats table cols qxAll qxStride sxbAll sxStride yStride out =
        some writes ∧
      ∀ address value, (address, value) ∈ writes ↔ ∃ k arena slot j, table[k]? = some (arena, slot) ∧
        j < out ∧ address = slot * yStride + j ∧ value = exactBody floats.toExpertFloats arena cols
          (tokenRow qxAll qxStride k) (tokenRow sxbAll sxStride k) j := by
  let result (task : ((Q4bArena × Nat) × Nat) × Nat) : List (Nat × F) :=
    if task.2 ≥ out then []
    else [(task.1.1.2 * yStride + task.2, exactBody floats.toExpertFloats task.1.1.1 cols
      (tokenRow qxAll qxStride task.1.2) (tokenRow sxbAll sxStride task.1.2) task.2)]
  have computed : ∀ task ∈ table.zipIdx.flatMap fun entry =>
      (List.range ((out + 7) / 8)).flatMap fun block =>
        (List.range 8).map fun warp => (entry, block * 8 + warp),
      grpWarp floats cols qxAll qxStride sxbAll sxStride yStride out task.1 task.2 =
        some (result task) := by
    intro task member
    obtain ⟨entry, listed, member⟩ := List.mem_flatMap.mp member
    obtain ⟨block, _, member⟩ := List.mem_flatMap.mp member
    obtain ⟨warp, _, rfl⟩ := List.mem_map.mp member
    have inTable : entry.2 < table.length := by
      obtain ⟨below, _⟩ := List.getElem?_eq_some_iff.mp (List.mem_zipIdx_iff_getElem?.mp listed)
      exact below
    simp only [grpWarp, result]
    split
    next => rfl
    next =>
      rw [g4GemvQ4bDp4aBody_eq floats.toExpertFloats _ _ _ (quantized entry.2 inTable)]
      rfl
  refine ⟨_, (congrArg (Option.map List.flatten) (mapM_eq_some_map computed)).trans rfl, ?_⟩
  intro address value
  rw [← List.flatMap_def, List.mem_flatMap]
  constructor
  · rintro ⟨task, member, written⟩
    obtain ⟨⟨⟨arena, slot⟩, k⟩, listed, member⟩ := List.mem_flatMap.mp member
    obtain ⟨block, _, member⟩ := List.mem_flatMap.mp member
    obtain ⟨warp, _, rfl⟩ := List.mem_map.mp member
    simp only [result] at written
    split at written
    next => cases written
    next inside =>
      obtain ⟨rfl, rfl⟩ := Prod.mk.injEq .. ▸ List.mem_singleton.mp written
      exact ⟨k, arena, slot, _, List.mem_zipIdx_iff_getElem?.mp listed, Nat.lt_of_not_le inside, rfl,
        rfl⟩
  · rintro ⟨k, arena, slot, j, listed, row, rfl, rfl⟩
    have place : j / 8 * 8 + j % 8 = j := Nat.div_add_mod' j 8
    refine ⟨(((arena, slot), k), j), List.mem_flatMap.mpr ⟨((arena, slot), k),
      List.mem_zipIdx_iff_getElem?.mpr listed, List.mem_flatMap.mpr ⟨j / 8,
        List.mem_range.mpr (by omega), List.mem_map.mpr ⟨j % 8,
          List.mem_range.mpr (Nat.mod_lt _ (by decide)), by rw [place]⟩⟩⟩, ?_⟩
    simp only [result, if_neg (Nat.not_le.mpr row), List.mem_singleton]

/-- Behind the launch a slot holds the rows of its entry. -/
theorem grouped_get {table : List (Q4bArena × Nat)} {cols : Nat} {qxAll : Nat → Int8}
    {qxStride : Nat} {sxbAll : Nat → F} {sxStride out : Nat} {before after : Nat → F}
    {writes : List (Nat × F)}
    (quantized : ∀ k < table.length, Quantized (tokenRow qxAll qxStride k) cols)
    (computed : kGemvQ4bDp4aGrp floats table cols qxAll qxStride sxbAll sxStride out out = some writes)
    (landed : Landed before writes after) (distinct : (table.map Prod.snd).Nodup) {k slot : Nat}
    {arena : Q4bArena} (listed : table[k]? = some (arena, slot)) {j : Nat} (row : j < out) :
    tokenRow after out slot j = exactBody floats.toExpertFloats arena cols
      (tokenRow qxAll qxStride k) (tokenRow sxbAll sxStride k) j := by
  obtain ⟨listing, asComputed, mem_listing⟩ := kGemvQ4bDp4aGrp_eq floats out out quantized
  obtain rfl : listing = writes := Option.some.inj (asComputed.symm.trans computed)
  apply landed.get ((mem_listing _ _).mpr ⟨k, arena, slot, j, listed, row, rfl, rfl⟩)
  intro other member
  obtain ⟨k', arena', slot', j', listed', row', same, rfl⟩ := (mem_listing _ _).mp member
  obtain ⟨rfl, rfl⟩ := split_place row row' same
  have slots : ∀ (k : Nat) (arena : Q4bArena), table[k]? = some (arena, slot) →
      (table.map Prod.snd)[k]? = some slot := by
    intro k arena listed
    rw [List.getElem?_map, listed]
    rfl
  obtain ⟨below, _⟩ := List.getElem?_eq_some_iff.mp (slots k arena listed)
  obtain rfl : k = k' := (List.getElem?_inj below distinct).mp
    ((slots k arena listed).trans (slots k' arena' listed').symm)
  obtain rfl : arena = arena' := (Prod.mk.injEq .. ▸ Option.some.inj (listed.symm.trans listed')).1
  rfl

/-- An expert on the card, total. -/
def exactExpert (codes : ExpertCodes) (x : Nat → F) (E FFE i : Nat) : F :=
  let quantIn := kQuantActInt8 floats.toQuantFloats x E
  let gu := exactBody floats.toExpertFloats (expertArena codes.gupCodes codes.gupBs E) E quantIn.1
    quantIn.2
  let quantMid := kQuantActInt8 floats.toQuantFloats
    (fun c => floats.gelu (gu c) (gu (FFE + c))) FFE
  exactBody floats.toExpertFloats (expertArena codes.downCodes codes.downBs FFE) FFE quantMid.1
    quantMid.2 i

theorem cardExpert_eq (codes : ExpertCodes) (x : Nat → F) (E FFE i : Nat) :
    cardExpert floats codes x E FFE i = some (exactExpert floats codes x E FFE i) := by
  let quantIn := kQuantActInt8 floats.toQuantFloats x E
  let gu := exactBody floats.toExpertFloats (expertArena codes.gupCodes codes.gupBs E) E quantIn.1
    quantIn.2
  have gateUp : (List.range (2 * FFE)).mapM (g4GemvQ4bDp4aBody floats.toExpertFloats
      (expertArena codes.gupCodes codes.gupBs E) E quantIn.1 quantIn.2) =
        some ((List.range (2 * FFE)).map gu) :=
    mapM_eq_some_map fun j _ => g4GemvQ4bDp4aBody_eq _ _ _ j (kQuantActInt8_quantized x E)
  have halves : ∀ c < FFE,
      floats.gelu (((List.range (2 * FFE)).map gu).getD c floats.zero)
          (((List.range (2 * FFE)).map gu).getD (FFE + c) floats.zero) =
        floats.gelu (gu c) (gu (FFE + c)) := by
    intro c below
    rw [List.getD_eq_getElem _ _ (by rw [List.length_map, List.length_range]; omega),
      List.getD_eq_getElem _ _ (by rw [List.length_map, List.length_range]; omega),
      List.getElem_map, List.getElem_map, List.getElem_range, List.getElem_range]
  simp only [cardExpert, Option.bind_eq_bind]
  rw [gateUp, Option.bind_some, kQuantActInt8_congr floats.toQuantFloats halves,
    g4GemvQ4bDp4aBody_eq _ _ _ _ (kQuantActInt8_quantized _ FFE)]
  rfl

theorem geluSplit_get {gu before after : Nat → F} {ffe nrows : Nat}
    (landed : Landed before (kMoeGeluSplitBatch floats gu ffe nrows) after) {row : Nat}
    (inside : row < nrows) {c : Nat} (below : c < ffe) :
    tokenRow after ffe row c =
      floats.gelu (tokenRow gu (2 * ffe) row c) (tokenRow gu (2 * ffe) row (ffe + c)) := by
  obtain ⟨quotient, remainder⟩ := @row_div ffe row c below
  apply landed.get
  · refine List.mem_map.mpr ⟨row * ffe + c, List.mem_range.mpr (row_lt inside below), ?_⟩
    dsimp only
    rw [quotient, remainder]
  · intro other member
    obtain ⟨i, _, same⟩ := List.mem_map.mp member
    obtain ⟨rfl, rfl⟩ := Prod.mk.injEq .. ▸ same
    rw [quotient, remainder]

variable {floats} {layer : ExpertLayer F}

/-- Behind the launches the slot of a resident expert holds its output. -/
theorem GroupedLaunch.get {hits : List (Nat × Nat)} {before after : GroupedBuffers F}
    (launch : GroupedLaunch floats layer hits before after) (whole : layer.FFE % 32 = 0)
    (distinct : (hits.map Prod.snd).Nodup) {k expert slot : Nat}
    (listed : hits[k]? = some (expert, slot)) {i : Nat} (row : i < layer.E) :
    tokenRow after.gout layer.E slot i =
      exactExpert floats (layer.codes expert) layer.x layer.E layer.FFE i := by
  obtain ⟨inHits, _⟩ := List.getElem?_eq_some_iff.mp listed
  let quantIn := kQuantActInt8 floats.toQuantFloats layer.x layer.E
  let gup := exactBody floats.toExpertFloats (expertArena (layer.codes expert).gupCodes
    (layer.codes expert).gupBs layer.E) layer.E quantIn.1 quantIn.2
  have sameRow : ∀ k i, tokenRow after.qxE 0 k i = after.qxE i ∧ tokenRow after.sxE 0 k i =
      after.sxE i := by
    intro k i
    simp only [tokenRow, Nat.mul_zero, Nat.zero_add, and_self]
  have gateUp : ∀ j < 2 * layer.FFE, tokenRow after.ggu (2 * layer.FFE) k j = gup j := by
    intro j below
    obtain ⟨writes, computed, landed⟩ := launch.gateUp
    have slots : ((hits.zipIdx.map fun hit => (expertArena (layer.codes hit.1.1).gupCodes
        (layer.codes hit.1.1).gupBs layer.E, hit.2)).map Prod.snd).Nodup := by
      rw [List.map_map]
      exact (List.zipIdx_map_snd 0 hits) ▸ List.nodup_range'
    have inTable : (hits.zipIdx.map fun hit => (expertArena (layer.codes hit.1.1).gupCodes
        (layer.codes hit.1.1).gupBs layer.E, hit.2))[k]? =
          some (expertArena (layer.codes expert).gupCodes (layer.codes expert).gupBs layer.E, k) := by
      rw [List.getElem?_map, List.getElem?_zipIdx, listed, Nat.zero_add]
      rfl
    rw [grouped_get floats _ computed landed slots inTable below]
    · apply exactBody_congr
      · exact fun i inside => (sameRow k i).1.trans (launch.codesIn i inside)
      · exact fun b inside => (sameRow k b).2.trans (launch.scalesIn b inside)
    · intro k _ i inside
      rw [(sameRow k i).1, launch.codesIn i inside]
      exact toInt_clamped _
  have gate : ∀ c < layer.FFE, tokenRow after.gh layer.FFE k c =
      floats.gelu (gup c) (gup (layer.FFE + c)) := by
    intro c below
    rw [geluSplit_get floats launch.gelu inHits below, gateUp c (by omega), gateUp _ (by omega)]
  have codes : ∀ k < hits.length, ∀ i < layer.FFE, tokenRow after.qxF layer.FFE k i =
      (kQuantActInt8 floats.toQuantFloats (tokenRow after.gh layer.FFE k) layer.FFE).1 i :=
    fun k inHits i inside => batchedCodes_get (Nat.dvd_of_mod_eq_zero (by omega)) launch.codesMid
      inHits inside
  obtain ⟨writes, computed, landed⟩ := launch.down
  have inTable : (hits.map fun hit => (expertArena (layer.codes hit.1).downCodes
      (layer.codes hit.1).downBs layer.FFE, hit.2))[k]? =
        some (expertArena (layer.codes expert).downCodes (layer.codes expert).downBs layer.FFE,
          slot) := by
    rw [List.getElem?_map, listed]
    rfl
  rw [grouped_get floats _ computed landed (by rwa [List.map_map]) inTable row]
  · have sameGate := kQuantActInt8_congr floats.toQuantFloats gate
    apply exactBody_congr
    · intro i inside
      rw [codes k inHits i inside, sameGate]
    · intro b inside
      rw [← sameGate]
      exact batchedScales_get launch.scalesMid inHits (by rwa [Nat.shiftRight_eq_div_pow])
  · intro k inTable i inside
    rw [List.length_map] at inTable
    rw [codes k inTable i inside]
    exact toInt_clamped _

end Grouped

/-! ## The host's rows -/

section Rows

variable {F : Type} {memory final : Nat → F} {stride : Nat}

theorem writeRow_get (row : Nat → F) (place other : Nat) {i : Nat} (inside : i < stride) :
    tokenRow (writeRow memory stride place row) stride other i =
      if other = place then row i else tokenRow memory stride other i := by
  unfold tokenRow writeRow
  by_cases same : other = place
  · subst same
    rw [if_pos rfl, if_pos (by rw [Nat.add_mul, Nat.one_mul]; omega), Nat.add_sub_cancel_left]
  · rw [if_neg same, if_neg]
    rintro ⟨above, below⟩
    have quotient : (other * stride + i) / stride = other := by
      rw [Nat.add_comm, Nat.add_mul_div_right _ _ (Nat.zero_lt_of_lt inside),
        Nat.div_eq_of_lt inside, Nat.zero_add]
    have low : place ≤ other := by
      rw [← quotient]
      exact (Nat.le_div_iff_mul_le (Nat.zero_lt_of_lt inside)).mpr above
    have high : other < place + 1 := by
      rw [← quotient]
      exact (Nat.div_lt_iff_lt_mul (Nat.zero_lt_of_lt inside)).mpr below
    exact same (by omega)

/-- Places that differ keep what their items left. -/
theorem writeRows_get {Item : Type} {compute : Item → (Nat → F) → Option (Nat → F)}
    {place : Item → Nat} {items : List Item} (value : Item → Nat → F)
    (run : writeRows compute stride place items memory = some final)
    (computes : ∀ item ∈ items, ∀ memory row, compute item memory = some row →
      ∀ i < stride, row i = value item i)
    (distinct : (items.map place).Nodup) {i : Nat} (inside : i < stride) :
    (∀ item ∈ items, tokenRow final stride (place item) i = value item i) ∧
      ∀ row ∉ items.map place, tokenRow final stride row i = tokenRow memory stride row i := by
  induction items generalizing memory with
  | nil =>
      cases run
      exact ⟨fun item member => absurd member List.not_mem_nil, fun _ _ => rfl⟩
  | cons item rest inductionHypothesis =>
      obtain ⟨next, stepped, continued⟩ := Option.bind_eq_some_iff.mp run
      obtain ⟨row, computed, rfl⟩ := Option.map_eq_some_iff.mp stepped
      rw [List.map_cons, List.nodup_cons] at distinct
      rw [List.forall_mem_cons] at computes
      obtain ⟨written, untouched⟩ := inductionHypothesis continued computes.2 distinct.2
      constructor
      · rw [List.forall_mem_cons]
        refine ⟨?_, written⟩
        rw [untouched _ distinct.1, writeRow_get _ _ _ inside, if_pos rfl]
        exact computes.1 _ _ computed i inside
      · intro other absent
        rw [List.map_cons, List.mem_cons, not_or] at absent
        rw [untouched other absent.2, writeRow_get _ _ _ inside, if_neg absent.1]

end Rows

section Gemv

variable {F : Type} {floats : GateFloats F}

/-- Codes that come back from the card are those the host would quantize itself. -/
theorem spMoeCpuQuant_back {n FFE : Nat} {X : Nat → F} {codes cq : Nat → Int8} {scales csx : Nat → F}
    (whole : FFE % 32 = 0) (short : FFE ≤ 4096)
    (landedCodes : Landed codes (kQuantActInt8Batched floats.toQuantFloats X n FFE FFE).1 cq)
    (landedScales : Landed scales (kQuantActInt8Batched floats.toQuantFloats X n FFE FFE).2 csx)
    {j : Nat} (inside : j < n) :
    spMoeCpuQuant floats.toQuantFloats (tokenRow X FFE j) FFE =
      some ((List.range FFE).map (tokenRow cq FFE j),
        (List.range (FFE / 16)).map (tokenRow csx (FFE >>> 4) j)) := by
  rw [spMoeCpuQuant_eq whole short]
  refine congrArg some (Prod.ext (List.map_congr_left ?_) (List.map_congr_left ?_))
  · intro i member
    exact (batchedCodes_get (Nat.dvd_of_mod_eq_zero (by omega)) landedCodes inside
      (List.mem_range.mp member)).symm
  · intro b member
    have below := List.mem_range.mp member
    exact (batchedScales_get landedScales inside (by rwa [Nat.shiftRight_eq_div_pow])).symm

theorem spMoeCpuGemv_accepts {codes : List UInt8} {bs : List UInt16} {inputs rows : Nat}
    {qx : List Int8} {sx : List F} {y result : Nat → F} {stale : (Nat → Int) × (Nat → Int)}
    (called : spMoeCpuGemv floats codes bs inputs rows qx sx y stale = some result) :
    inputs ≤ 4096 := by
  unfold spMoeCpuGemv at called
  split at called
  next => cases called
  next accepted => omega

variable (commutes : ∀ a b, floats.add a b = floats.add b a) {x : Nat → F}

include commutes

/-- A call of `sp_moe_cpu_gemv` leaves the rows of the card. -/
theorem spMoeCpuGemv_get {inputs rows : Nat} {qx : List Int8} {sx : List F}
    (quantized : spMoeCpuQuant floats.toQuantFloats x inputs = some (qx, sx)) {codes : List UInt8}
    {bs : List UInt16} {y result : Nat → F} {stale : (Nat → Int) × (Nat → Int)}
    (called : spMoeCpuGemv floats codes bs inputs rows qx sx y stale = some result) {j : Nat}
    (row : j < rows) :
    result j = exactBody floats.toExpertFloats (expertArena codes bs inputs) inputs
      (kQuantActInt8 floats.toQuantFloats x inputs).1
      (kQuantActInt8 floats.toQuantFloats x inputs).2 j := by
  unfold spMoeCpuGemv at called
  split at called
  next => cases called
  next =>
    cases called
    have onCard := (@foldl_exactRound _ floats.toExpertFloats commutes x inputs qx sx quantized codes
      bs (List.range' 0 (rows - 0)) (y, stale.1, stale.2) j).1 (List.mem_range'_1.mpr (by omega))
    rw [g4GemvQ4bDp4aBody_eq _ _ _ _ (kQuantActInt8_quantized x inputs)] at onCard
    exact (Option.some.inj onCard).symm

/-- An expert on the host has the output of the card, where the gates agree. -/
theorem hostExpert_get (sameGate : ∀ g up, floats.geluExact g up = floats.gelu g up)
    {codes : ExpertCodes} {E FFE : Nat} {buffers : HostBuffers F} {row : Nat → F}
    (computed : hostExpert floats codes x E FFE buffers = some row) {i : Nat} (inside : i < E) :
    row i = exactExpert floats codes x E FFE i := by
  simp only [hostExpert, Option.bind_eq_bind, Option.bind_eq_some_iff] at computed
  obtain ⟨⟨qx, sx⟩, quantIn, gu, gateUp, ⟨hq, hs⟩, quantMid, down⟩ := computed
  rw [spMoeCpuGemv_get commutes quantMid down inside, exactExpert]
  rw [kQuantActInt8_congr floats.toQuantFloats]
  intro c below
  rw [spMoeCpuGelu, if_pos below, sameGate,
    spMoeCpuGemv_get commutes quantIn gateUp (show c < 2 * FFE by omega),
    spMoeCpuGemv_get commutes quantIn gateUp (show FFE + c < 2 * FFE by omega)]

end Gemv

/-! ## The places of the experts -/

section Places

variable {ready : Nat → Bool} {active : List Nat}

theorem hits_distinct : ((hitsOf ready active).map Prod.snd).Nodup := by
  have places : (active.zipIdx.map Prod.snd).Nodup := (List.zipIdx_map_snd 0 active) ▸ List.nodup_range'
  exact places.sublist (List.filter_sublist.map Prod.snd)

theorem misses_distinct : ((missesOf ready active).map Prod.snd).Nodup := by
  have places : (active.zipIdx.map Prod.snd).Nodup := (List.zipIdx_map_snd 0 active) ▸ List.nodup_range'
  exact places.sublist (List.filter_sublist.map Prod.snd)

theorem zipIdx_distinct {Item : Type} (items : List Item) : (items.zipIdx.map Prod.snd).Nodup :=
  (List.zipIdx_map_snd 0 items) ▸ List.nodup_range'

theorem mem_hitsOf {expert place : Nat} :
    (expert, place) ∈ hitsOf ready active ↔ active[place]? = some expert ∧ ready expert = true := by
  rw [hitsOf, List.mem_filter, List.mem_zipIdx_iff_getElem?]

theorem mem_missesOf {expert place : Nat} :
    (expert, place) ∈ missesOf ready active ↔
      active[place]? = some expert ∧ ready expert = false := by
  rw [missesOf, List.mem_filter, List.mem_zipIdx_iff_getElem?, Bool.not_eq_true']

/-- The rows behind the eighth are those of the experts that are not resident, in order. -/
theorem cpuExperts_groupedRows :
    cpuExperts active (groupedRows ready active) = (missesOf ready active).map Prod.fst := by
  have paired : active.zip (groupedRows ready active) = active.zipIdx.map fun entry =>
      (entry.1, if ready entry.1 then some entry.2 else none) := by
    calc active.zip (groupedRows ready active)
        = (active.zipIdx.map Prod.fst).zip (groupedRows ready active) := by
          rw [List.zipIdx_map_fst]
      _ = _ := List.zip_map' ..
  rw [cpuExperts, paired, List.filter_map, List.map_map, missesOf]
  congr 1
  apply List.filter_congr
  intro entry _
  rw [Function.comp_apply]
  cases resident : ready entry.1 with
  | true => rfl
  | false => rfl

end Places

/-! ## The sum of the experts -/

section Sum

variable {F Double : Type} {floats : GateFloats F}

/-- A combine whose rows hold the experts' outputs adds these in order. -/
theorem kMoeCombineOrd_rows (arith : MoeArith F Double) (w : Nat → F) {active rows : List Nat}
    {outs : Nat → Nat → F} {out : Nat → F} {i : Nat}
    (reads : rows.map (fun row => outs row i) = active.map out) (acc : Nat → F) :
    kMoeCombineOrd arith ((active.map w).zip rows) outs acc i =
      active.foldl (fun a expert => arith.add a (arith.mul (w expert) (out expert))) (acc i) := by
  have pairs : ((active.map w).zip rows).map (fun entry => (entry.1, outs entry.2 i)) =
      active.map fun expert => (w expert, out expert) := by
    calc ((active.map w).zip rows).map (fun entry => (entry.1, outs entry.2 i))
        = (active.map w).zip (rows.map fun row => outs row i) :=
          (@List.zip_map_right _ _ _ (fun row => outs row i) (active.map w) rows).symm
      _ = (active.map w).zip (active.map out) := by rw [reads]
      _ = active.map fun expert => (w expert, out expert) := List.zip_map' ..
  calc kMoeCombineOrd arith ((active.map w).zip rows) outs acc i
      = (((active.map w).zip rows).map fun entry => (entry.1, outs entry.2 i)).foldl
          (fun a entry => arith.add a (arith.mul entry.1 entry.2)) (acc i) := by
        rw [List.foldl_map]
        rfl
    _ = active.foldl (fun a expert => arith.add a (arith.mul (w expert) (out expert))) (acc i) := by
        rw [pairs, List.foldl_map]

variable (commutes : ∀ a b, floats.add a b = floats.add b a) {layer : ExpertLayer F}
  {ready : Nat → Bool} {active : List Nat} {before after : GroupedBuffers F} {gout : Nat → F}

theorem whole_of_mask {inputs : Nat} (whole : inputs &&& 31 = 0) : inputs % 32 = 0 := by
  rwa [← Nat.and_two_pow_sub_one_eq_mod inputs 5]

theorem hit_get (wholeF : layer.FFE % 32 = 0)
    (launched : hitsOf ready active ≠ [] →
      GroupedLaunch floats layer (hitsOf ready active) before after)
    {expert place : Nat} (listed : active[place]? = some expert) (resident : ready expert = true)
    {i : Nat} (inside : i < layer.E) :
    tokenRow after.gout layer.E place i =
      exactExpert floats (layer.codes expert) layer.x layer.E layer.FFE i := by
  have member := mem_hitsOf.mpr ⟨listed, resident⟩
  obtain ⟨k, atK⟩ := List.mem_iff_getElem?.mp member
  exact (launched (List.ne_nil_of_mem member)).get wholeF hits_distinct atK inside

include commutes

/-- The combine reads from `gout` what the card would have computed. -/
theorem HostLayer.rows (sameGate : ∀ g up, floats.geluExact g up = floats.gelu g up)
    (run : HostLayer floats layer ready active before after gout) {i : Nat} (inside : i < layer.E) :
    (numberRows (groupedRows ready active) 0).map (fun row => tokenRow gout layer.E row i) =
      active.map fun expert =>
        exactExpert floats (layer.codes expert) layer.x layer.E layer.FFE i := by
  obtain ⟨buffers, cout0, cout, computed, rfl⟩ := run.uploaded
  unfold hostRows at computed
  have onHost := (writeRows_get
    (fun miss => exactExpert floats (layer.codes miss.1.1) layer.x layer.E layer.FFE) computed
    (by
      intro miss _ memory row computed i inside
      exact hostExpert_get commutes sameGate computed inside)
    (zipIdx_distinct (missesOf ready active)) inside).1
  apply map_numberRows
  · rw [groupedRows, List.length_map, List.length_zipIdx]
  · intro expert row member
    obtain ⟨inActive, listed, resident⟩ := mem_zip_groupedRows member
    have few := run.few
    have low : ¬(8 * layer.E ≤ row * layer.E + i ∧
        row * layer.E + i < (8 + (missesOf ready active).length) * layer.E) := by
      rintro ⟨above, _⟩
      have below : (row + 1) * layer.E ≤ 8 * layer.E := Nat.mul_le_mul_right _ (by omega)
      rw [Nat.add_mul, Nat.one_mul] at below
      omega
    rw [tokenRow, if_neg low]
    exact hit_get (whole_of_mask run.wholeF) run.launched listed resident inside
  · intro place expert listed
    rw [cpuExperts_groupedRows, List.getElem?_map, Option.map_eq_some_iff] at listed
    obtain ⟨miss, listed, rfl⟩ := listed
    obtain ⟨inMisses, _⟩ := List.getElem?_eq_some_iff.mp listed
    have high : 8 * layer.E ≤ (8 + 0 + place) * layer.E + i ∧
        (8 + 0 + place) * layer.E + i < (8 + (missesOf ready active).length) * layer.E := by
      have above : 8 * layer.E ≤ (8 + place) * layer.E := Nat.mul_le_mul_right _ (by omega)
      have below : (8 + place + 1) * layer.E ≤ (8 + (missesOf ready active).length) * layer.E :=
        Nat.mul_le_mul_right _ (by omega)
      rw [Nat.add_mul, Nat.one_mul] at below
      rw [Nat.add_zero]
      omega
    have address : (8 + 0 + place) * layer.E + i - 8 * layer.E = place * layer.E + i := by
      rw [Nat.add_zero, Nat.add_mul]
      omega
    rw [tokenRow, if_pos high, address]
    exact onHost (miss, place) (List.mem_zipIdx_iff_getElem?.mpr listed)

theorem hostGateUp_get {stale : Nat → (Nat → Int) × (Nat → Int)} {misses : List (Nat × Nat)}
    {qx : List Int8} {sx : List F} {cgu final : Nat → F}
    (quantIn : spMoeCpuQuant floats.toQuantFloats layer.x layer.E = some (qx, sx))
    (gateUp : hostGateUp floats layer stale misses qx sx cgu = some final) {miss : (Nat × Nat) × Nat}
    (member : miss ∈ misses.zipIdx) {j : Nat} (below : j < 2 * layer.FFE) :
    tokenRow final (2 * layer.FFE) miss.2 j =
      exactBody floats.toExpertFloats (expertArena (layer.codes miss.1.1).gupCodes
        (layer.codes miss.1.1).gupBs layer.E) layer.E
        (kQuantActInt8 floats.toQuantFloats layer.x layer.E).1
        (kQuantActInt8 floats.toQuantFloats layer.x layer.E).2 j := by
  unfold hostGateUp at gateUp
  have onHost := (writeRows_get (fun miss => exactBody floats.toExpertFloats
    (expertArena (layer.codes miss.1.1).gupCodes (layer.codes miss.1.1).gupBs layer.E) layer.E
    (kQuantActInt8 floats.toQuantFloats layer.x layer.E).1
    (kQuantActInt8 floats.toQuantFloats layer.x layer.E).2) gateUp
    (by
      intro miss _ memory row called j below
      rw [spMoeCpuGemv_get commutes quantIn called below])
    (zipIdx_distinct misses) below).1
  exact onHost miss member

/-- What the round trip leaves in the places of the host's experts, and that it leaves the others. -/
theorem RoundTripLayer.get {old new : TripBuffers F}
    (run : RoundTripLayer floats layer ready active before after old new gout) {i : Nat}
    (inside : i < layer.E) :
    (∀ miss ∈ (missesOf ready active).zipIdx, tokenRow gout layer.E miss.1.2 i =
        exactExpert floats (layer.codes miss.1.1) layer.x layer.E layer.FFE i) ∧
      ∀ row ∉ (missesOf ready active).map Prod.snd,
        tokenRow gout layer.E row i = tokenRow after.gout layer.E row i := by
  have wholeF := whole_of_mask run.wholeF
  obtain ⟨qx, sx, stale, quantIn, gateUp⟩ := run.gateUp
  obtain ⟨staleDown, cout, down⟩ := run.down
  have inMisses : ∀ miss ∈ (missesOf ready active).zipIdx,
      miss.2 < (missesOf ready active).length :=
    fun miss member => (List.getElem?_eq_some_iff.mp (List.mem_zipIdx_iff_getElem?.mp member)).1
  have places : (missesOf ready active).zipIdx.map (fun miss => miss.1.2) =
      (missesOf ready active).map Prod.snd := by
    conv_rhs => rw [← List.zipIdx_map_fst 0 (missesOf ready active), List.map_map]
    rfl
  unfold hostDown at down
  rw [← places]
  refine writeRows_get
    (fun miss => exactExpert floats (layer.codes miss.1.1) layer.x layer.E layer.FFE) down ?_
    (places ▸ misses_distinct) inside
  intro miss member memory row called i inside
  have back := spMoeCpuQuant_back wholeF (spMoeCpuGemv_accepts called) run.codes run.scales
    (inMisses miss member)
  rw [spMoeCpuGemv_get commutes back called inside, exactExpert]
  rw [kQuantActInt8_congr floats.toQuantFloats]
  intro c below
  rw [geluSplit_get floats run.gelu (inMisses miss member) below,
    hostGateUp_get commutes quantIn gateUp member (show c < 2 * layer.FFE by omega),
    hostGateUp_get commutes quantIn gateUp member (show layer.FFE + c < 2 * layer.FFE by omega)]

/-- With the gate on the card the rows are the same, whatever the host's gate would be. -/
theorem RoundTripLayer.rows {old new : TripBuffers F}
    (run : RoundTripLayer floats layer ready active before after old new gout) {i : Nat}
    (inside : i < layer.E) :
    (List.range active.length).map (fun row => tokenRow gout layer.E row i) =
      active.map fun expert =>
        exactExpert floats (layer.codes expert) layer.x layer.E layer.FFE i := by
  obtain ⟨onHost, untouched⟩ := run.get commutes inside
  apply List.ext_getElem
  · rw [List.length_map, List.length_map, List.length_range]
  · intro place inRange inActive
    rw [List.length_map] at inActive
    rw [List.getElem_map, List.getElem_map, List.getElem_range]
    have listed := List.getElem?_eq_getElem inActive
    cases resident : ready active[place] with
    | true =>
        rw [untouched place]
        · exact hit_get (whole_of_mask run.wholeF) run.launched listed resident inside
        · intro member
          obtain ⟨⟨expert, _⟩, missed, rfl⟩ := List.mem_map.mp member
          obtain ⟨there, absent⟩ := mem_missesOf.mp missed
          rw [listed, Option.some.injEq] at there
          rw [there, absent] at resident
          cases resident
    | false =>
        obtain ⟨j, atJ⟩ := List.mem_iff_getElem?.mp (mem_missesOf.mpr ⟨listed, resident⟩)
        exact onHost ((active[place], place), j) (List.mem_zipIdx_iff_getElem?.mpr atJ)

end Sum

/-! ## The layer runs -/

section Exists

variable {F : Type} {floats : GateFloats F} {layer : ExpertLayer F}

theorem exists_groupedLaunch (wholeF : layer.FFE % 32 = 0) (hits : List (Nat × Nat))
    (before : GroupedBuffers F) : ∃ after, GroupedLaunch floats layer hits before after := by
  let quantIn := kQuantActInt8 floats.toQuantFloats layer.x layer.E
  obtain ⟨gateUp, gateUpRun, _⟩ := @kGemvQ4bDp4aGrp_eq _ floats
    (hits.zipIdx.map fun hit => (expertArena (layer.codes hit.1.1).gupCodes
      (layer.codes hit.1.1).gupBs layer.E, hit.2))
    layer.E quantIn.1 0 quantIn.2 0 (2 * layer.FFE) (2 * layer.FFE)
    fun _ _ _ _ => toInt_clamped _
  let gh := scatter before.gh
    (kMoeGeluSplitBatch floats (scatter before.ggu gateUp) layer.FFE hits.length)
  let mid := kQuantActInt8Batched floats.toQuantFloats gh hits.length layer.FFE layer.FFE
  have codes : Landed before.qxF mid.1 (scatter before.qxF mid.1) := landed_scatter
  obtain ⟨down, downRun, _⟩ := @kGemvQ4bDp4aGrp_eq _ floats
    (hits.map fun hit => (expertArena (layer.codes hit.1).downCodes (layer.codes hit.1).downBs
      layer.FFE, hit.2))
    layer.FFE (scatter before.qxF mid.1) layer.FFE (scatter before.sxF mid.2) (layer.FFE >>> 4)
    layer.E layer.E (by
      intro k inTable
      rw [List.length_map] at inTable
      exact buffers_quantized floats.toQuantFloats wholeF codes k inTable)
  refine ⟨⟨quantIn.1, quantIn.2, scatter before.ggu gateUp, gh, scatter before.qxF mid.1,
    scatter before.sxF mid.2, scatter before.gout down⟩, ?_⟩
  constructor
  · exact fun _ _ => rfl
  · exact fun _ _ => rfl
  · exact ⟨gateUp, gateUpRun, landed_scatter⟩
  · exact landed_scatter
  · exact codes
  · exact landed_scatter
  · exact ⟨down, downRun, landed_scatter⟩

theorem exists_writeRows {Item : Type} {compute : Item → (Nat → F) → Option (Nat → F)} {stride : Nat}
    {place : Item → Nat} (items : List Item)
    (computes : ∀ item memory, ∃ row, compute item memory = some row) (memory : Nat → F) :
    ∃ final, writeRows compute stride place items memory = some final := by
  induction items generalizing memory with
  | nil => exact ⟨memory, rfl⟩
  | cons item rest inductionHypothesis =>
      obtain ⟨row, computed⟩ := computes item memory
      obtain ⟨final, run⟩ := inductionHypothesis (writeRow memory stride (place item) row)
      refine ⟨final, ?_⟩
      rw [writeRows, runEach, computed]
      exact run

theorem exists_hostExpert {E FFE : Nat} (wholeE : E % 32 = 0) (shortE : E ≤ 4096)
    (wholeF : FFE % 32 = 0) (shortF : FFE ≤ 4096) (codes : ExpertCodes) (x : Nat → F)
    (buffers : HostBuffers F) : ∃ row, hostExpert floats codes x E FFE buffers = some row := by
  have mask : ∀ n, n &&& 31 = n % 32 := fun n => Nat.and_two_pow_sub_one_eq_mod n 5
  have accepted : ∀ n, n % 32 = 0 → n ≤ 4096 → ¬(n &&& 31 ≠ 0 ∨ n > 4096) := by
    intro n whole short
    rw [mask]
    omega
  simp only [hostExpert, Option.bind_eq_bind, spMoeCpuQuant_eq wholeE shortE,
    spMoeCpuQuant_eq wholeF shortF, Option.bind_some, spMoeCpuGemv, if_neg (accepted E wholeE shortE),
    if_neg (accepted FFE wholeF shortF)]
  exact ⟨_, rfl⟩

/-- Experts of whole chunks, and no more of them than slots, never stop a layer. -/
theorem exists_hostLayer (wholeE : layer.E % 32 = 0) (shortE : layer.E ≤ 4096)
    (wholeF : layer.FFE % 32 = 0) (shortF : layer.FFE ≤ 4096) (ready : Nat → Bool)
    {active : List Nat} (few : active.length ≤ 8) (before : GroupedBuffers F) :
    ∃ after gout, HostLayer floats layer ready active before after gout := by
  obtain ⟨after, launch⟩ := @exists_groupedLaunch _ floats _ wholeF (hitsOf ready active) before
  let buffers : HostBuffers F := ⟨before.gout, before.gout, before.gout, fun _ => 0, fun _ => 0⟩
  obtain ⟨cout, run⟩ : ∃ cout, hostRows floats layer (fun _ => buffers) (missesOf ready active)
      before.gout = some cout :=
    exists_writeRows _ (fun miss memory => exists_hostExpert wholeE shortE wholeF shortF _ _ _) _
  have mask : ∀ n, n &&& 31 = n % 32 := fun n => Nat.and_two_pow_sub_one_eq_mod n 5
  exact ⟨after, _, by rwa [mask], by rwa [mask], few, fun _ => launch, _, _, _, run, rfl⟩

end Exists

/-- A gate that multiplies. -/
def wholeGate : GateFloats Int where
  toExpertFloats := wholeFloats
  gelu := (· * ·)
  geluExact := (· * ·)

/-- Experts of 32 columns that differ in one scale. -/
def smallLayer : ExpertLayer Int where
  E := 32
  FFE := 32
  codes := fun expert => ⟨List.replicate 1024 0x11, [UInt16.ofNat expert], List.replicate 512 0x7F, []⟩
  x := fun i => i

def wholeArith : MoeArith Int Int where
  lt := fun a b => decide (a < b)
  add := (· + ·)
  mul := (· * ·)
  div := (· / ·)
  zero := 0
  negOne := -1
  clampMin := 0
  widen := id
  narrow := id
  addD := (· + ·)
  subD := (· - ·)
  divD := (· / ·)
  expD := id
  zeroD := 0

end KairosEngine.Cuda
