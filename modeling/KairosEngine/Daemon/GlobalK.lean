import KairosEngine.Daemon.Episode
import KairosEngine.Daemon.PromptMatch
import KairosEngine.Library.RowMajor

/-!
# Packed global-K and its readers

Two writers fill the same kind of vector: `load_episode_global_k` packs rows of `hd`
floats out of an `ep.k` file, `gemma4_kv_read_global_k` rows of `g_kvd` floats out of
the resident cache.  Three readers of `recall.rs` walk such a vector with a stride of
their own.  Each reader is written over the list of the slices it takes, so that what
it touches can be compared with the packing.
-/

namespace KairosEngine.Daemon

open KairosEngine.Library

/-! ## The writers -/

/-- The cast of an `i32` to `usize`. -/
def asUsize (value : Int) : Nat := (value % 2 ^ 64).toNat

/-- `f32::from_le_bytes` at a float index of a file. -/
def fileFloat (bytes : Bytes) (index : Nat) : Ieee :=
  Ieee.ofLeBytes (bytes.getD (4 * index) 0) (bytes.getD (4 * index + 1) 0)
    (bytes.getD (4 * index + 2) 0) (bytes.getD (4 * index + 3) 0)

/-- How many positions an `ep.k` file holds for every layer; 0 where the file is refused. -/
def filePositions (geo : RecallGeometry) (bytes : Bytes) : Nat :=
  if bytes.length % 4 ≠ 0 then 0 else bytes.length / 4 / (geo.nl * geo.hd)

/-- `load_episode_global_k`.  The guard on a partial layer only refuses files that hold
no position. -/
def loadEpisodeGlobalK (geo : RecallGeometry) (bytes : Bytes) (npos : Int) :
    Option (List Ieee × Nat) :=
  if bytes.length % 4 ≠ 0 then
    none
  else
    let nF32 := bytes.length / 4
    if nF32 % (geo.nl * geo.hd) ≠ 0 ∧ nF32 < geo.nl * geo.hd then
      none
    else
      let pTotal := nF32 / (geo.nl * geo.hd)
      if pTotal = 0 then
        none
      else
        let npos := min (asUsize npos) pTotal
        let globals := geo.globals geo.nl
        let rows := globals.flatMap fun layer =>
          (List.range npos).flatMap fun position =>
            (List.range geo.hd).map fun d =>
              fileFloat bytes ((layer * pTotal + position) * geo.hd + d)
        some (rows, globals.length)

/-- The part of a session that `gemma4_kv_read_global_k` reads: how many layers own
their K, the position, and the K buffer of each layer, which is full up to there. -/
structure LiveSession (geo : RecallGeometry) where
  kvfs : Nat
  dposHost : Nat
  layerK : Nat → List Ieee
  layerK_full : ∀ layer, dposHost * geo.gKvd ≤ (layerK layer).length

/-- How many global layers of the model own their K. -/
def LiveSession.owners {geo : RecallGeometry} (session : LiveSession geo) : Nat :=
  min session.kvfs geo.nl / geo.period

/-- `gemma4_kv_read_global_k` into a caller's buffer. -/
def readGlobalK (geo : RecallGeometry) (session : LiveSession geo) (out : List Ieee)
    (npos : Int) : Option (List Ieee × Nat) :=
  if out = [] ∨ npos ≤ 0 then
    none
  else if session.dposHost < npos then
    none
  else
    let owned := geo.globals (min session.kvfs geo.nl)
    if owned.length = 0 then
      none
    else
      let copied := owned.flatMap fun layer =>
        (session.layerK layer).take (npos.toNat * geo.gKvd)
      some (copied ++ out.drop copied.length, owned.length)

/-! ## The readers -/

def rBits : Nat := 256

/-- The seeded stream of signs the router is made of. -/
def smix (seed : BitVec 64) : Nat → List Int
  | 0 => []
  | count + 1 =>
      let state := seed + 0x9E3779B97F4A7C15#64
      let first := (state ^^^ (state >>> 30)) * 0xBF58476D1CE4E5B9#64
      let second := (first ^^^ (first >>> 27)) * 0x94D049BB133111EB#64
      let mixed := second ^^^ (second >>> 31)
      (if mixed.getLsbD 0 then 1 else -1) :: smix state count

/-- `Projection`: the router, `R_BITS` rows of `hd` signs. -/
def projectionBuild (geo : RecallGeometry) : List Int :=
  smix 0x5350524F4A2B#64 (rBits * geo.hd)

def dot (format : Format) (left right : List Ieee) : Ieee :=
  (left.zip right).foldl (fun sum pair => format.add sum (format.mul pair.1 pair.2)) (.finite 0)

def signatureFetches (geo : RecallGeometry) (nGlobal npos row : Nat) : List Fetch :=
  stridedFetches nGlobal npos row geo.hd

/-- `Projection::signature_strided`. -/
def signatureStrided (arith : Arithmetic) (geo : RecallGeometry) (router : List Int)
    (globalK : List Ieee) (nGlobal npos row : Nat) : Option (List Bool) := do
  let row := if row = 0 then geo.hd else row
  let vectors ← (signatureFetches geo nGlobal npos row).mapM (Fetch.read globalK)
  let nVec : Ieee := .finite (nGlobal * npos : Nat)
  return (List.range rBits).map fun bit =>
    let signs := ((router.drop (bit * geo.hd)).take geo.hd).map fun sign => Ieee.finite sign
    let acc := vectors.foldl (fun sum vector => arith.double.add sum (dot arith.double signs vector))
      (.finite 0)
    Ieee.lt (.finite 0) (arith.double.div acc nVec)

/-- `Projection::signature`, at the stride of the engine's rows. -/
def signature (arith : Arithmetic) (geo : RecallGeometry) (router : List Int)
    (globalK : List Ieee) (nGlobal npos : Nat) : Option (List Bool) :=
  signatureStrided arith geo router globalK nGlobal npos geo.gKvd

/-- Sorting with `partial_cmp().unwrap()`, which panics on a NaN. -/
def sortUnwrapped (scores : List Ieee) : Option (List Ieee) :=
  if 2 ≤ scores.length ∧ scores.any Ieee.isNan then none else some (scores.mergeSort Ieee.le)

/-- One score of the scan: the best so far and the top `m` in ascending order. -/
def topStep (m : Nat) (state : Ieee × List Ieee) (score : Ieee) : Option (Ieee × List Ieee) :=
  let best := if state.1.lt score then score else state.1
  let top := state.2
  if top.length < m then
    let grown := top ++ [score]
    if grown.length = m then (sortUnwrapped grown).map (best, ·) else some (best, grown)
  else
    match top with
    | [] => none
    | least :: rest =>
        if least.lt score then (sortUnwrapped (score :: rest)).map (best, ·) else some (best, top)

def qkFetches (geo : RecallGeometry) (layers npos : Nat) : List Fetch :=
  gridFetches layers npos geo.hd fun layer position =>
    layer * npos * geo.hd + position * geo.hd

/-- One attention score, or its cosine under `SP_B3_QK_COSINE`. -/
def qkScore (arith : Arithmetic) (geo : RecallGeometry) (cosine : Bool) (query key : List Ieee) :
    Ieee :=
  let raw := dot arith.double query key
  if cosine then
    let den := arith.double.mul (arith.sqrt (dot arith.double query query))
      (arith.sqrt (dot arith.double key key))
    if Ieee.lt (.finite 0) den then arith.double.div raw den else .finite 0
  else
    arith.double.mul raw (arith.double.div (.finite 1) (arith.sqrt (.finite geo.hd)))

/-- `qk_relevance`: the best score and the mean of the top `m`. -/
def qkRelevance (arith : Arithmetic) (geo : RecallGeometry) (cosine : Bool) (q gk : List Ieee)
    (gkNg npos m : Nat) : Option (Ieee × Ieee) :=
  if gk = [] ∨ gkNg = 0 ∨ npos = 0 then
    some (.negInf, .negInf)
  else
    let qd := geo.gNh * geo.hd
    let layers := min (q.length / qd) gkNg
    if layers = 0 then
      some (.negInf, .negInf)
    else do
      let fetches := qkFetches geo layers npos
      let keys ← fetches.mapM (Fetch.read gk)
      let scores := (fetches.zip keys).flatMap fun pair =>
        (List.range geo.gNh).map fun head =>
          let query := (q.drop (pair.1.layer * qd + head * geo.hd)).take geo.hd
          qkScore arith geo cosine query pair.2
      let (best, top) ← scores.foldlM (topStep m) (.negInf, [])
      let topm :=
        if top = [] then best
        else arith.double.div (top.foldl arith.double.add (.finite 0)) (.finite top.length)
      return (arith.single.convert best, arith.single.convert topm)

/-- The learned recall head of a `WCB1` blob. -/
structure WcHead where
  hd : Nat
  r : Nat
  s0 : Ieee
  sscale : Ieee
  w : List Ieee
  deriving DecidableEq

def fileWord (bytes : Bytes) (offset : Nat) : Nat :=
  (bytes.getD offset 0).toNat + 2 ^ 8 * (bytes.getD (offset + 1) 0).toNat +
    2 ^ 16 * (bytes.getD (offset + 2) 0).toNat + 2 ^ 24 * (bytes.getD (offset + 3) 0).toNat

/-- `load_wc`. -/
def loadWc (bytes : Bytes) : Option WcHead :=
  if bytes.length < 20 ∨ bytes.take 4 ≠ "WCB1".toUTF8.toList then
    none
  else
    let hd := fileWord bytes 4
    let r := fileWord bytes 8
    if bytes.length < 20 + hd * r * 4 then
      none
    else
      some
        { hd, r
          s0 := fileFloat bytes 3
          sscale := fileFloat bytes 4
          w := (List.range (hd * r)).map fun index => fileFloat bytes (5 + index) }

/-- `wc_proj`: a vector through the head's `[hd, r]` matrix. -/
def wcProj (format : Format) (head : WcHead) (vector : List Ieee) : List Ieee :=
  (List.range head.r).map fun j =>
    vector.zipIdx.foldl
      (fun sum entry => format.add sum (format.mul entry.1 (head.w.getD (entry.2 * head.r + j) .nan)))
      (.finite 0)

/-- A head with no output column reads no row. -/
def wcFetches (head : WcHead) (layers npos : Nat) : List Fetch :=
  if head.r = 0 then
    []
  else
    gridFetches layers npos head.hd fun layer position =>
      layer * npos * head.hd + position * head.hd

/-- The stable log-sum-exp of the similarities of one layer and query head. -/
def logSumExp (arith : Arithmetic) (sims : List Ieee) : Ieee :=
  let most := sims.foldl (fun best sim => if best.lt sim then sim else best) .negInf
  let sum := sims.foldl
    (fun sum sim => arith.double.add sum (arith.exp (arith.single.sub sim most))) (.finite 0)
  arith.double.add most (arith.ln sum)

/-- The query width of a head, and over how many layers it is scored. -/
def wcLayers (geo : RecallGeometry) (q : List Ieee) (gkNg : Nat) (head : WcHead) : Nat :=
  min (q.length / (geo.gNh * head.hd)) gkNg

/-- `wc_score`; a head of width 0 divides by zero. -/
def wcScore (arith : Arithmetic) (geo : RecallGeometry) (q gk : List Ieee) (gkNg npos : Nat)
    (head : WcHead) : Option Ieee :=
  if gk = [] ∨ gkNg = 0 ∨ npos = 0 then
    some .negInf
  else if head.hd = 0 then
    none
  else
    let qd := geo.gNh * head.hd
    let layers := wcLayers geo q gkNg head
    if layers = 0 then
      some .negInf
    else do
      let keys ← (wcFetches head layers npos).mapM (Fetch.read gk)
      let projected := keys.map (wcProj arith.single head)
      let relevances := (List.range layers).flatMap fun layer =>
        (List.range geo.gNh).map fun queryHead =>
          let query := wcProj arith.single head
            ((q.drop (layer * qd + queryHead * head.hd)).take head.hd)
          let sims := (List.range npos).map fun position =>
            arith.single.mul
              (dot arith.single query (projected.getD (layer * npos + position) [])) head.sscale
          logSumExp arith sims
      return arith.single.convert
        (arith.double.div (relevances.foldl arith.double.add (.finite 0))
          (.finite relevances.length))

end KairosEngine.Daemon
