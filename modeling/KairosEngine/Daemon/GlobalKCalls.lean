import KairosEngine.Daemon.GlobalK

/-!
# Every call that reads packed global-K

The call sites of the readers of `recall.rs`: the capture paths, the recall lanes and
the interceptor runs.  Each derives a position count from what it holds and walks a
buffer that one of the two writers filled.
-/

namespace KairosEngine.Daemon

open KairosEngine.Library

/-! ## What the writers write -/

section Writers

variable {geo : RecallGeometry}

/-- The packing of a buffer that `load_episode_global_k` filled. -/
def filePacking (geo : RecallGeometry) (file : Bytes) (npos : Int) : Packing :=
  { layers := geo.nGlobal
    positions := min (asUsize npos) (filePositions geo file)
    width := geo.hd }

/-- The packing of a buffer that `gemma4_kv_read_global_k` filled. -/
def livePacking (session : LiveSession geo) (npos : Nat) : Packing :=
  { layers := session.owners, positions := npos, width := geo.gKvd }

def fileRow (geo : RecallGeometry) (file : Bytes) (layer position : Nat) : List Ieee :=
  (List.range geo.hd).map fun d =>
    fileFloat file ((layer * filePositions geo file + position) * geo.hd + d)

theorem loadEpisodeGlobalK_eq (geo : RecallGeometry) (file : Bytes) (npos : Int) :
    loadEpisodeGlobalK geo file npos =
      if filePositions geo file = 0 then none
      else some
        ((geo.globals geo.nl).flatMap fun layer =>
          (List.range (filePacking geo file npos).positions).flatMap (fileRow geo file layer),
          geo.nGlobal) := by
  unfold loadEpisodeGlobalK
  by_cases ragged : file.length % 4 ≠ 0
  · rw [if_pos ragged, filePositions, if_pos ragged, if_pos rfl]
  · have held : filePositions geo file = file.length / 4 / (geo.nl * geo.hd) := by
      rw [filePositions, if_neg ragged]
    rw [if_neg ragged]
    simp only [← held]
    split
    next short => rw [held, if_pos (Nat.div_eq_of_lt short.2)]
    next =>
      split
      next => rfl
      next =>
        rw [geo.length_globals]
        rfl

/-- What an accepted `ep.k` file loads to. -/
structure LoadedFrom (geo : RecallGeometry) (file : Bytes) (npos : Int) (gk : List Ieee) : Prop where
  held : filePositions geo file ≠ 0
  sized : gk.length = (filePacking geo file npos).size
  row : ∀ layer (layerBound : layer < (geo.globals geo.nl).length),
    ∀ position < (filePacking geo file npos).positions,
      (filePacking geo file npos).row gk layer position =
        fileRow geo file ((geo.globals geo.nl)[layer]) position

theorem loadEpisodeGlobalK_spec {file : Bytes} {npos : Int} {gk : List Ieee} {ng : Nat}
    (loaded : loadEpisodeGlobalK geo file npos = some (gk, ng)) :
    ng = geo.nGlobal ∧ LoadedFrom geo file npos gk := by
  rw [loadEpisodeGlobalK_eq] at loaded
  split at loaded
  next => exact absurd loaded (by simp)
  next held =>
    rw [Option.some.injEq, Prod.mk.injEq] at loaded
    rcases loaded with ⟨rfl, rfl⟩
    have rowLength : ∀ layer, ∀ position ∈ List.range (filePacking geo file npos).positions,
        (fileRow geo file layer position).length = geo.hd := by
      intro layer position _
      simp [fileRow]
    have layerLength : ∀ layer ∈ geo.globals geo.nl,
        ((List.range (filePacking geo file npos).positions).flatMap
          (fileRow geo file layer)).length =
          (filePacking geo file npos).positions * (filePacking geo file npos).width := by
      intro layer _
      rw [length_flatMap_uniform (rowLength layer), List.length_range]
      rfl
    refine ⟨rfl, held, ?_, ?_⟩
    · rw [length_flatMap_uniform layerLength, geo.length_globals, Packing.size, Nat.mul_assoc]
      rfl
    · intro layer layerBound position positionBound
      rw [Packing.row_flatMap layerLength layerBound positionBound]
      have inRange : position <
          (List.range (filePacking geo file npos).positions).length := by
        rwa [List.length_range]
      have taken := flatMap_uniform_slice (rowLength (geo.globals geo.nl)[layer]) inRange
      rw [List.getElem_range] at taken
      exact taken

/-- The bytes a load looks at lie in the file. -/
theorem fileFloat_inside {file : Bytes} {layer position d : Nat} (layerBound : layer < geo.nl)
    (positionBound : position < filePositions geo file) (widthBound : d < geo.hd) :
    4 * ((layer * filePositions geo file + position) * geo.hd + d) + 3 < file.length := by
  have inside := Packing.grid_lt layerBound positionBound
  have row := Nat.mul_le_mul_right geo.hd inside
  rw [Nat.succ_mul] at row
  have whole : geo.nl * filePositions geo file * geo.hd ≤ file.length / 4 := by
    unfold filePositions
    split
    next => simp
    next =>
      calc geo.nl * (file.length / 4 / (geo.nl * geo.hd)) * geo.hd
          = file.length / 4 / (geo.nl * geo.hd) * (geo.nl * geo.hd) := by ring
        _ ≤ file.length / 4 := Nat.div_mul_le_self _ _
  omega

theorem owners_le (session : LiveSession geo) : session.owners ≤ geo.nGlobal :=
  Nat.div_le_div_right (Nat.min_le_right _ _)

/-- What a successful live read leaves in a buffer that is large enough. -/
structure ReadFrom (session : LiveSession geo) (npos : Nat) (buffer : List Ieee) : Prop where
  owned : 0 < session.owners
  sized : (livePacking session npos).size ≤ buffer.length
  row : ∀ layer (layerBound : layer < (geo.globals (min session.kvfs geo.nl)).length),
    ∀ position < npos,
      (livePacking session npos).row buffer layer position =
        ((session.layerK (geo.globals (min session.kvfs geo.nl))[layer]).drop
          (position * geo.gKvd)).take geo.gKvd

theorem readGlobalK_spec {session : LiveSession geo} {out buffer : List Ieee} {npos : Int} {ng : Nat}
    (found : readGlobalK geo session out npos = some (buffer, ng))
    (enough : geo.nGlobal * npos.toNat * geo.gKvd ≤ out.length) :
    ng = session.owners ∧ 0 < npos ∧ buffer.length = out.length ∧
      ReadFrom session npos.toNat buffer := by
  unfold readGlobalK at found
  split at found
  next => exact absurd found (by simp)
  next positive =>
    split at found
    next => exact absurd found (by simp)
    next within =>
      simp only at found
      split at found
      next => exact absurd found (by simp)
      next some =>
        rw [Option.some.injEq, Prod.mk.injEq] at found
        rcases found with ⟨rfl, rfl⟩
        have counted : (geo.globals (min session.kvfs geo.nl)).length = session.owners :=
          geo.length_globals _
        have layerLength : ∀ layer ∈ geo.globals (min session.kvfs geo.nl),
            ((session.layerK layer).take (npos.toNat * geo.gKvd)).length =
              npos.toNat * geo.gKvd := by
          intro layer _
          rw [List.length_take]
          have short : npos.toNat ≤ session.dposHost := by omega
          exact Nat.min_eq_left (Nat.le_trans (Nat.mul_le_mul_right _ short)
            (session.layerK_full layer))
        have copied := length_flatMap_uniform layerLength
        rw [counted, ← Nat.mul_assoc] at copied
        have fits : session.owners * npos.toNat * geo.gKvd ≤ out.length :=
          Nat.le_trans (Nat.mul_le_mul_right _ (Nat.mul_le_mul_right _ (owners_le session))) enough
        refine ⟨counted, by omega, ?_, ?_, ?_, ?_⟩
        · rw [List.length_append, List.length_drop, copied]
          omega
        · omega
        · rw [List.length_append, copied]
          exact Nat.le_add_right _ _
        · intro layer layerBound position positionBound
          have sized : (livePacking session npos.toNat).size ≤
              ((geo.globals (min session.kvfs geo.nl)).flatMap fun layer =>
                (session.layerK layer).take (npos.toNat * geo.gKvd)).length :=
            Nat.le_of_eq copied.symm
          have below : layer < (livePacking session npos.toNat).layers :=
            Nat.lt_of_lt_of_eq layerBound counted
          rw [Packing.row_append sized below positionBound,
            Packing.row_flatMap layerLength layerBound positionBound, List.drop_take,
            List.take_take]
          congr 1
          apply Nat.min_eq_left
          have ends : position * geo.gKvd + geo.gKvd ≤ npos.toNat * geo.gKvd := by
            rw [← Nat.succ_mul]
            exact Nat.mul_le_mul_right _ positionBound
          exact (by omega : geo.gKvd ≤ npos.toNat * geo.gKvd - position * geo.gKvd)

end Writers

/-! ## The walks of the call sites -/

/-- One call of a reader: the buffer it is given, the packing that buffer was filled
with, and the slices it takes. -/
structure Walk where
  buffer : List Ieee
  packing : Packing
  fetches : List Fetch

/-- Every slice stays inside the buffer and in the row of its own pair. -/
def Walk.Aligned (walk : Walk) : Prop :=
  ∀ fetch ∈ walk.fetches,
    fetch.base + fetch.width ≤ walk.buffer.length ∧ fetch.InRow walk.packing

theorem Walk.aligned_iff_of_sized {walk : Walk} (sized : walk.packing.size ≤ walk.buffer.length) :
    walk.Aligned ↔ ∀ fetch ∈ walk.fetches, fetch.InRow walk.packing :=
  ⟨fun aligned fetch membership => (aligned fetch membership).2,
    fun inRow fetch membership =>
      ⟨Nat.le_trans (inRow fetch membership).within sized, inRow fetch membership⟩⟩

/-- An aligned walk reads, for each pair, a part of the row written for that pair. -/
theorem Walk.Aligned.read_eq {walk : Walk} (aligned : walk.Aligned) {fetch : Fetch}
    (membership : fetch ∈ walk.fetches) :
    fetch.read walk.buffer = some
      (((walk.packing.row walk.buffer fetch.layer fetch.position).drop
        (fetch.base - walk.packing.start fetch.layer fetch.position)).take fetch.width) :=
  (aligned fetch membership).2.read_eq (aligned fetch membership).1

/-- The position count the capture paths derive from a packed buffer. -/
def nposSig (geo : RecallGeometry) (gk : List Ieee) (ng : Nat) : Nat :=
  if 0 < ng then gk.length / (ng * geo.hd) else 0

/-- The clamp of the recall lanes: the episode's own count, at most what is packed. -/
def clampedNpos (geo : RecallGeometry) (npos : Int) (gk : List Ieee) (gkNg : Nat) : Nat :=
  min (asUsize npos) (if 0 < gkNg then gk.length / (gkNg * geo.hd) else 0)

/-- What `qk_relevance` reads of the key buffer. -/
def qkReads (geo : RecallGeometry) (q gk : List Ieee) (gkNg npos : Nat) : List Fetch :=
  if gk = [] ∨ gkNg = 0 ∨ npos = 0 then []
  else qkFetches geo (min (q.length / (geo.gNh * geo.hd)) gkNg) npos

/-- What `wc_score` reads of the key buffer. -/
def wcReads (geo : RecallGeometry) (q gk : List Ieee) (gkNg npos : Nat) (head : WcHead) :
    List Fetch :=
  if gk = [] ∨ gkNg = 0 ∨ npos = 0 ∨ head.hd = 0 then []
  else wcFetches head (wcLayers geo q gkNg head) npos

/-- The calls: the signature at capture (`capture_live_episode`, the consolidation of a
turn, the curator), the signature of the live query (the cull and the judge's salience
axis), the signatures of the interceptor runs, the attention scan, the learned head over
a clamped episode, and the learned head of the judge's shortlist. -/
inductive GlobalKCall (geo : RecallGeometry) where
  | captureSignature (file : Bytes) (npos : Int)
  | querySignature (session : LiveSession geo) (npos : Int)
  | interceptorSignature (session : LiveSession geo) (pmax : Nat) (npos : Fin pmax)
  | qkScan (file : Bytes) (npos : Int) (q : List Ieee)
  | wcSelect (file : Bytes) (npos : Int) (q : List Ieee) (head : WcHead)
  | judgeShortlist (file : Bytes) (npos : Int) (q : List Ieee) (head : WcHead)

namespace GlobalKCall

variable {geo : RecallGeometry}

def zeros (count : Nat) : List Ieee := List.replicate count (.finite 0)

/-- The walk of a call; `none` where the load or the live read fails first. -/
def walk : GlobalKCall geo → Option Walk
  | .captureSignature file npos => do
      let (gk, ng) ← loadEpisodeGlobalK geo file npos
      let count := nposSig geo gk ng
      return {
        buffer := gk
        packing := filePacking geo file npos
        fetches := if 0 < count then signatureFetches geo ng count geo.gKvd else [] }
  | .querySignature session npos => do
      let out := zeros (geo.nGlobal * geo.gKvd * npos.toNat)
      let (buffer, ng) ← readGlobalK geo session out npos
      return {
        buffer
        packing := livePacking session npos.toNat
        fetches := signatureFetches geo ng npos.toNat geo.gKvd }
  | .interceptorSignature session pmax npos => do
      let out := zeros (geo.nGlobal * pmax * geo.gKvd)
      let (buffer, _) ← readGlobalK geo session out npos
      return {
        buffer := buffer.take (geo.nGlobal * npos * geo.hd)
        packing := livePacking session npos
        fetches := signatureFetches geo geo.nGlobal npos geo.gKvd }
  | .qkScan file npos q => do
      let (gk, ng) ← loadEpisodeGlobalK geo file npos
      return {
        buffer := gk
        packing := filePacking geo file npos
        fetches := qkReads geo q gk ng (clampedNpos geo npos gk ng) }
  | .wcSelect file npos q head => do
      let (gk, ng) ← loadEpisodeGlobalK geo file npos
      return {
        buffer := gk
        packing := filePacking geo file npos
        fetches := wcReads geo q gk ng (clampedNpos geo npos gk ng) head }
  | .judgeShortlist file npos q head => do
      let (gk, ng) ← loadEpisodeGlobalK geo file npos
      return {
        buffer := gk
        packing := filePacking geo file npos
        fetches := wcReads geo q gk ng (asUsize npos) head }

/-- How many rows a head reads of `count` positions. -/
def headRows (geo : RecallGeometry) (q : List Ieee) (head : WcHead) (count : Nat) : Nat :=
  if head.r = 0 then 0 else wcLayers geo q geo.nGlobal head * count

/-- A head of its own width reads rows of another width; only a single row survives
a head that is too narrow. -/
def HeadFits (geo : RecallGeometry) (q : List Ieee) (head : WcHead) (count : Nat) : Prop :=
  head.hd = geo.hd ∨ headRows geo q head count = 1 ∧ head.hd ≤ geo.hd

/-- When the writer and the reader of a call line up. -/
def Fits : GlobalKCall geo → Prop
  | .captureSignature file npos =>
      geo.gNkv = 1 ∨ geo.nGlobal * min (asUsize npos) (filePositions geo file) ≤ 1
  | .querySignature _ _ => True
  | .interceptorSignature session _ npos =>
      geo.nGlobal ≤ session.owners ∧ (geo.gNkv = 1 ∨ geo.nGlobal * npos ≤ 1)
  | .qkScan _ _ _ => True
  | .wcSelect file npos q head =>
      let count := min (asUsize npos) (filePositions geo file)
      headRows geo q head count = 0 ∨ HeadFits geo q head count
  | .judgeShortlist file npos q head =>
      headRows geo q head (asUsize npos) = 0 ∨
        asUsize npos ≤ filePositions geo file ∧ HeadFits geo q head (asUsize npos)

/-- A walk over rows of `hd` floats at the engine's stride. -/
theorem wideStride_iff (geo : RecallGeometry) {rows : Nat} (positive : 0 < rows) :
    (rows - 1) * geo.gKvd + geo.hd ≤ rows * geo.hd ↔ geo.gNkv = 1 ∨ rows ≤ 1 := by
  have hdPositive := geo.hd_pos
  have heads := geo.gNkv_pos
  obtain ⟨rest, rfl⟩ := Nat.exists_eq_succ_of_ne_zero (Nat.pos_iff_ne_zero.mp positive)
  rw [Nat.succ_sub_one, Nat.succ_mul, Nat.add_le_add_iff_right, RecallGeometry.gKvd]
  constructor
  · intro fits
    rcases Nat.eq_zero_or_pos rest with rfl | several
    · exact Or.inr (Nat.le_refl 1)
    · apply Or.inl
      have narrow : geo.gNkv * geo.hd ≤ 1 * geo.hd := by
        rw [Nat.one_mul]
        exact Nat.le_of_mul_le_mul_left fits several
      have single := Nat.le_of_mul_le_mul_right narrow hdPositive
      omega
  · rintro (single | short)
    · rw [single, Nat.one_mul]
    · have none : rest = 0 := by omega
      rw [none, Nat.zero_mul]
      exact Nat.zero_le _

theorem hd_le_gKvd (geo : RecallGeometry) : geo.hd ≤ geo.gKvd :=
  Nat.le_mul_of_pos_left _ geo.gNkv_pos

theorem nposSig_of_loaded {file : Bytes} {npos : Int} {gk : List Ieee}
    (loaded : LoadedFrom geo file npos gk) :
    nposSig geo gk geo.nGlobal = (filePacking geo file npos).positions := by
  have positive := Nat.mul_pos geo.nGlobal_pos geo.hd_pos
  have sized : gk.length =
      (filePacking geo file npos).positions * (geo.nGlobal * geo.hd) := by
    rw [loaded.sized, Packing.size, filePacking]
    ring
  rw [nposSig, if_pos geo.nGlobal_pos, sized, Nat.mul_div_cancel _ positive]

theorem clampedNpos_of_loaded {file : Bytes} {npos : Int} {gk : List Ieee}
    (loaded : LoadedFrom geo file npos gk) :
    clampedNpos geo npos gk geo.nGlobal = (filePacking geo file npos).positions := by
  have count := nposSig_of_loaded loaded
  rw [nposSig] at count
  rw [clampedNpos, count, filePacking]
  exact Nat.min_eq_right (Nat.min_le_left _ _)

theorem gk_ne_nil_of_loaded {file : Bytes} {npos : Int} {gk : List Ieee}
    (loaded : LoadedFrom geo file npos gk) (counted : asUsize npos ≠ 0) : gk ≠ [] := by
  intro empty
  have sized := loaded.sized
  rw [empty, Packing.size, filePacking] at sized
  have positive : 0 < geo.nGlobal * min (asUsize npos) (filePositions geo file) * geo.hd :=
    Nat.mul_pos (Nat.mul_pos geo.nGlobal_pos
      (Nat.lt_min.mpr ⟨Nat.pos_of_ne_zero counted, Nat.pos_of_ne_zero loaded.held⟩)) geo.hd_pos
  exact absurd sized (by simpa using Nat.ne_of_lt positive)

theorem captureSignature_inRow_iff {file : Bytes} {npos : Int} {gk : List Ieee}
    (loaded : LoadedFrom geo file npos gk) :
    (∀ fetch ∈ (if 0 < nposSig geo gk geo.nGlobal then
        signatureFetches geo geo.nGlobal (nposSig geo gk geo.nGlobal) geo.gKvd else []),
      fetch.InRow (filePacking geo file npos)) ↔
      geo.gNkv = 1 ∨ geo.nGlobal * min (asUsize npos) (filePositions geo file) ≤ 1 := by
  rw [nposSig_of_loaded loaded]
  change _ ↔ geo.gNkv = 1 ∨ geo.nGlobal * (filePacking geo file npos).positions ≤ 1
  split
  next positive =>
    rw [signatureFetches, stridedFetches_inRow_iff rfl geo.nGlobal_pos positive]
    have rows := Nat.mul_pos geo.nGlobal_pos positive
    rw [← wideStride_iff geo rows]
    constructor
    · rintro ⟨-, ends, -⟩
      exact ends
    · intro ends
      exact ⟨Nat.le_refl _, ends, Or.inr (hd_le_gKvd geo)⟩
  next none =>
    have zero : (filePacking geo file npos).positions = 0 := by omega
    simp [zero]

theorem liveSignature_inRow {session : LiveSession geo} {layers npos : Nat} (positive : 0 < npos)
    (layersPositive : 0 < layers) :
    (∀ fetch ∈ signatureFetches geo layers npos geo.gKvd,
      fetch.InRow (livePacking session npos)) ↔ layers ≤ session.owners := by
  have same : (livePacking session npos).positions = npos := rfl
  rw [signatureFetches, stridedFetches_inRow_iff same layersPositive positive]
  constructor
  · rintro ⟨enough, -, -⟩
    exact enough
  · intro enough
    refine ⟨enough, ?_, Or.inr (Nat.le_refl _)⟩
    have rows := Nat.mul_pos layersPositive positive
    obtain ⟨rest, counted⟩ := Nat.exists_eq_succ_of_ne_zero (Nat.pos_iff_ne_zero.mp rows)
    rw [counted, Nat.succ_sub_one, Nat.succ_mul]
    exact Nat.add_le_add_left (hd_le_gKvd geo) _

theorem qkReads_inRow {file : Bytes} {npos : Int} {q gk : List Ieee}
    (loaded : LoadedFrom geo file npos gk) :
    ∀ fetch ∈ qkReads geo q gk geo.nGlobal (clampedNpos geo npos gk geo.nGlobal),
      fetch.InRow (filePacking geo file npos) := by
  rw [clampedNpos_of_loaded loaded]
  intro fetch membership
  rw [qkReads] at membership
  split at membership
  next => simp at membership
  next =>
    rw [qkFetches, mem_gridFetches] at membership
    rcases membership with ⟨layerBound, positionBound, based, wide⟩
    have starts : (filePacking geo file npos).start fetch.layer fetch.position = fetch.base := by
      rw [based, Packing.start, Nat.add_mul]
      rfl
    refine ⟨Nat.lt_of_lt_of_le layerBound (Nat.min_le_right _ _), positionBound, ?_, ?_⟩
    · exact Nat.le_of_eq starts
    · rw [starts, wide]
      exact Nat.le_refl _

theorem wcReads_eq_nil {q gk : List Ieee} {count : Nat} {head : WcHead}
    (none : headRows geo q head count = 0) : wcReads geo q gk geo.nGlobal count head = [] := by
  rw [wcReads, wcFetches]
  split
  next => rfl
  next =>
    split
    next => rfl
    next some =>
      rw [headRows, if_neg some, Nat.mul_eq_zero] at none
      rw [gridFetches]
      rcases none with layers | positions
      · simp [layers]
      · simp [positions]

theorem wcReads_inRow_iff {file : Bytes} {npos : Int} {q gk : List Ieee} {count : Nat}
    {head : WcHead} (loaded : LoadedFrom geo file npos gk)
    (covers : (filePacking geo file npos).positions ≤ count)
    (counted : count ≠ 0 → asUsize npos ≠ 0) :
    (∀ fetch ∈ wcReads geo q gk geo.nGlobal count head, fetch.InRow (filePacking geo file npos)) ↔
      headRows geo q head count = 0 ∨
        count ≤ (filePacking geo file npos).positions ∧ HeadFits geo q head count := by
  by_cases none : headRows geo q head count = 0
  · rw [wcReads_eq_nil none]
    simp [none]
  · have several := none
    rw [headRows] at several
    split at several
    next => exact absurd rfl several
    next columns =>
      rw [Nat.mul_eq_zero, not_or] at several
      rcases several with ⟨layers, positions⟩
      have layersPositive := Nat.pos_of_ne_zero layers
      have positionsPositive := Nat.pos_of_ne_zero positions
      have width : head.hd ≠ 0 := by
        intro zero
        rw [wcLayers, zero, Nat.mul_zero, Nat.div_zero, Nat.zero_min] at layers
        exact layers rfl
      have reads : wcReads geo q gk geo.nGlobal count head =
          stridedFetches (wcLayers geo q geo.nGlobal head) count head.hd head.hd := by
        have kept := gk_ne_nil_of_loaded loaded (counted positions)
        have global := Nat.pos_iff_ne_zero.mp geo.nGlobal_pos
        rw [wcReads, if_neg (by simp [kept, global, positions, width]), wcFetches, if_neg columns,
          stridedFetches]
        congr 1
        funext layer position
        exact (Nat.add_mul _ _ _).symm
      rw [reads]
      simp only [none, false_or]
      rcases Nat.lt_or_ge (filePacking geo file npos).positions count with beyond | held
      · -- a position past the packed ones is read but was never written
        constructor
        · intro right
          have outside := right
            { layer := 0, position := (filePacking geo file npos).positions
              base := (0 * count + (filePacking geo file npos).positions) * head.hd
              width := head.hd }
            (mem_gridFetches.mpr ⟨layersPositive, beyond, rfl, rfl⟩)
          exact absurd outside.2.1 (Nat.lt_irrefl _)
        · rintro ⟨short, -⟩
          exact absurd short (Nat.not_le_of_lt beyond)
      · have same : (filePacking geo file npos).positions = count := Nat.le_antisymm covers held
        rw [stridedFetches_inRow_iff same layersPositive positionsPositive]
        have rows : headRows geo q head count = wcLayers geo q geo.nGlobal head * count := by
          rw [headRows, if_neg columns]
        rw [HeadFits, rows]
        have rowsPositive := Nat.mul_pos layersPositive positionsPositive
        have ends : (wcLayers geo q geo.nGlobal head * count - 1) * head.hd + head.hd =
            wcLayers geo q geo.nGlobal head * count * head.hd := by
          rw [← Nat.succ_mul, Nat.succ_eq_add_one, Nat.sub_add_cancel rowsPositive]
        rw [ends]
        change _ ∧ _ * head.hd ≤ _ * geo.hd ∧ (_ ∨ geo.hd ≤ head.hd) ↔ _
        rw [Nat.mul_le_mul_left_iff rowsPositive]
        have global : wcLayers geo q geo.nGlobal head ≤ (filePacking geo file npos).layers :=
          Nat.min_le_right _ _
        constructor
        · rintro ⟨-, narrow, single | wide⟩
          · exact ⟨held, Or.inr ⟨by omega, narrow⟩⟩
          · exact ⟨held, Or.inl (Nat.le_antisymm narrow wide)⟩
        · rintro ⟨-, equal | ⟨single, narrow⟩⟩
          · exact ⟨global, Nat.le_of_eq equal, Or.inr (Nat.le_of_eq equal.symm)⟩
          · exact ⟨global, narrow, Or.inl (Nat.le_of_eq single)⟩

theorem interceptor_within_iff {npos : Nat} (positive : 0 < npos) :
    (∀ fetch ∈ signatureFetches geo geo.nGlobal npos geo.gKvd,
      fetch.base + fetch.width ≤ geo.nGlobal * npos * geo.hd) ↔
      geo.gNkv = 1 ∨ geo.nGlobal * npos ≤ 1 := by
  have layersPositive := geo.nGlobal_pos
  rw [← wideStride_iff geo (Nat.mul_pos layersPositive positive)]
  constructor
  · intro within
    have last := within
      { layer := geo.nGlobal - 1, position := npos - 1
        base := ((geo.nGlobal - 1) * npos + (npos - 1)) * geo.gKvd, width := geo.hd }
      (mem_gridFetches.mpr ⟨Nat.sub_lt layersPositive Nat.one_pos,
        Nat.sub_lt positive Nat.one_pos, rfl, rfl⟩)
    have index : (geo.nGlobal - 1) * npos + (npos - 1) = geo.nGlobal * npos - 1 := by
      rw [Nat.sub_mul, Nat.one_mul]
      have : npos ≤ geo.nGlobal * npos := Nat.le_mul_of_pos_left _ layersPositive
      omega
    rwa [index] at last
  · intro ends fetch membership
    rw [signatureFetches, stridedFetches, mem_gridFetches] at membership
    rcases membership with ⟨layerBound, positionBound, based, wide⟩
    rw [based, wide]
    exact strided_end_le ends layerBound positionBound

/-- A walk over a loaded file stays in its buffer where its slices stay in their rows. -/
theorem loaded_aligned_iff {file : Bytes} {npos : Int} (fetches : List Ieee → Nat → List Fetch)
    {walk : Walk}
    (made : ((loadEpisodeGlobalK geo file npos).bind fun loaded =>
      some ⟨loaded.1, filePacking geo file npos, fetches loaded.1 loaded.2⟩) = some walk) :
    ∃ gk, LoadedFrom geo file npos gk ∧
      (walk.Aligned ↔
        ∀ fetch ∈ fetches gk geo.nGlobal, fetch.InRow (filePacking geo file npos)) := by
  obtain ⟨⟨gk, ng⟩, load, built⟩ := Option.bind_eq_some_iff.mp made
  cases built
  obtain ⟨rfl, loaded⟩ := loadEpisodeGlobalK_spec load
  exact ⟨gk, loaded, Walk.aligned_iff_of_sized (Nat.le_of_eq loaded.sized.symm)⟩

theorem captureSignature_aligned_iff {file : Bytes} {npos : Int} {walk : Walk}
    (made : (captureSignature file npos : GlobalKCall geo).walk = some walk) :
    walk.Aligned ↔ (captureSignature file npos : GlobalKCall geo).Fits := by
  obtain ⟨gk, loaded, aligned⟩ := loaded_aligned_iff (fun gk ng =>
    if 0 < nposSig geo gk ng then signatureFetches geo ng (nposSig geo gk ng) geo.gKvd else []) made
  rw [aligned]
  exact captureSignature_inRow_iff loaded

/-- A call reads what was written for its rows exactly when writer and reader line up. -/
theorem aligned_iff_fits {call : GlobalKCall geo} {walk : Walk} (made : call.walk = some walk) :
    walk.Aligned ↔ call.Fits := by
  cases call with
  | captureSignature file npos => exact captureSignature_aligned_iff made
  | querySignature session npos =>
      simp only [GlobalKCall.walk, Option.bind_eq_bind, Option.bind_eq_some_iff] at made
      rcases made with ⟨⟨buffer, ng⟩, found, built⟩
      cases built
      have enough : geo.nGlobal * npos.toNat * geo.gKvd ≤
          (zeros (geo.nGlobal * geo.gKvd * npos.toNat)).length := by
        rw [zeros, List.length_replicate]
        exact Nat.le_of_eq (by ring)
      obtain ⟨rfl, positive, -, read⟩ := readGlobalK_spec found enough
      rw [Walk.aligned_iff_of_sized read.sized]
      have count : 0 < npos.toNat := by omega
      simp only [Fits, iff_true]
      exact (liveSignature_inRow count read.owned).mpr (Nat.le_refl _)
  | interceptorSignature session pmax npos =>
      simp only [GlobalKCall.walk, Option.bind_eq_bind, Option.bind_eq_some_iff] at made
      rcases made with ⟨⟨buffer, ng⟩, found, built⟩
      cases built
      have bound := npos.isLt
      have enough : geo.nGlobal * (npos : Int).toNat * geo.gKvd ≤
          (zeros (geo.nGlobal * pmax * geo.gKvd)).length := by
        rw [zeros, List.length_replicate, Int.toNat_natCast]
        exact Nat.mul_le_mul_right _ (Nat.mul_le_mul_left _ (Nat.le_of_lt bound))
      obtain ⟨-, positive, kept, read⟩ := readGlobalK_spec found enough
      have count : 0 < (npos : Nat) := by omega
      have slice : (buffer.take (geo.nGlobal * npos * geo.hd)).length =
          geo.nGlobal * npos * geo.hd := by
        rw [List.length_take, kept]
        apply Nat.min_eq_left
        rw [Int.toNat_natCast] at enough
        exact Nat.le_trans (Nat.mul_le_mul_left _ (hd_le_gKvd geo)) enough
      unfold Walk.Aligned
      simp only [slice, Fits]
      rw [← liveSignature_inRow count geo.nGlobal_pos, ← interceptor_within_iff count]
      constructor
      · intro aligned
        exact ⟨fun fetch membership => (aligned fetch membership).2,
          fun fetch membership => (aligned fetch membership).1⟩
      · rintro ⟨inRow, within⟩ fetch membership
        exact ⟨within fetch membership, inRow fetch membership⟩
  | qkScan file npos q =>
      obtain ⟨gk, loaded, aligned⟩ := loaded_aligned_iff (fun gk ng =>
        qkReads geo q gk ng (clampedNpos geo npos gk ng)) made
      rw [aligned]
      simp only [Fits, iff_true]
      exact qkReads_inRow loaded
  | wcSelect file npos q head =>
      obtain ⟨gk, loaded, aligned⟩ := loaded_aligned_iff (fun gk ng =>
        wcReads geo q gk ng (clampedNpos geo npos gk ng) head) made
      rw [aligned]
      simp only [clampedNpos_of_loaded loaded]
      rw [wcReads_inRow_iff loaded (Nat.le_refl _)]
      · simp only [Nat.le_refl, true_and]
        rfl
      · intro some none
        apply some
        rw [filePacking, none, Nat.zero_min]
  | judgeShortlist file npos q head =>
      obtain ⟨gk, loaded, aligned⟩ := loaded_aligned_iff (fun gk ng =>
        wcReads geo q gk ng (asUsize npos) head) made
      rw [aligned]
      rw [wcReads_inRow_iff loaded (Nat.min_le_left _ _) id]
      have held : asUsize npos ≤ (filePacking geo file npos).positions ↔
          asUsize npos ≤ filePositions geo file := by
        rw [filePacking, Nat.le_min]
        exact ⟨And.right, fun below => ⟨Nat.le_refl _, below⟩⟩
      rw [held]
      rfl

def singleRowCapture : GlobalKCall .singleRow := .captureSignature [0, 0, 0, 0] 1

theorem singleRowCapture_made : singleRowCapture.walk.isSome = true := rfl

theorem aligned_iff_fits_singleRow : (singleRowCapture.walk.get singleRowCapture_made).Aligned :=
  (aligned_iff_fits (Option.some_get singleRowCapture_made).symm).mpr (Or.inr (by decide))

/-- The shape of a served model: thirty layers, five of them global, two KV heads. -/
def servedShape : RecallGeometry where
  nl := 30
  period := 6
  hd := 512
  gNh := 16
  gNkv := 2
  period_pos := by decide
  period_le := by decide
  hd_pos := by decide
  gNh_pos := by decide
  gNkv_pos := Nat.two_pos

/-- A capture of four positions. -/
def servedCapture : GlobalKCall servedShape :=
  .captureSignature (List.replicate (4 * (30 * 4 * 512)) 0) 4

/-- The signature minted at capture leaves the buffer it was given. -/
theorem captureSignature_overruns :
    ∃ walk, servedCapture.walk = some walk ∧ ¬ walk.Aligned := by
  have held : filePositions servedShape (List.replicate (4 * (30 * 4 * 512)) 0) = 4 := by
    rw [filePositions, List.length_replicate]
    rfl
  have loaded := loadEpisodeGlobalK_eq servedShape (List.replicate (4 * (30 * 4 * 512)) 0) 4
  rw [held, if_neg (by decide)] at loaded
  have made : ∃ walk, servedCapture.walk = some walk := by
    rw [servedCapture, GlobalKCall.walk, loaded]
    exact ⟨_, rfl⟩
  obtain ⟨walk, made⟩ := made
  refine ⟨walk, made, ?_⟩
  rw [captureSignature_aligned_iff made, Fits, held]
  decide

end GlobalKCall

/-! ## The readers over aligned walks -/

/-- A signature whose slices lie in the buffer does not panic. -/
theorem signature_isSome {arith : Arithmetic} {geo : RecallGeometry} {router : List Int}
    {globalK : List Ieee} {nGlobal npos : Nat}
    (inside : ∀ fetch ∈ signatureFetches geo nGlobal npos geo.gKvd,
      fetch.base + fetch.width ≤ globalK.length) :
    (signature arith geo router globalK nGlobal npos).isSome = true := by
  have wide : geo.gKvd ≠ 0 := Nat.pos_iff_ne_zero.mp (Nat.mul_pos geo.gNkv_pos geo.hd_pos)
  obtain ⟨vectors, taken⟩ := Option.isSome_iff_exists.mp (Fetch.mapM_read_isSome inside)
  rw [signature, signatureStrided]
  simp only [if_neg wide, taken]
  rfl

/-- A score of the learned head whose slices lie in the buffer does not panic. -/
theorem wcScore_isSome {arith : Arithmetic} {geo : RecallGeometry} {q gk : List Ieee}
    {gkNg npos : Nat} {head : WcHead} (width : head.hd ≠ 0)
    (inside : ∀ fetch ∈ wcReads geo q gk gkNg npos head,
      fetch.base + fetch.width ≤ gk.length) :
    (wcScore arith geo q gk gkNg npos head).isSome = true := by
  unfold wcScore
  split
  next => rfl
  next kept =>
    simp only
    split
    next => rfl
    next =>
      have reads : wcReads geo q gk gkNg npos head =
          wcFetches head (wcLayers geo q gkNg head) npos := by
        rw [wcReads, if_neg]
        rintro (empty | none | none | zero)
        · exact kept (Or.inl empty)
        · exact kept (Or.inr (Or.inl none))
        · exact kept (Or.inr (Or.inr none))
        · exact width zero
      obtain ⟨keys, taken⟩ := Option.isSome_iff_exists.mp (Fetch.mapM_read_isSome inside)
      rw [reads] at taken
      rw [taken]
      rfl

end KairosEngine.Daemon
