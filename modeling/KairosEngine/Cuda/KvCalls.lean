import KairosEngine.Cuda.KvSession

/-!
# The calls around the token steps

The chunked batched prefill, the latent seam, the episode replay, the recall peek, the
prefix shear and the prefix snapshot.  Files, allocations and the rows a kernel computes are
inputs of a call.
-/

namespace KairosEngine.Cuda

open KairosEngine.Library

universe u

/-- The widths of a row and the cell type of the two kinds of layers. -/
structure RowWidths where
  gNkv : Nat
  gHd : Nat
  sNkv : Nat
  sHd : Nat
  kvFp16 : Bool
  kvFp16G : Bool
  deriving DecidableEq, Repr

namespace Geometry

/-- Layers that own a cache; the later ones share. -/
def owners (geometry : Geometry) : List Nat :=
  List.range (min geometry.kvfs geometry.NL)

/-- Whether a layer's cache is a ring. -/
def ringed (geometry : Geometry) (layer : Nat) : Bool :=
  decide (0 < geometry.ringW) && !geometry.isGlobal layer

/-- The slot of a position in a layer's cache. -/
def slotOf (geometry : Geometry) (layer pos : Nat) : Nat :=
  if geometry.ringed layer then pos % geometry.ringW else pos

/-- The first position the attention of a layer reads at position `t`. -/
def windowStart (geometry : Geometry) (layer t : Nat) : Nat :=
  if geometry.isGlobal layer then 0 else t + 1 - geometry.SW

/-- The positions the attention of a layer reads at position `t`. -/
def window (geometry : Geometry) (layer t : Nat) : List Nat :=
  List.range' (geometry.windowStart layer t) (t + 1 - geometry.windowStart layer t)

theorem ringed_iff {geometry : Geometry} {layer : Nat} :
    geometry.ringed layer = true ↔ 0 < geometry.ringW ∧ geometry.isGlobal layer = false := by
  simp [Geometry.ringed]

theorem mem_owners {geometry : Geometry} {layer : Nat} :
    layer ∈ geometry.owners ↔ layer < geometry.kvfs ∧ layer < geometry.NL := by
  rw [Geometry.owners, List.mem_range, lt_min_iff]

theorem mem_window {geometry : Geometry} {layer t pos : Nat} :
    pos ∈ geometry.window layer t ↔
      pos ≤ t ∧ (geometry.isGlobal layer = false → t + 1 ≤ pos + geometry.SW) := by
  rw [window, List.mem_range'_1, windowStart]
  cases geometry.isGlobal layer with
  | false =>
      simp only [Bool.false_eq_true, if_false, true_implies]
      omega
  | true =>
      simp only [if_true, Bool.true_eq_false, false_implies, and_true]
      omega

end Geometry

/-- A session right after `gemma4_kv_open`. -/
def KvSession.opened {Row : Type u} (layers : Nat → LayerCache Row) (oneShot : Bool) :
    KvSession Row where
  dposHost := 0
  commitPos := 0
  jcur := 0
  ringWrapped := false
  oneShot := oneShot
  layers := layers

section Calls

variable {Row : Type u} (geometry : Geometry) (widths : RowWidths)

/-- Pieces of at most `width` rows; the fuel is the number of rows. -/
def pieces {Piece : Type u} (width : Nat) : Nat → List Piece → List (List Piece)
  | 0, _ => []
  | fuel + 1, rows =>
      if rows.isEmpty then [] else rows.take width :: pieces width fuel (rows.drop width)

/-- The chunk loop; a chunk that declines leaves the earlier ones in place. -/
def prefillPieces (env : Nat → BatchEnv) :
    List (List (Minted Row)) → Nat → KvSession Row → KvSession Row × Bool
  | [], _, session => (session, true)
  | piece :: rest, off, session =>
      match gemma4KvPrefillBatchedFrom geometry (env off) piece off session with
      | none => (session, false)
      | some next => prefillPieces env rest (off + piece.length) next

def gemma4KvPrefillBatched (env : Nat → BatchEnv) (chunk : Nat) (rows : List (Minted Row))
    (session : KvSession Row) : KvSession Row × Bool :=
  if chunk = 0 ∨ rows.length ≤ chunk then
    match gemma4KvPrefillBatchedFrom geometry (env 0) rows 0 session with
    | none => (session, false)
    | some next => (next, true)
  else
    prefillPieces geometry env (pieces chunk rows.length rows) 0 session

/-- Attenuate the rows at `[base, base + count)` in place. -/
def scaleRows (scale : Row → Row) (base count layer : Nat) (owned : LayerCache Row) :
    LayerCache Row :=
  (List.range count).foldl
    (fun owned p =>
      let slot := geometry.slotOf layer (base + p)
      { owned with cache := Function.update owned.cache slot (scale (owned.cache slot)) })
    owned

/-- `gemma4_kv_inject_tokens_impl`; `scale` is the attenuation, if any. -/
def gemma4KvInjectTokens (scale : Option (Row → Row)) (rows : List (Minted Row))
    (session : KvSession Row) : Option (KvSession Row) :=
  if rows.length = 0 ∨ widths.kvFp16 = true ∨ widths.kvFp16G = true ∨
      geometry.Pmax < session.dposHost + rows.length then
    none
  else
    (runEach (fun row => gemma4KvPrefill geometry [row]) rows session).map fun injected =>
      match scale with
      | none => injected
      | some scale =>
          { injected with
            layers := updateEach (scaleRows geometry scale session.dposHost rows.length)
              geometry.owners injected.layers }

/-- One replayed row of one layer: the clobbered ring slot is journaled first. -/
def replayRow (session : KvSession Row) (layer : Nat) (owned : LayerCache Row)
    (entry : Minted Row × Nat) : LayerCache Row :=
  let pos := session.dposHost + entry.2
  let slot := geometry.slotOf layer pos
  { cache := Function.update owned.cache slot (entry.1 layer)
    journal :=
      if geometry.ringed layer then
        Function.update owned.journal (pos - session.commitPos) (owned.cache slot)
      else
        owned.journal }

/-- `gemma4_kv_replay` of the rows that were loaded, scaled or zeroed from the episode. -/
def gemma4KvReplay (rows : List (Minted Row)) (session : KvSession Row) :
    Option (KvSession Row) :=
  if widths.kvFp16 = true ∨ widths.kvFp16G = true ∨ rows.length = 0 ∨
      geometry.Pmax < session.dposHost + rows.length ∨
      (0 < geometry.ringW ∧
        geometry.Jmax < session.dposHost - session.commitPos + rows.length) then
    none
  else
    some { session with
      dposHost := session.dposHost + rows.length
      ringWrapped := session.ringWrapped ||
        (decide (0 < geometry.ringW) && decide (geometry.ringW < session.dposHost + rows.length))
      layers := updateEach
        (fun layer owned => rows.zipIdx.foldl (replayRow geometry session layer) owned)
        geometry.owners session.layers }

/-- `gemma4_kv_read_global_q`: one step at the live position, of which only the counters are
put back. -/
def gemma4KvReadGlobalQ (minted : Minted Row) (session : KvSession Row) :
    Option (KvSession Row) :=
  if widths.gNkv * widths.gHd = 0 ∨ geometry.NL / geometry.period = 0 ∨
      geometry.Pmax ≤ session.dposHost + 1 then
    none
  else
    (g4KvStep geometry minted session).map fun stepped =>
      { stepped with commitPos := session.commitPos, jcur := session.jcur }

def gemma4KvShear (P : Int) (session : KvSession Row) : Option (KvSession Row) :=
  if P < 0 ∨ (session.dposHost : Int) < P then
    none
  else if 0 < geometry.ringW ∧
      (session.ringWrapped = true ∨ geometry.ringW < session.dposHost) then
    none
  else
    some { session with dposHost := P.toNat, commitPos := P.toNat, jcur := 0 }

/-- How many slots of a layer a snapshot of `P` positions copies. -/
def prefixSlots (layer P : Nat) : Nat :=
  if geometry.ringed layer then geometry.ringW else P

/-- The rows of a snapshot, by layer and slot. -/
structure PrefixRows (Row : Type u) where
  P : Nat
  rows : Nat → Nat → Row

def snapshotRows (P : Int) (session : KvSession Row) : Option (PrefixRows Row) :=
  if P ≤ 0 ∨ (session.dposHost : Int) ≠ P ∨ (geometry.Pmax : Int) < P then
    none
  else
    some ⟨P.toNat, fun layer => (session.layers layer).cache⟩

/-- Put the copied slots of one layer back. -/
def restoreLayer (saved : PrefixRows Row) (layer : Nat) (owned : LayerCache Row) :
    LayerCache Row :=
  { owned with
    cache := fun slot =>
      if slot < prefixSlots geometry layer saved.P then saved.rows layer slot
      else owned.cache slot }

/-- The flag `ringWrapped` is left as it stands. -/
def restoreRowsAt (saved : PrefixRows Row) (session : KvSession Row) : Option (KvSession Row) :=
  if saved.P = 0 ∨ geometry.Pmax < saved.P then
    none
  else
    some { session with
      dposHost := saved.P
      commitPos := saved.P
      jcur := 0
      layers := updateEach (restoreLayer geometry saved) geometry.owners session.layers }

/-- A call of the session's C interface. -/
inductive SessionCall (Row : Type u) where
  | prefill (rows : List (Minted Row))
  | prefillBatched (env : Nat → BatchEnv) (chunk : Nat) (rows : List (Minted Row))
  | prefillBatchedFrom (env : BatchEnv) (rows : List (Minted Row)) (P : Nat)
  | decode (rows : List (Minted Row))
  | decodeLogits (row : Minted Row)
  | decodeBatch (rows : List (Minted Row))
  | injectTokens (scale : Option (Row → Row)) (rows : List (Minted Row))
  | replay (rows : List (Minted Row))
  | readGlobalQ (row : Minted Row)
  | rewind (delta : Int)
  | commit
  | shear (P : Int)
  | restorePrefix (saved : PrefixRows Row)
  | reset

/-- A call that refuses leaves the session as it found it. -/
def orRefuse (call : KvSession Row → Option (KvSession Row)) (session : KvSession Row) :
    KvSession Row × Bool :=
  match call session with
  | none => (session, false)
  | some next => (next, true)

/-- The session a call leaves and whether it returned success. -/
def SessionCall.serve : SessionCall Row → KvSession Row → KvSession Row × Bool
  | .prefill rows => orRefuse (gemma4KvPrefill geometry rows)
  | .prefillBatched env chunk rows => gemma4KvPrefillBatched geometry env chunk rows
  | .prefillBatchedFrom env rows P => orRefuse (gemma4KvPrefillBatchedFrom geometry env rows P)
  | .decode rows => orRefuse (gemma4KvDecode geometry rows)
  | .decodeLogits row => orRefuse (gemma4KvDecodeLogits geometry row)
  | .decodeBatch rows => orRefuse (gemma4KvDecodeBatch geometry rows)
  | .injectTokens scale rows => orRefuse (gemma4KvInjectTokens geometry widths scale rows)
  | .replay rows => orRefuse (gemma4KvReplay geometry widths rows)
  | .readGlobalQ row => orRefuse (gemma4KvReadGlobalQ geometry widths row)
  | .rewind delta => orRefuse (gemma4KvRewind geometry delta)
  | .commit => fun session => (gemma4KvCommit session, true)
  | .shear P => orRefuse (gemma4KvShear geometry P)
  | .restorePrefix saved => orRefuse (restoreRowsAt geometry saved)
  | .reset => fun session => (gemma4KvReset session, true)

end Calls

/-! ## What every call keeps -/

section Bounds

variable {Row : Type u} {geometry : Geometry} {widths : RowWidths}
variable {session next : KvSession Row}

/-- The live position is inside the buffers and, in ring mode, not below the commit. -/
structure KvSession.Placed (geometry : Geometry) (session : KvSession Row) : Prop where
  present_le : session.dposHost ≤ geometry.Pmax
  commit_le : 0 < geometry.ringW → session.commitPos ≤ session.dposHost

theorem placed_opened (layers : Nat → LayerCache Row) (oneShot : Bool) :
    (KvSession.opened layers oneShot).Placed geometry :=
  ⟨Nat.zero_le _, fun _ => Nat.le_refl _⟩

theorem stepAndAdvance_some {minted : Minted Row}
    (stepped : stepAndAdvance geometry minted session = some next) :
    next.dposHost = session.dposHost + 1 ∧
      next.commitPos = (slideJournal geometry session).commitPos := by
  obtain ⟨middle, stored, rfl⟩ := Option.map_eq_some_iff.mp stepped
  unfold g4KvStep at stored
  dsimp only at stored
  split at stored
  next => cases stored
  next =>
    cases stored
    refine ⟨?_, rfl⟩
    simp only [advance, slideJournal]
    split <;> rfl

theorem slideJournal_dposHost : (slideJournal geometry session).dposHost = session.dposHost := by
  unfold slideJournal
  split <;> rfl

theorem slideJournal_commit_le (placed : session.Placed geometry) (ring : 0 < geometry.ringW) :
    (slideJournal geometry session).commitPos ≤ session.dposHost := by
  have baseline := placed.commit_le ring
  unfold slideJournal
  split
  next => exact Nat.sub_le _ _
  next => exact baseline

theorem placed_step {minted : Minted Row} (placed : session.Placed geometry)
    (room : session.dposHost < geometry.Pmax)
    (stepped : stepAndAdvance geometry minted session = some next) : next.Placed geometry := by
  obtain ⟨position, baseline⟩ := stepAndAdvance_some stepped
  constructor
  · rw [position]
    exact room
  · intro ring
    rw [position, baseline]
    exact (slideJournal_commit_le placed ring).trans (Nat.le_succ _)

theorem steps_dposHost {rows : List (Minted Row)}
    (run : runEach (stepAndAdvance geometry) rows session = some next) :
    next.dposHost = session.dposHost + rows.length := by
  induction rows generalizing session with
  | nil =>
      cases run
      rfl
  | cons row rest inductionHypothesis =>
      obtain ⟨middle, stepped, continued⟩ := Option.bind_eq_some_iff.mp run
      rw [inductionHypothesis continued, (stepAndAdvance_some stepped).1, List.length_cons,
        Nat.add_assoc, Nat.add_comm 1]

theorem placed_steps {rows : List (Minted Row)} (placed : session.Placed geometry)
    (room : session.dposHost + rows.length ≤ geometry.Pmax)
    (run : runEach (stepAndAdvance geometry) rows session = some next) :
    next.Placed geometry := by
  induction rows generalizing session with
  | nil =>
      cases run
      exact placed
  | cons row rest inductionHypothesis =>
      obtain ⟨middle, stepped, continued⟩ := Option.bind_eq_some_iff.mp run
      rw [List.length_cons] at room
      apply inductionHypothesis (placed_step placed (by omega) stepped) _ continued
      rw [(stepAndAdvance_some stepped).1]
      omega

theorem prefill_some {rows : List (Minted Row)}
    (filled : gemma4KvPrefill geometry rows session = some next) :
    rows.length ≠ 0 ∧ session.dposHost + rows.length ≤ geometry.Pmax ∧
      runEach (stepAndAdvance geometry) rows session = some next := by
  unfold gemma4KvPrefill at filled
  split at filled
  next => cases filled
  next accepted =>
    rw [not_or] at accepted
    exact ⟨accepted.1, Nat.le_of_not_lt accepted.2, filled⟩

/-- The three decode calls step through rows that leave one position free. -/
theorem decode_some {rows : List (Minted Row)}
    (decoded : gemma4KvDecode geometry rows session = some next) :
    session.dposHost + rows.length < geometry.Pmax ∧
      runEach (stepAndAdvance geometry) rows session = some next := by
  unfold gemma4KvDecode at decoded
  split at decoded
  next => cases decoded
  next accepted => exact ⟨Nat.lt_of_not_le accepted, decoded⟩

theorem decodeBatch_some {rows : List (Minted Row)}
    (decoded : gemma4KvDecodeBatch geometry rows session = some next) :
    gemma4KvDecode geometry rows session = some next := by
  unfold gemma4KvDecodeBatch at decoded
  split at decoded
  next => cases decoded
  next accepted =>
    rw [not_or] at accepted
    rw [gemma4KvDecode, if_neg accepted.2]
    exact decoded

theorem decodeLogits_some {row : Minted Row}
    (decoded : gemma4KvDecodeLogits geometry row session = some next) :
    gemma4KvDecode geometry [row] session = some next := by
  unfold gemma4KvDecodeLogits at decoded
  split at decoded
  next => cases decoded
  next accepted =>
    have room : ¬ geometry.Pmax ≤ session.dposHost + [row].length := accepted
    rw [gemma4KvDecode, if_neg room]
    exact Option.bind_eq_some_iff.mpr ⟨next, decoded, rfl⟩

theorem batchedFrom_some {env : BatchEnv} {rows : List (Minted Row)} {P : Nat}
    (batched : gemma4KvPrefillBatchedFrom geometry env rows P session = some next) :
    session.dposHost = P ∧ P + rows.length ≤ geometry.Pmax ∧ rows.length ≠ 0 ∧
      next.dposHost = P + rows.length ∧ next.commitPos = session.commitPos := by
  unfold gemma4KvPrefillBatchedFrom at batched
  split at batched
  next => cases batched
  next accepted =>
    cases batched
    simp only [not_or, Decidable.not_not, not_lt] at accepted
    exact ⟨accepted.2.1, accepted.2.2.1, accepted.1, rfl, rfl⟩

theorem inject_some {scale : Option (Row → Row)} {rows : List (Minted Row)}
    (injected : gemma4KvInjectTokens geometry widths scale rows session = some next) :
    session.dposHost + rows.length ≤ geometry.Pmax ∧
      ∃ stepped, runEach (fun row => gemma4KvPrefill geometry [row]) rows session = some stepped ∧
        next.dposHost = stepped.dposHost ∧ next.commitPos = stepped.commitPos := by
  unfold gemma4KvInjectTokens at injected
  split at injected
  next => cases injected
  next accepted =>
    simp only [not_or, not_lt] at accepted
    obtain ⟨stepped, run, rfl⟩ := Option.map_eq_some_iff.mp injected
    refine ⟨accepted.2.2.2, stepped, run, ?_⟩
    cases scale with
    | none => exact ⟨rfl, rfl⟩
    | some scale => exact ⟨rfl, rfl⟩

/-- The seam feeds its tokens one by one, which is the prefill of all of them. -/
theorem runEach_prefill_singletons {rows : List (Minted Row)}
    (run : runEach (fun row => gemma4KvPrefill geometry [row]) rows session = some next) :
    runEach (stepAndAdvance geometry) rows session = some next := by
  induction rows generalizing session with
  | nil => exact run
  | cons row rest inductionHypothesis =>
      obtain ⟨middle, stepped, continued⟩ := Option.bind_eq_some_iff.mp run
      obtain ⟨landed, single, stop⟩ := Option.bind_eq_some_iff.mp (prefill_some stepped).2.2
      cases stop
      exact Option.bind_eq_some_iff.mpr ⟨middle, single, inductionHypothesis continued⟩

theorem replay_some {rows : List (Minted Row)}
    (replayed : gemma4KvReplay geometry widths rows session = some next) :
    session.dposHost + rows.length ≤ geometry.Pmax ∧
      (0 < geometry.ringW →
        session.dposHost - session.commitPos + rows.length ≤ geometry.Jmax) ∧
      next.dposHost = session.dposHost + rows.length ∧ next.commitPos = session.commitPos := by
  unfold gemma4KvReplay at replayed
  split at replayed
  next => cases replayed
  next accepted =>
    cases replayed
    simp only [not_or, not_lt, not_and] at accepted
    exact ⟨accepted.2.2.2.1, accepted.2.2.2.2, rfl, rfl⟩

theorem readGlobalQ_some {row : Minted Row}
    (peeked : gemma4KvReadGlobalQ geometry widths row session = some next) :
    session.dposHost + 1 < geometry.Pmax ∧ next.dposHost = session.dposHost ∧
      next.commitPos = session.commitPos := by
  unfold gemma4KvReadGlobalQ at peeked
  split at peeked
  next => cases peeked
  next accepted =>
    obtain ⟨stepped, stored, rfl⟩ := Option.map_eq_some_iff.mp peeked
    have moved := stepAndAdvance_some
      (show stepAndAdvance geometry row session = some (advance geometry stepped) by
        rw [stepAndAdvance, stored, Option.map_some])
    have position : stepped.dposHost + 1 = session.dposHost + 1 := moved.1
    simp only [not_or, not_le] at accepted
    exact ⟨accepted.2.2, Nat.succ.inj position, rfl⟩

theorem rewind_some {delta : Int} (rewound : gemma4KvRewind geometry delta session = some next) :
    0 ≤ delta ∧ delta.toNat ≤ session.dposHost ∧
      (0 < geometry.ringW → (delta.toNat : Int) ≤ session.dposHost - session.commitPos) ∧
      next.dposHost = session.dposHost - delta.toNat ∧ next.commitPos = session.commitPos := by
  unfold gemma4KvRewind at rewound
  split at rewound
  next => cases rewound
  next inRange =>
    split at rewound
    next ring =>
      split at rewound
      next => cases rewound
      next uncommitted =>
        cases rewound
        exact ⟨by omega, by omega, fun _ => by omega, rfl, rfl⟩
    next linear =>
      cases rewound
      exact ⟨by omega, by omega, fun ring => absurd ring linear, rfl, rfl⟩

theorem shear_some {P : Int} (sheared : gemma4KvShear geometry P session = some next) :
    0 ≤ P ∧ P.toNat ≤ session.dposHost ∧
      (0 < geometry.ringW →
        session.ringWrapped = false ∧ session.dposHost ≤ geometry.ringW) ∧
      next = { session with dposHost := P.toNat, commitPos := P.toNat, jcur := 0 } := by
  unfold gemma4KvShear at sheared
  split at sheared
  next => cases sheared
  next inRange =>
    split at sheared
    next => cases sheared
    next positional =>
      cases sheared
      refine ⟨by omega, by omega, fun ring => ?_, rfl⟩
      rw [not_and, not_or, Bool.not_eq_true, not_lt] at positional
      exact positional ring

/-- A step of an owner is a journaled store at the live position. -/
theorem storeStep_owner {minted : Minted Row} {layer : Nat} {owned : LayerCache Row}
    (owner : layer < geometry.kvfs) :
    storeStep geometry session minted layer owned =
      replayRow geometry session layer owned (minted, 0) := by
  unfold storeStep replayRow
  rw [if_neg (Nat.not_le.mpr owner)]
  by_cases ringed : geometry.ringed layer = true
  · have ring : 0 < geometry.ringW ∧ geometry.isGlobal layer = false := by
      simpa [Geometry.ringed] using ringed
    simp only [if_pos ring, ringed, if_true, Geometry.slotOf, Nat.add_zero]
  · have linear : ¬ (0 < geometry.ringW ∧ geometry.isGlobal layer = false) := by
      simpa [Geometry.ringed] using ringed
    simp only [if_neg linear, ringed, Geometry.slotOf, Nat.add_zero]
    rfl

theorem replayRow_succ {layer : Nat} {rest : List (Minted Row)} {owned : LayerCache Row} (k : Nat)
    (position : next.dposHost = session.dposHost + 1)
    (baseline : next.commitPos = session.commitPos) :
    (rest.zipIdx (k + 1)).foldl (replayRow geometry session layer) owned =
      (rest.zipIdx k).foldl (replayRow geometry next layer) owned := by
  induction rest generalizing k owned with
  | nil => rfl
  | cons row rest inductionHypothesis =>
      rw [List.zipIdx_cons, List.zipIdx_cons, List.foldl_cons, List.foldl_cons,
        inductionHypothesis (k + 1)]
      congr 1
      unfold replayRow
      simp only [position, baseline, show session.dposHost + 1 + k = session.dposHost + (k + 1) by omega]

theorem updateEach_owners {visit : Nat → LayerCache Row → LayerCache Row} {layer : Nat}
    (layers : Nat → LayerCache Row) :
    updateEach visit geometry.owners layers layer =
      if layer ∈ geometry.owners then visit layer (layers layer) else layers layer := by
  by_cases owner : layer ∈ geometry.owners
  · rw [if_pos owner, updateEach_of_mem _ geometry.owners _ _ List.nodup_range owner]
  · rw [if_neg owner, updateEach_of_notMem _ geometry.owners _ _ owner]

/-- One more position of the restore loop, the lowest so far. -/
theorem restoreRows_succ (delta layer : Nat) :
    restoreRows geometry session (delta + 1) layer =
      if layer ∈ geometry.owners then
        restoreSlot geometry session.commitPos (session.dposHost - 1 - delta) layer
          (restoreRows geometry session delta layer)
      else restoreRows geometry session delta layer := by
  rw [restoreRows, List.range_succ, List.foldl_append]
  exact updateEach_owners _

/-- A step stores into the owners only, after the slide. -/
theorem stepAndAdvance_layers {minted : Minted Row} (layer : Nat)
    (stepped : stepAndAdvance geometry minted session = some next) :
    next.layers layer =
      if layer ∈ geometry.owners then
        replayRow geometry (slideJournal geometry session) layer (session.layers layer) (minted, 0)
      else session.layers layer := by
  have slidLayers : (slideJournal geometry session).layers = session.layers := by
    unfold slideJournal
    split <;> rfl
  obtain ⟨middle, stored, rfl⟩ := Option.map_eq_some_iff.mp stepped
  unfold g4KvStep at stored
  dsimp only at stored
  split at stored
  next => cases stored
  next =>
    cases stored
    simp only [advance, slidLayers]
    by_cases known : layer < geometry.NL
    · rw [updateEach_of_mem _ _ _ _ List.nodup_range (List.mem_range.mpr known)]
      by_cases owner : layer < geometry.kvfs
      · rw [if_pos (Geometry.mem_owners.mpr ⟨owner, known⟩), storeStep_owner owner]
      · rw [if_neg fun member => owner (Geometry.mem_owners.mp member).1, storeStep,
          if_pos (Nat.le_of_not_lt owner)]
    · rw [updateEach_of_notMem _ _ _ _ fun member => known (List.mem_range.mp member),
        if_neg fun member => known (Geometry.mem_owners.mp member).2]

theorem slideJournal_of_room
    (room : 0 < geometry.ringW → session.dposHost - session.commitPos < geometry.Jmax) :
    slideJournal geometry session = session := by
  unfold slideJournal
  split
  next full => exact absurd (room full.1) (Nat.not_lt.mpr full.2.2)
  next => rfl

/-- With room in the journal a step does not fail. -/
theorem stepAndAdvance_isSome {minted : Minted Row}
    (room : 0 < geometry.ringW → session.dposHost - session.commitPos < geometry.Jmax) :
    ∃ next, stepAndAdvance geometry minted session = some next ∧
      next.jcur = session.jcur ∧ next.oneShot = session.oneShot ∧
      next.ringWrapped = (session.ringWrapped ||
        (decide (0 < geometry.ringW) && decide (geometry.ringW < session.dposHost + 1))) := by
  unfold stepAndAdvance g4KvStep
  rw [slideJournal_of_room room]
  dsimp only
  rw [if_neg]
  · exact ⟨_, rfl, rfl, rfl, rfl⟩
  · simp only [List.any_eq_true, Bool.and_eq_true, decide_eq_true_eq]
    rintro ⟨_, _, _, ring, full⟩
    exact absurd (room ring) (Nat.not_lt.mpr full)

/-- A replay is as many steps, since it never has to slide the journal. -/
theorem steps_of_room {rows : List (Minted Row)}
    (room : 0 < geometry.ringW →
      session.dposHost - session.commitPos + rows.length ≤ geometry.Jmax) :
    ∃ next, runEach (stepAndAdvance geometry) rows session = some next ∧
      next.jcur = session.jcur ∧ next.oneShot = session.oneShot ∧
      next.dposHost = session.dposHost + rows.length ∧ next.commitPos = session.commitPos ∧
      (rows.length ≠ 0 → next.ringWrapped = (session.ringWrapped ||
        (decide (0 < geometry.ringW) &&
          decide (geometry.ringW < session.dposHost + rows.length)))) ∧
      next.layers = updateEach
        (fun layer owned => rows.zipIdx.foldl (replayRow geometry session layer) owned)
        geometry.owners session.layers := by
  induction rows generalizing session with
  | nil =>
      refine ⟨session, rfl, rfl, rfl, rfl, rfl, fun absent => absurd rfl absent, ?_⟩
      funext layer
      rw [updateEach_owners]
      split <;> rfl
  | cons row rest inductionHypothesis =>
      rw [List.length_cons] at room
      have roomNow : 0 < geometry.ringW →
          session.dposHost - session.commitPos < geometry.Jmax := fun ring => by
        have fits := room ring
        omega
      obtain ⟨middle, stepped, jcur, oneShot, wrapped⟩ :=
        @stepAndAdvance_isSome _ _ session row roomNow
      obtain ⟨position, baseline⟩ := stepAndAdvance_some stepped
      rw [slideJournal_of_room roomNow] at baseline
      obtain ⟨next, run, jcur', oneShot', position', baseline', wrapped', layers⟩ :=
        @inductionHypothesis middle (fun ring => by
          have fits := room ring
          rw [position, baseline]
          omega)
      refine ⟨next, Option.bind_eq_some_iff.mpr ⟨middle, stepped, run⟩, jcur'.trans jcur,
        oneShot'.trans oneShot, ?_, baseline'.trans baseline, fun _ => ?_, ?_⟩
      · rw [position', position, List.length_cons]
        omega
      · cases rest with
        | nil =>
            cases run
            exact wrapped
        | cons second rest =>
            rw [wrapped' (by simp), wrapped, position, Bool.eq_iff_iff]
            simp only [Bool.or_eq_true, Bool.and_eq_true, decide_eq_true_eq, or_assoc,
              List.length_cons]
            constructor
            · rintro (already | ⟨ring, above⟩ | ⟨ring, above⟩)
              · exact Or.inl already
              · exact Or.inr ⟨ring, by omega⟩
              · exact Or.inr ⟨ring, by omega⟩
            · rintro (already | ⟨ring, above⟩)
              · exact Or.inl already
              · exact Or.inr (Or.inr ⟨ring, by omega⟩)
      · funext layer
        rw [layers, updateEach_owners, updateEach_owners, stepAndAdvance_layers layer stepped,
          slideJournal_of_room roomNow]
        by_cases owner : layer ∈ geometry.owners
        · rw [if_pos owner, if_pos owner, if_pos owner, List.zipIdx_cons, List.foldl_cons,
            replayRow_succ 0 position baseline]
        · rw [if_neg owner, if_neg owner, if_neg owner]

/-- A successful replay leaves what as many steps with the same rows would. -/
theorem replay_steps {rows : List (Minted Row)}
    (replayed : gemma4KvReplay geometry widths rows session = some next) :
    runEach (stepAndAdvance geometry) rows session = some next := by
  obtain ⟨_, room, _⟩ := replay_some replayed
  obtain ⟨stepped, run, jcur, oneShot, position, baseline, wrapped, layers⟩ :=
    @steps_of_room _ _ session rows room
  unfold gemma4KvReplay at replayed
  split at replayed
  next => cases replayed
  next accepted =>
    simp only [not_or] at accepted
    cases replayed
    rw [run]
    congr 1
    obtain ⟨_, _, _, _, _, _⟩ := stepped
    simp only at jcur oneShot position baseline wrapped layers
    rw [jcur, oneShot, position, baseline, wrapped accepted.2.2.1, layers]

theorem stepAndAdvance_wrapped {minted : Minted Row}
    (stepped : stepAndAdvance geometry minted session = some next) :
    next.ringWrapped = (session.ringWrapped ||
      (decide (0 < geometry.ringW) && decide (geometry.ringW < session.dposHost + 1))) := by
  obtain ⟨middle, stored, rfl⟩ := Option.map_eq_some_iff.mp stepped
  unfold g4KvStep at stored
  dsimp only at stored
  split at stored
  next => cases stored
  next =>
    cases stored
    simp only [advance, slideJournal]
    split <;> rfl

/-- The peek stores like a step; its counters and the flag stay. -/
theorem readGlobalQ_layers {row : Minted Row} (layer : Nat)
    (peeked : gemma4KvReadGlobalQ geometry widths row session = some next) :
    next.ringWrapped = session.ringWrapped ∧
      next.layers layer =
        if layer ∈ geometry.owners then
          replayRow geometry (slideJournal geometry session) layer (session.layers layer) (row, 0)
        else session.layers layer := by
  unfold gemma4KvReadGlobalQ at peeked
  split at peeked
  next => cases peeked
  next =>
    obtain ⟨stepped, stored, rfl⟩ := Option.map_eq_some_iff.mp peeked
    have advanced : stepAndAdvance geometry row session = some (advance geometry stepped) := by
      rw [stepAndAdvance, stored, Option.map_some]
    have layers := stepAndAdvance_layers layer advanced
    refine ⟨?_, layers⟩
    unfold g4KvStep at stored
    dsimp only at stored
    split at stored
    next => cases stored
    next =>
      cases stored
      simp only [slideJournal]
      split <;> rfl

theorem restoreRowsAt_some {saved : PrefixRows Row}
    (restored : restoreRowsAt geometry saved session = some next) :
    saved.P ≤ geometry.Pmax ∧ next.dposHost = saved.P ∧ next.commitPos = saved.P := by
  unfold restoreRowsAt at restored
  split at restored
  next => cases restored
  next accepted =>
    cases restored
    rw [not_or, not_lt] at accepted
    exact ⟨accepted.2, rfl, rfl⟩

/-- A batch stores into the owners only. -/
theorem batchedFrom_layers {env : BatchEnv} {rows : List (Minted Row)} {P : Nat} (layer : Nat)
    (batched : gemma4KvPrefillBatchedFrom geometry env rows P session = some next) :
    next.layers layer =
      if layer ∈ geometry.owners then storeBatch geometry session rows layer (session.layers layer)
      else session.layers layer := by
  unfold gemma4KvPrefillBatchedFrom at batched
  split at batched
  next => cases batched
  next =>
    cases batched
    simp only
    by_cases known : layer < geometry.NL
    · rw [updateEach_of_mem _ _ _ _ List.nodup_range (List.mem_range.mpr known)]
      by_cases owner : layer < geometry.kvfs
      · rw [if_pos (Geometry.mem_owners.mpr ⟨owner, known⟩)]
      · rw [if_neg fun member => owner (Geometry.mem_owners.mp member).1, storeBatch,
          if_pos (Nat.le_of_not_lt owner)]
    · rw [updateEach_of_notMem _ _ _ _ fun member => known (List.mem_range.mp member),
        if_neg fun member => known (Geometry.mem_owners.mp member).2]

theorem flatten_pieces {Piece : Type u} {width : Nat} (some_width : width ≠ 0) :
    ∀ (fuel : Nat) (rows : List Piece), rows.length ≤ fuel →
      (pieces width fuel rows).flatten = rows
  | 0, rows, short => by
      rw [List.length_eq_zero_iff.mp (Nat.le_zero.mp short)]
      rfl
  | fuel + 1, rows, short => by
      unfold pieces
      split
      next empty =>
        rw [List.isEmpty_iff.mp empty]
        rfl
      next more =>
        have nonempty : rows.length ≠ 0 := fun none_left =>
          more (List.isEmpty_iff.mpr (List.length_eq_zero_iff.mp none_left))
        rw [List.flatten_cons, flatten_pieces some_width fuel (rows.drop width) (by
          rw [List.length_drop]
          omega), List.take_append_drop]

theorem orRefuse_placed {call : KvSession Row → Option (KvSession Row)}
    (placed : session.Placed geometry)
    (keeps : ∀ next, call session = some next → next.Placed geometry) :
    (orRefuse call session).1.Placed geometry := by
  unfold orRefuse
  cases served : call session with
  | none => exact placed
  | some next => exact keeps next served

theorem placed_of_served {call : KvSession Row → Option (KvSession Row)}
    (served : call session = some next) (placed : (orRefuse call session).1.Placed geometry) :
    next.Placed geometry := by
  rw [orRefuse, served] at placed
  exact placed

theorem placed_batchedFrom {env : BatchEnv} {rows : List (Minted Row)} {P : Nat}
    (placed : session.Placed geometry)
    (batched : gemma4KvPrefillBatchedFrom geometry env rows P session = some next) :
    next.Placed geometry := by
  obtain ⟨standing, room, _, position, baseline⟩ := batchedFrom_some batched
  constructor
  · rw [position]
    exact room
  · intro ring
    have below := placed.commit_le ring
    omega

theorem placed_pieces {env : Nat → BatchEnv} {pieces : List (List (Minted Row))} {off : Nat}
    (placed : session.Placed geometry) :
    (prefillPieces geometry env pieces off session).1.Placed geometry := by
  induction pieces generalizing off session with
  | nil => exact placed
  | cons piece rest inductionHypothesis =>
      unfold prefillPieces
      cases batched : gemma4KvPrefillBatchedFrom geometry (env off) piece off session with
      | none => exact placed
      | some next => exact inductionHypothesis (placed_batchedFrom placed batched)

/-- Every call, refused or not, keeps the position where it belongs. -/
theorem placed_serve (widths : RowWidths) (call : SessionCall Row) (placed : session.Placed geometry) :
    (call.serve geometry widths session).1.Placed geometry := by
  cases call with
  | prefill rows =>
      apply orRefuse_placed placed
      intro next filled
      obtain ⟨_, room, run⟩ := prefill_some filled
      exact placed_steps placed room run
  | prefillBatched env chunk rows =>
      simp only [SessionCall.serve, gemma4KvPrefillBatched]
      split
      next =>
        exact @orRefuse_placed _ _ _ (gemma4KvPrefillBatchedFrom geometry (env 0) rows 0) placed
          fun next batched => placed_batchedFrom placed batched
      next => exact placed_pieces placed
  | prefillBatchedFrom env rows P =>
      exact orRefuse_placed placed fun next batched => placed_batchedFrom placed batched
  | decode rows =>
      apply orRefuse_placed placed
      intro next decoded
      obtain ⟨room, run⟩ := decode_some decoded
      exact placed_steps placed room.le run
  | decodeLogits row =>
      apply orRefuse_placed placed
      intro next decoded
      obtain ⟨room, run⟩ := decode_some (decodeLogits_some decoded)
      exact placed_steps placed room.le run
  | decodeBatch rows =>
      apply orRefuse_placed placed
      intro next decoded
      obtain ⟨room, run⟩ := decode_some (decodeBatch_some decoded)
      exact placed_steps placed room.le run
  | injectTokens scale rows =>
      apply orRefuse_placed placed
      intro next injected
      obtain ⟨room, stepped, run, position, baseline⟩ := inject_some injected
      have inside := placed_steps placed room (runEach_prefill_singletons run)
      constructor
      · rw [position]
        exact inside.present_le
      · rw [position, baseline]
        exact inside.commit_le
  | replay rows =>
      apply orRefuse_placed placed
      intro next replayed
      obtain ⟨room, _, position, baseline⟩ := replay_some replayed
      constructor
      · rw [position]
        exact room
      · intro ring
        have below := placed.commit_le ring
        omega
  | readGlobalQ row =>
      apply orRefuse_placed placed
      intro next peeked
      obtain ⟨_, position, baseline⟩ := readGlobalQ_some peeked
      constructor
      · rw [position]
        exact placed.present_le
      · rw [position, baseline]
        exact placed.commit_le
  | rewind delta =>
      apply orRefuse_placed placed
      intro next rewound
      obtain ⟨_, inside, uncommitted, position, baseline⟩ := rewind_some rewound
      have present := placed.present_le
      constructor
      · omega
      · intro ring
        have above := uncommitted ring
        omega
  | commit => exact ⟨placed.present_le, fun _ => Nat.le_refl _⟩
  | shear P =>
      apply orRefuse_placed placed
      intro next sheared
      obtain ⟨_, inside, _, rfl⟩ := shear_some sheared
      exact ⟨inside.trans placed.present_le, fun _ => Nat.le_refl _⟩
  | restorePrefix saved =>
      apply orRefuse_placed placed
      intro next restored
      obtain ⟨room, position, baseline⟩ := restoreRowsAt_some restored
      constructor
      · rw [position]
        exact room
      · intro _
        rw [position, baseline]
  | reset => exact ⟨Nat.zero_le _, fun _ => Nat.le_refl _⟩

end Bounds

end KairosEngine.Cuda
