import KairosEngine.Cuda.BatchedPrefill
import KairosEngine.Library.RowMajor

/-!
# The prefix blob

A snapshot copies, for every owner, the raw bytes of its K buffer and of its V buffer into one
flat host blob; a restore walks the blob the same way.  The bytes refine the row-level snapshot
and restore, which in turn leave what attention reads as it was.
-/

namespace KairosEngine.Cuda

open KairosEngine.Library

/-- The bytes of one slot of the K buffer and of the V buffer. -/
structure KvRow where
  k : Nat → UInt8
  v : Nat → UInt8

def KvRow.SameBytes (size : Nat) (one other : KvRow) : Prop :=
  ∀ column < size, one.k column = other.k column ∧ one.v column = other.v column

section Blob

variable (geometry : Geometry) (widths : RowWidths)

def kvd (layer : Nat) : Nat :=
  if geometry.isGlobal layer then widths.gNkv * widths.gHd else widths.sNkv * widths.sHd

/-- `G4_KV_FP16_LAYER` -/
def fp16Layer (layer : Nat) : Bool :=
  if geometry.isGlobal layer then widths.kvFp16G else widths.kvFp16

def rowBytes (layer : Nat) : Nat :=
  kvd geometry widths layer * (if fp16Layer geometry widths layer then 2 else 4)

/-- The bytes of one of a layer's two buffers that a prefix of `P` covers. -/
def layerBytes (layer P : Nat) : Nat :=
  prefixSlots geometry layer P * rowBytes geometry widths layer

def gemma4KvPrefixBytes (P : Int) : Int :=
  if P ≤ 0 ∨ (geometry.Pmax : Int) < P then -1
  else (geometry.owners.map fun layer => 2 * layerBytes geometry widths layer P.toNat).sum

/-- K, then V. -/
def snapshotLayer (P : Nat) (session : KvSession KvRow) (layer : Nat) : List UInt8 :=
  let slots := prefixSlots geometry layer P
  let size := rowBytes geometry widths layer
  copyOut size slots (fun slot => ((session.layers layer).cache slot).k) ++
    copyOut size slots (fun slot => ((session.layers layer).cache slot).v)

/-- The host buffer after the snapshot and the bytes it reports as written. -/
def gemma4KvSnapshotPrefix (host : List UInt8) (P : Int) (session : KvSession KvRow) :
    Option (List UInt8 × Int) :=
  if P ≤ 0 ∨ (session.dposHost : Int) ≠ P then
    none
  else
    let need := gemma4KvPrefixBytes geometry widths P
    if need < 0 ∨ (host.length : Int) < need then
      none
    else
      let blob := geometry.owners.flatMap (snapshotLayer geometry widths P.toNat session)
      some (blob ++ host.drop blob.length, need)

/-- Copy from the front of the blob; `none` where the copy would leave it. -/
def readBytes (count : Nat) (blob : List UInt8) : Option (List UInt8 × List UInt8) :=
  if count ≤ blob.length then some (blob.take count, blob.drop count) else none

/-- Overwrite the covered slots of one layer. -/
def copyRows (P layer : Nat) (ks vs : List UInt8) (owned : LayerCache KvRow) :
    LayerCache KvRow :=
  let slots := prefixSlots geometry layer P
  let size := rowBytes geometry widths layer
  { owned with
    cache := fun slot =>
      { k := copyIn size slots ks (fun slot => (owned.cache slot).k) slot
        v := copyIn size slots vs (fun slot => (owned.cache slot).v) slot } }

/-- The copy loop of a restore, with what is left of the blob behind it. -/
def restoreLayers (P : Nat) :
    List Nat → List UInt8 → (Nat → LayerCache KvRow) →
      Option ((Nat → LayerCache KvRow) × List UInt8)
  | [], blob, layers => some (layers, blob)
  | layer :: rest, blob, layers => do
      let nb := layerBytes geometry widths layer P
      let (ks, afterK) ← readBytes nb blob
      let (vs, afterV) ← readBytes nb afterK
      restoreLayers P rest afterV
        (Function.update layers layer (copyRows geometry widths P layer ks vs (layers layer)))

/-- The session and the part of the blob that was not read. -/
def gemma4KvRestorePrefix (host : List UInt8) (P : Int) (session : KvSession KvRow) :
    Option (KvSession KvRow × List UInt8) :=
  if P ≤ 0 ∨ (geometry.Pmax : Int) < P then
    none
  else
    let need := gemma4KvPrefixBytes geometry widths P
    if need < 0 ∨ (host.length : Int) < need then
      none
    else do
      let (layers, unread) ←
        restoreLayers geometry widths P.toNat geometry.owners host session.layers
      some ({ session with
        dposHost := P.toNat
        commitPos := P.toNat
        jcur := 0
        layers := layers }, unread)

end Blob

/-! ## The bytes of a layer -/

section Layers

variable {geometry : Geometry} {widths : RowWidths} {session other : KvSession KvRow} {P : Nat}

theorem length_snapshotLayer (layer : Nat) :
    (snapshotLayer geometry widths P session layer).length =
      2 * layerBytes geometry widths layer P := by
  rw [snapshotLayer, List.length_append, length_copyOut, length_copyOut, layerBytes, Nat.two_mul]

theorem prefixBytes_eq (inside : ¬ ((P : Int) ≤ 0 ∨ (geometry.Pmax : Int) < P)) :
    gemma4KvPrefixBytes geometry widths P =
      (geometry.owners.flatMap (snapshotLayer geometry widths P session)).length := by
  rw [gemma4KvPrefixBytes, if_neg inside, List.length_flatMap, Int.toNat_natCast]
  simp only [length_snapshotLayer]

theorem readBytes_append {front back : List UInt8} {count : Nat} (exact : front.length = count) :
    readBytes count (front ++ back) = some (front, back) := by
  subst exact
  rw [readBytes, if_pos (by rw [List.length_append]; exact Nat.le_add_right _ _),
    List.take_left, List.drop_left]

/-- Where the copied rows of one layer come from. -/
theorem copyRows_snapshot (layer slot : Nat) (owned : LayerCache KvRow) :
    let size := rowBytes geometry widths layer
    let slots := prefixSlots geometry layer P
    KvRow.SameBytes size
      ((copyRows geometry widths P layer
        (copyOut size slots fun slot => ((session.layers layer).cache slot).k)
        (copyOut size slots fun slot => ((session.layers layer).cache slot).v) owned).cache slot)
      (if slot < slots then (session.layers layer).cache slot else owned.cache slot) := by
  intro size slots column inside
  simp only [copyRows]
  split
  next covered => exact ⟨copyIn_copyOut covered inside, copyIn_copyOut covered inside⟩
  next beyond =>
    have outside := Nat.le_of_not_lt beyond
    rw [copyIn_of_le outside, copyIn_of_le outside]
    exact ⟨rfl, rfl⟩

/-- A restore of a snapshot writes back every layer in turn and stops where the snapshot did. -/
theorem restoreLayers_snapshot (rest : List UInt8) (list : List Nat)
    (layers : Nat → LayerCache KvRow) :
    restoreLayers geometry widths P list
        (list.flatMap (snapshotLayer geometry widths P session) ++ rest) layers =
      some (updateEach (fun layer owned =>
        let size := rowBytes geometry widths layer
        let slots := prefixSlots geometry layer P
        copyRows geometry widths P layer
          (copyOut size slots fun slot => ((session.layers layer).cache slot).k)
          (copyOut size slots fun slot => ((session.layers layer).cache slot).v) owned)
        list layers, rest) := by
  induction list generalizing layers with
  | nil => rfl
  | cons layer more inductionHypothesis =>
      simp only [List.flatMap_cons, snapshotLayer, List.append_assoc, restoreLayers, updateEach]
      rw [readBytes_append (by rw [length_copyOut, layerBytes])]
      simp only [Option.bind_eq_bind, Option.bind_some]
      rw [readBytes_append (by rw [length_copyOut, layerBytes])]
      simp only [Option.bind_some]
      exact inductionHypothesis _

/-- Sessions that differ at most in bytes no slot has. -/
structure SameSlots (geometry : Geometry) (widths : RowWidths) (one other : KvSession KvRow) :
    Prop where
  dposHost_eq : one.dposHost = other.dposHost
  commitPos_eq : one.commitPos = other.commitPos
  cache_eq : ∀ layer slot, KvRow.SameBytes (rowBytes geometry widths layer)
    ((one.layers layer).cache slot) ((other.layers layer).cache slot)

theorem KvRow.SameBytes.refl (size : Nat) (row : KvRow) : row.SameBytes size row :=
  fun _ _ => ⟨rfl, rfl⟩

end Layers

/-! ## The blob refines the rows -/

section Refinement

variable {geometry : Geometry} {widths : RowWidths} {session other : KvSession KvRow} {P : Int}

theorem snapshotPrefix_some {host blob : List UInt8} {written : Int}
    (taken : gemma4KvSnapshotPrefix geometry widths host P session = some (blob, written)) :
    0 < P ∧ (session.dposHost : Int) = P ∧ P ≤ geometry.Pmax ∧
      written = gemma4KvPrefixBytes geometry widths P ∧
      let bytes := geometry.owners.flatMap (snapshotLayer geometry widths P.toNat session)
      written = bytes.length ∧ bytes.length ≤ host.length ∧
        blob = bytes ++ host.drop bytes.length := by
  unfold gemma4KvSnapshotPrefix at taken
  split at taken
  next => cases taken
  next standing =>
    dsimp only at taken
    split at taken
    next => cases taken
    next room =>
      cases taken
      rw [not_or] at standing room
      have inside : ¬ (P ≤ 0 ∨ (geometry.Pmax : Int) < P) := by
        intro refused
        apply room.1
        rw [gemma4KvPrefixBytes, if_pos refused]
        decide
      have position : P = (P.toNat : Int) := by omega
      have bytes := @prefixBytes_eq geometry widths session P.toNat (position ▸ inside)
      rw [← position] at bytes
      refine ⟨by omega, by omega, by omega, rfl, bytes, ?_, rfl⟩
      rw [bytes] at room
      omega

theorem restorePrefix_of_layers {host unread : List UInt8} {layers : Nat → LayerCache KvRow}
    (inside : ¬ (P ≤ 0 ∨ (geometry.Pmax : Int) < P))
    (room : ¬ (gemma4KvPrefixBytes geometry widths P < 0 ∨
      (host.length : Int) < gemma4KvPrefixBytes geometry widths P))
    (read : restoreLayers geometry widths P.toNat geometry.owners host session.layers =
      some (layers, unread)) :
    gemma4KvRestorePrefix geometry widths host P session =
      some ({ session with dposHost := P.toNat, commitPos := P.toNat, jcur := 0, layers },
        unread) := by
  rw [gemma4KvRestorePrefix, if_neg inside]
  simp only [if_neg room, read]
  rfl

/-- Restoring a snapshot's blob does to the slots what restoring its rows does. -/
theorem restorePrefix_snapshot {host blob : List UInt8} {written : Int}
    (taken : gemma4KvSnapshotPrefix geometry widths host P session = some (blob, written))
    (other : KvSession KvRow) :
    ∃ saved restored kept, snapshotRows geometry P session = some saved ∧
      gemma4KvRestorePrefix geometry widths blob P other =
        some (restored, host.drop written.toNat) ∧
      restoreRowsAt geometry saved other = some kept ∧
      SameSlots geometry widths restored kept := by
  obtain ⟨positive, standing, inside, need, written_eq, room, rfl⟩ := snapshotPrefix_some taken
  have saved : snapshotRows geometry P session =
      some ⟨P.toNat, fun layer => (session.layers layer).cache⟩ := by
    rw [snapshotRows, if_neg (by omega)]
  have kept : restoreRowsAt geometry ⟨P.toNat, fun layer => (session.layers layer).cache⟩ other =
      some { other with
        dposHost := P.toNat
        commitPos := P.toNat
        jcur := 0
        layers := updateEach
          (restoreLayer geometry ⟨P.toNat, fun layer => (session.layers layer).cache⟩)
          geometry.owners other.layers } := by
    rw [restoreRowsAt, if_neg (by simp only; omega)]
  have copied := @restoreLayers_snapshot geometry widths session P.toNat
    (host.drop (geometry.owners.flatMap (snapshotLayer geometry widths P.toNat session)).length)
    geometry.owners other.layers
  have fits : ¬ (gemma4KvPrefixBytes geometry widths P < 0 ∨
      ((geometry.owners.flatMap (snapshotLayer geometry widths P.toNat session) ++ host.drop
        (geometry.owners.flatMap (snapshotLayer geometry widths P.toNat session)).length).length :
          Int) < gemma4KvPrefixBytes geometry widths P) := by
    rw [← need, written_eq, List.length_append]
    omega
  have restored := restorePrefix_of_layers (by omega) fits copied
  rw [written_eq, Int.toNat_natCast]
  refine ⟨_, _, _, saved, restored, kept, rfl, rfl, fun layer slot => ?_⟩
  simp only [updateEach_owners]
  split
  next owner => exact copyRows_snapshot layer slot (other.layers layer)
  next shared => exact KvRow.SameBytes.refl _ _

end Refinement

/-! ## What attention finds after a restore -/

section Attention

variable {geometry : SharedGeometry} {widths : RowWidths}

/-- The slot of a position below `P` is one that the snapshot covers. -/
theorem slotOf_lt_prefixSlots {geometry : Geometry} {layer pos P : Nat} (below : pos < P) :
    geometry.slotOf layer pos < prefixSlots geometry layer P := by
  unfold Geometry.slotOf prefixSlots
  split
  next ringed => exact Nat.mod_lt _ (Geometry.ringed_iff.mp ringed).1
  next linear => exact below

theorem restored_cache {Row : Type*} {geometry : Geometry} {session other kept : KvSession Row}
    {saved : PrefixRows Row} {P : Int} {layer slot : Nat}
    (taken : snapshotRows geometry P session = some saved)
    (restored : restoreRowsAt geometry saved other = some kept)
    (owner : layer ∈ geometry.owners) (covered : slot < prefixSlots geometry layer saved.P) :
    (kept.layers layer).cache slot = (session.layers layer).cache slot := by
  unfold snapshotRows at taken
  split at taken
  next => cases taken
  next =>
    cases taken
    unfold restoreRowsAt at restored
    split at restored
    next => cases restored
    next =>
      cases restored
      simp only [updateEach_owners, if_pos owner, restoreLayer]
      exact if_pos covered

theorem snapshotRows_some {Row : Type*} {geometry : Geometry} {session : KvSession Row}
    {saved : PrefixRows Row} {P : Int} (taken : snapshotRows geometry P session = some saved) :
    saved.P = session.dposHost ∧ (saved.P : Int) = P := by
  unfold snapshotRows at taken
  split at taken
  next => cases taken
  next standing =>
    cases taken
    simp only
    omega

/-- Steps read the same from the restored rows as from the ones that were saved. -/
theorem restored_reads {Row : Type*} {session other kept : KvSession Row} {saved : PrefixRows Row}
    {P : Int} {layer : Nat} (known : layer < geometry.NL)
    (taken : snapshotRows geometry.toGeometry P session = some saved)
    (restored : restoreRowsAt geometry.toGeometry saved other = some kept)
    (rows : List (Minted Row)) :
    stepsReads geometry.toGeometry layer rows kept =
      stepsReads geometry.toGeometry layer rows session := by
  have position : kept.dposHost = session.dposHost :=
    (restoreRowsAt_some restored).2.1.trans (snapshotRows_some taken).1
  rw [stepsReads_eq known, stepsReads_eq known, position]
  apply List.map_congr_left
  intro j bounded
  have few := List.mem_range.mp bounded
  apply List.map_congr_left
  intro pos read
  have inside := (Geometry.mem_window.mp read).1
  by_cases older : pos < session.dposHost
  · have before : pos < kept.dposHost := position ▸ older
    rw [rowAt_old before, rowAt_old older]
    apply restored_cache taken restored (source_owner known)
    apply slotOf_lt_prefixSlots
    rwa [(snapshotRows_some taken).1]
  · obtain ⟨i, rfl⟩ := Nat.exists_eq_add_of_le (Nat.le_of_not_lt older)
    have fresh : i < rows.length := by omega
    rw [rowAt_fresh fresh, ← position, rowAt_fresh fresh]

theorem rowAt_sameBytes {one other : KvSession KvRow}
    (same : SameSlots geometry.toGeometry widths one other) (rows : List (Minted KvRow))
    (layer pos : Nat) :
    KvRow.SameBytes (rowBytes geometry.toGeometry widths layer)
      (rowAt geometry.toGeometry one rows layer pos)
      (rowAt geometry.toGeometry other rows layer pos) := by
  have old := same.cache_eq layer (geometry.slotOf layer pos)
  unfold rowAt
  rw [same.dposHost_eq]
  split
  next => exact old
  next =>
    cases rows[pos - other.dposHost]? with
    | none => exact old
    | some minted => exact KvRow.SameBytes.refl _ _

/-- The reads of two loops of steps, byte for byte. -/
def SameReads (geometry : Geometry) (widths : RowWidths) (layer : Nat) :
    List (List KvRow) → List (List KvRow) → Prop :=
  List.Forall₂ (List.Forall₂ (KvRow.SameBytes (rowBytes geometry widths (geometry.source layer))))

theorem sameReads_of_sameSlots {one other : KvSession KvRow} {layer : Nat}
    (known : layer < geometry.NL) (same : SameSlots geometry.toGeometry widths one other)
    (rows : List (Minted KvRow)) :
    SameReads geometry.toGeometry widths layer
      (stepsReads geometry.toGeometry layer rows one)
      (stepsReads geometry.toGeometry layer rows other) := by
  rw [SameReads, stepsReads_eq known, stepsReads_eq known, same.dposHost_eq,
    List.forall₂_map_left_iff, List.forall₂_map_right_iff, List.forall₂_same]
  intro j _
  rw [List.forall₂_map_left_iff, List.forall₂_map_right_iff, List.forall₂_same]
  intro pos _
  exact rowAt_sameBytes same rows _ pos

end Attention

/-! ## The commit baseline after a restore -/

section Baseline

variable {Row : Type*} {geometry : Geometry} {widths : RowWidths} {session next : KvSession Row}

/-- A call that cannot move the commit baseline below `P`. -/
def SessionCall.KeepsBaseline (P : Nat) : SessionCall Row → Prop
  | .reset => False
  | .shear Q => (P : Int) ≤ Q
  | .restorePrefix saved => P ≤ saved.P
  | _ => True

theorem slideJournal_commit_ge :
    session.commitPos ≤ (slideJournal geometry session).commitPos := by
  unfold slideJournal
  split
  next full => simp only; omega
  next => exact Nat.le_refl _

theorem steps_commit_ge {rows : List (Minted Row)}
    (run : runEach (stepAndAdvance geometry) rows session = some next) :
    session.commitPos ≤ next.commitPos := by
  apply @runEach_preserves _ _ _ (fun reached => session.commitPos ≤ reached.commitPos)
    _ _ _ _ run (Nat.le_refl _)
  intro row before after stepped above
  rw [(stepAndAdvance_some stepped).2]
  exact above.trans slideJournal_commit_ge

theorem pieces_commit {env : Nat → BatchEnv} {parts : List (List (Minted Row))} {off : Nat} :
    (prefillPieces geometry env parts off session).1.commitPos = session.commitPos := by
  induction parts generalizing off session with
  | nil => rfl
  | cons piece rest inductionHypothesis =>
      unfold prefillPieces
      cases batched : gemma4KvPrefillBatchedFrom geometry (env off) piece off session with
      | none => rfl
      | some landed => exact inductionHypothesis.trans (batchedFrom_some batched).2.2.2.2

theorem orRefuse_commit {call : KvSession Row → Option (KvSession Row)} {P : Nat}
    (above : P ≤ session.commitPos)
    (keeps : ∀ next, call session = some next → session.commitPos ≤ next.commitPos) :
    P ≤ (orRefuse call session).1.commitPos := by
  unfold orRefuse
  cases served : call session with
  | none => exact above
  | some next => exact above.trans (keeps next served)

/-- In ring mode the baseline only moves up, whatever is called. -/
theorem baseline_serve {call : SessionCall Row} {P : Nat} (ring : 0 < geometry.ringW)
    (placed : session.Placed geometry) (above : P ≤ session.commitPos)
    (keeps : call.KeepsBaseline P) : P ≤ (call.serve geometry widths session).1.commitPos := by
  cases call with
  | prefill rows =>
      exact orRefuse_commit above fun next filled => steps_commit_ge (prefill_some filled).2.2
  | prefillBatched env chunk rows =>
      simp only [SessionCall.serve, prefillBatched_chunking, pieces_commit]
      exact above
  | prefillBatchedFrom env rows Q =>
      exact orRefuse_commit above fun next batched =>
        (batchedFrom_some batched).2.2.2.2.ge
  | decode rows =>
      exact orRefuse_commit above fun next decoded => steps_commit_ge (decode_some decoded).2
  | decodeLogits row =>
      exact orRefuse_commit above fun next decoded =>
        steps_commit_ge (decode_some (decodeLogits_some decoded)).2
  | decodeBatch rows =>
      exact orRefuse_commit above fun next decoded =>
        steps_commit_ge (decode_some (decodeBatch_some decoded)).2
  | injectTokens scale rows =>
      apply orRefuse_commit above
      intro next injected
      obtain ⟨_, stepped, run, _, baseline⟩ := inject_some injected
      rw [baseline]
      exact steps_commit_ge (runEach_prefill_singletons run)
  | replay rows =>
      exact orRefuse_commit above fun next replayed => (replay_some replayed).2.2.2.ge
  | readGlobalQ row =>
      exact orRefuse_commit above fun next peeked => (readGlobalQ_some peeked).2.2.ge
  | rewind delta =>
      exact orRefuse_commit above fun next rewound => (rewind_some rewound).2.2.2.2.ge
  | commit => exact above.trans (placed.commit_le ring)
  | shear Q =>
      simp only [SessionCall.serve, orRefuse]
      cases sheared : gemma4KvShear geometry Q session with
      | none => exact above
      | some next =>
          obtain ⟨_, _, _, rfl⟩ := shear_some sheared
          have kept : (P : Int) ≤ Q := keeps
          simp only
          omega
  | restorePrefix saved =>
      simp only [SessionCall.serve, orRefuse]
      cases restored : restoreRowsAt geometry saved session with
      | none => exact above
      | some next => exact (restoreRowsAt_some restored).2.2.symm ▸ keeps
  | reset => exact absurd keeps id

/-- No run of such calls reaches a state that rewinds below `P`. -/
theorem rewind_refused {calls : List (SessionCall Row)} {P : Nat} (ring : 0 < geometry.ringW)
    (placed : session.Placed geometry) (above : P ≤ session.commitPos)
    (guarded : GuardedRun (fun call session => (SessionCall.serve geometry widths call session).1)
      (fun call _ => call.KeepsBaseline P) calls session) (delta : Int) :
    let reached :=
      serveAll (fun call session => (SessionCall.serve geometry widths call session).1)
        calls session
    (reached.dposHost : Int) - delta < P → gemma4KvRewind geometry delta reached = none := by
  intro reached below
  have kept : reached.Placed geometry ∧ P ≤ reached.commitPos :=
    @GuardedRun.preserves _ _ _ _
      (fun reached => reached.Placed geometry ∧ P ≤ reached.commitPos)
      (fun call _ keeps before => ⟨placed_serve widths call before.1,
        baseline_serve ring before.1 before.2 keeps⟩) _ _ guarded ⟨placed, above⟩
  cases rewound : gemma4KvRewind geometry delta reached with
  | none => rfl
  | some next =>
      obtain ⟨positive, _, uncommitted, _⟩ := rewind_some rewound
      have bounded := uncommitted ring
      omega

end Baseline

/-! ## Snapshot, then restore -/

/-- What the restore of a snapshot taken at `P` brings back of the session it was taken from. -/
structure BringsBack (geometry : Geometry) (widths : RowWidths) (P : Int)
    (session restored : KvSession KvRow) : Prop where
  position : (restored.dposHost : Int) = P
  rows : ∀ layer ∈ geometry.owners, ∀ pos : Nat, pos < P →
    (geometry.ringed layer = true → P ≤ pos + geometry.ringW) →
      KvRow.SameBytes (rowBytes geometry widths layer)
        ((restored.layers layer).cache (geometry.slotOf layer pos))
        ((session.layers layer).cache (geometry.slotOf layer pos))
  reads : ∀ layer < geometry.NL, ∀ rows,
    SameReads geometry widths layer (stepsReads geometry layer rows restored)
      (stepsReads geometry layer rows session)
  /-- In ring mode no later call rewinds below `P`, until one lowers the baseline itself. -/
  settled : 0 < geometry.ringW → ∀ calls,
    GuardedRun (fun call session => (SessionCall.serve geometry widths call session).1)
        (fun call _ => call.KeepsBaseline P.toNat) calls restored →
      ∀ delta,
        let reached := serveAll
          (fun call session => (SessionCall.serve geometry widths call session).1) calls restored
        (reached.dposHost : Int) - delta < P → gemma4KvRewind geometry delta reached = none
  /-- Without a ring there is no commit check: a rewind moves the position and nothing else. -/
  unjournaled : geometry.ringW = 0 → ∀ delta, 0 ≤ delta → delta ≤ P →
    gemma4KvRewind geometry delta restored =
      some { restored with dposHost := (P - delta).toNat }

section RoundTrip

variable {geometry : SharedGeometry} {widths : RowWidths}
variable {session other restored kept : KvSession KvRow}

theorem bringsBack_of_rows {saved : PrefixRows KvRow} {P : Int}
    (taken : snapshotRows geometry.toGeometry P session = some saved)
    (put : restoreRowsAt geometry.toGeometry saved other = some kept)
    (same : SameSlots geometry.toGeometry widths restored kept) :
    BringsBack geometry.toGeometry widths P session restored := by
  obtain ⟨standing, positive⟩ := snapshotRows_some taken
  obtain ⟨room, keptPosition, keptCommit⟩ := restoreRowsAt_some put
  have position : restored.dposHost = saved.P := same.dposHost_eq.trans keptPosition
  have baseline : restored.commitPos = saved.P := same.commitPos_eq.trans keptCommit
  refine ⟨by omega, ?_, ?_, ?_, ?_⟩
  · intro layer owner pos below _
    have covered : geometry.slotOf layer pos < prefixSlots geometry.toGeometry layer saved.P :=
      slotOf_lt_prefixSlots (by omega)
    rw [← restored_cache taken put owner covered]
    exact same.cache_eq layer _
  · intro layer known rows
    rw [← restored_reads known taken put]
    exact sameReads_of_sameSlots known same rows
  · intro ring calls guarded delta reached below
    have placed : restored.Placed geometry.toGeometry :=
      ⟨by omega, fun _ => by omega⟩
    apply rewind_refused ring placed (by omega) guarded delta
    simp only [reached] at below
    omega
  · intro linear delta positiveDelta inside
    rw [gemma4KvRewind, if_neg (by omega), if_neg (by omega)]
    congr 2
    omega

/-- A snapshot writes `gemma4KvPrefixBytes` bytes of the host buffer; after whatever has been
done to the session, a restore reads as many and brings back what the snapshot saw. -/
theorem restorePrefix_bringsBack (geometry : SharedGeometry) (widths : RowWidths)
    (session : KvSession KvRow) (host blob : List UInt8) (P written : Int)
    (taken : gemma4KvSnapshotPrefix geometry.toGeometry widths host P session =
      some (blob, written)) :
    written = gemma4KvPrefixBytes geometry.toGeometry widths P ∧ written ≤ host.length ∧
      blob.length = host.length ∧ blob.drop written.toNat = host.drop written.toNat ∧
      ∀ other, ∃ restored,
        gemma4KvRestorePrefix geometry.toGeometry widths blob P other =
          some (restored, blob.drop written.toNat) ∧
        BringsBack geometry.toGeometry widths P session restored := by
  obtain ⟨_, _, _, need, written_eq, room, blob_eq⟩ := snapshotPrefix_some taken
  have untouched : blob.drop written.toNat = host.drop written.toNat := by
    rw [blob_eq, written_eq, Int.toNat_natCast, List.drop_left]
  refine ⟨need, by omega, ?_, untouched, fun other => ?_⟩
  · rw [blob_eq, List.length_append, List.length_drop]
    omega
  · obtain ⟨saved, restored, kept, rows, read, put, same⟩ := restorePrefix_snapshot taken other
    rw [untouched]
    exact ⟨restored, read, bringsBack_of_rows rows put same⟩

def constantRow (byte : UInt8) : KvRow := ⟨fun _ => byte, fun _ => byte⟩

/-- Rows for consecutive positions from an opened session on. -/
def filled (geometry : SharedGeometry) (bytes : List UInt8) : KvSession KvRow :=
  let blank := KvSession.opened (fun _ => ⟨fun _ => constantRow 0, fun _ => constantRow 0⟩) false
  (gemma4KvPrefill geometry.toGeometry (bytes.map fun byte _ => constantRow byte) blank).getD blank

/-- A wrapped ring of half rows beside a full cache of whole rows. -/
theorem restorePrefix_bringsBack_wrapped :
    let widths : RowWidths := ⟨1, 1, 1, 1, true, false⟩
    ∃ blob,
      gemma4KvSnapshotPrefix smallShared.toGeometry widths (List.replicate 50 0) 4
          (filled smallShared [1, 2, 3, 4]) = some (blob, 44) ∧
        blob.length = 50 ∧
        ∃ restored,
          gemma4KvRestorePrefix smallShared.toGeometry widths blob 4
              (gemma4KvReset (filled smallShared [5, 6])) =
            some (restored, List.replicate 6 0) ∧
          BringsBack smallShared.toGeometry widths 4 (filled smallShared [1, 2, 3, 4]) restored := by
  intro widths
  have result := restorePrefix_bringsBack smallShared widths (filled smallShared [1, 2, 3, 4])
    (List.replicate 50 0) _ 4 44 rfl
  obtain ⟨_, _, length_eq, rest, back⟩ := result
  obtain ⟨restored, read, brought⟩ := back (gemma4KvReset (filled smallShared [5, 6]))
  refine ⟨_, rfl, length_eq, restored, ?_, brought⟩
  rw [read, rest]
  rfl

/-- One full cache, no ring. -/
def singleLinear : SharedGeometry where
  Pmax := 8
  NL := 1
  kvfs := 1
  period := 2
  SW := 2
  ringW := 0
  Jmax := 1
  cpuTail := 0
  pmax_pos := by decide
  ring_le := by decide
  journal_pos := Nat.one_pos
  window_le := by decide
  source_matches := by
    intro layer shared known
    omega

/-- With no ring a restored session still rewinds below the prefix. -/
theorem restorePrefix_rewinds_below :
    let widths : RowWidths := ⟨1, 1, 1, 1, false, false⟩
    ∃ blob restored unread next,
      gemma4KvSnapshotPrefix singleLinear.toGeometry widths (List.replicate 16 0) 2
          (filled singleLinear [1, 2]) = some (blob, 16) ∧
        gemma4KvRestorePrefix singleLinear.toGeometry widths blob 2 (filled singleLinear [1, 2]) =
          some (restored, unread) ∧
        gemma4KvRewind singleLinear.toGeometry 1 restored = some next ∧ next.dposHost = 1 :=
  ⟨_, _, _, _, rfl, rfl, rfl, rfl⟩

end RoundTrip

end KairosEngine.Cuda
