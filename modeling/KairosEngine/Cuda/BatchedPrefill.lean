import KairosEngine.Cuda.KvBounds

/-!
# Batched and per-token prefill

Both prefills place the rows of a prompt in the caches and attend over them.  The batch reads
a flat scratch, a comb of the gathered prefix tail and its own rows, or the cache it has just
sunk into; the step reads the cache.  Rows are whatever the projections mint, a label in the
last section.
-/

namespace KairosEngine.Cuda

open KairosEngine.Library

universe u

namespace Geometry

/-- The layer whose cache a layer attends to. -/
def source (geometry : Geometry) (layer : Nat) : Nat :=
  if layer < geometry.kvfs then layer
  else geometry.kvfs - (if geometry.isGlobal layer then 1 else 2)

end Geometry

/-- An open geometry whose rings hold the window and whose sharers find an owner of their own
kind. -/
structure SharedGeometry extends OpenGeometry where
  window_le : 0 < ringW → SW ≤ ringW
  source_matches : ∀ layer, kvfs ≤ layer → layer < NL →
    (if toGeometry.isGlobal layer then 1 else 2) ≤ kvfs ∧
      toGeometry.isGlobal (toGeometry.source layer) = toGeometry.isGlobal layer

section Reads

variable {Row : Type u} (geometry : Geometry) (widths : RowWidths)

/-- What a layer attends to in one step, its own row stored first. -/
def stepReads (layer : Nat) (minted : Minted Row) (session : KvSession Row) : List Row :=
  let slid := slideJournal geometry session
  let src := geometry.source layer
  let owned := storeStep geometry slid minted src (slid.layers src)
  (geometry.window layer slid.dposHost).map fun pos => owned.cache (geometry.slotOf layer pos)

def stepsReads (layer : Nat) : List (Minted Row) → KvSession Row → List (List Row)
  | [], _ => []
  | row :: rest, session =>
      stepReads geometry layer row session ::
        match stepAndAdvance geometry row session with
        | none => []
        | some next => stepsReads layer rest next

/-- A device buffer of which the first entries have been written. -/
def written (scratch : Nat → Row) (rows : List Row) : Nat → Row :=
  fun i =>
    match rows[i]? with
    | some row => row
    | none => scratch i

/-- `k_ring_gather_T`, before the sink. -/
def ringGather (session : KvSession Row) (src P : Nat) : List Row :=
  (prefixTail geometry P).map fun pos => (session.layers src).cache (pos % geometry.ringW)

/-- The buffer a layer of a batch attends to, and the index of the first query in it.  A sharer
finds what its owner retained. -/
def batchBuffer (scratch : Nat → Row) (rows : List (Minted Row)) (P : Nat)
    (session : KvSession Row) (layer : Nat) : Nat × (Nat → Row) :=
  let src := geometry.source layer
  let fresh := rows.map fun minted => minted src
  let sunk := storeBatch geometry session rows src (session.layers src)
  if P = 0 then
    if 0 < geometry.ringW ∨ widths.kvFp16 = true ∨ widths.kvFp16G = true then
      (0, written scratch fresh)
    else
      (0, sunk.cache)
  else if geometry.ringed layer then
    let tail := ringGather geometry session src P
    (tail.length, written scratch (tail ++ fresh))
  else
    (P, sunk.cache)

/-- `k_attn_from_T`: query `j` reads its window in the indices of the buffer. -/
def batchReads (scratch : Nat → Row) (rows : List (Minted Row)) (P : Nat)
    (session : KvSession Row) (layer : Nat) : List (List Row) :=
  let (pos0, buffer) := batchBuffer geometry widths scratch rows P session layer
  (List.range rows.length).map fun j => (geometry.window layer (pos0 + j)).map buffer

/-- The scratch buffers are allocated anew for every chunk. -/
def piecesReads (scratch : Nat → Nat → Row) (env : Nat → BatchEnv) (layer : Nat) :
    List (List (Minted Row)) → Nat → KvSession Row → List (List Row)
  | [], _, _ => []
  | piece :: rest, off, session =>
      batchReads geometry widths (scratch off) piece off session layer ++
        match gemma4KvPrefillBatchedFrom geometry (env off) piece off session with
        | none => []
        | some next => piecesReads scratch env layer rest (off + piece.length) next

end Reads


/-! ## Where a row is found -/

section Placement

variable {Row : Type u} {geometry : SharedGeometry} {widths : RowWidths}
variable {session next : KvSession Row}

theorem source_owner {layer : Nat} (known : layer < geometry.NL) :
    geometry.source layer ∈ geometry.owners := by
  rw [Geometry.mem_owners, Geometry.source]
  split
  next owner => exact ⟨owner, known⟩
  next sharer =>
    obtain ⟨inside, _⟩ := geometry.source_matches layer (Nat.le_of_not_lt sharer) known
    cases kind : geometry.isGlobal layer with
    | true => simp only [kind, if_true] at inside ⊢; omega
    | false => simp only [kind, Bool.false_eq_true, if_false] at inside ⊢; omega

theorem source_global {layer : Nat} (known : layer < geometry.NL) :
    geometry.isGlobal (geometry.source layer) = geometry.isGlobal layer := by
  by_cases owner : layer < geometry.kvfs
  · rw [Geometry.source, if_pos owner]
  · exact (geometry.source_matches layer (Nat.le_of_not_lt owner) known).2

theorem source_ringed {layer : Nat} (known : layer < geometry.NL) :
    geometry.ringed (geometry.source layer) = geometry.ringed layer := by
  unfold Geometry.ringed
  rw [source_global known]

theorem slotOf_source {layer : Nat} (known : layer < geometry.NL) (pos : Nat) :
    geometry.slotOf (geometry.source layer) pos = geometry.slotOf layer pos := by
  unfold Geometry.slotOf
  rw [source_ringed known]

/-- Two positions of one window never share a slot. -/
theorem slotOf_ne {geometry : Geometry} {layer older newer : Nat} (before : older < newer)
    (near : geometry.ringed layer = true → newer < older + geometry.ringW) :
    geometry.slotOf layer older ≠ geometry.slotOf layer newer := by
  unfold Geometry.slotOf
  split
  next ringed => exact UndoRing.mod_ne_of_lt_add before (near ringed)
  next => exact before.ne

/-- A window never reaches back further than the ring. -/
theorem window_near {layer t pos : Nat} (read : pos ∈ geometry.window layer t)
    (ringed : geometry.ringed layer = true) : t < pos + geometry.ringW := by
  obtain ⟨ring, windowed⟩ := Geometry.ringed_iff.mp ringed
  have fits := geometry.window_le ring
  have inside := (Geometry.mem_window.mp read).2 windowed
  omega

/-- A position's row once the given rows are placed: a fresh one, or the old one in its slot. -/
def rowAt (geometry : Geometry) (session : KvSession Row) (rows : List (Minted Row))
    (layer pos : Nat) : Row :=
  let old := (session.layers layer).cache (geometry.slotOf layer pos)
  if pos < session.dposHost then old
  else
    match rows[pos - session.dposHost]? with
    | some minted => minted layer
    | none => old

theorem rowAt_old {geometry : Geometry} {rows : List (Minted Row)} {layer pos : Nat}
    (before : pos < session.dposHost) :
    rowAt geometry session rows layer pos =
      (session.layers layer).cache (geometry.slotOf layer pos) := by
  unfold rowAt
  exact if_pos before

theorem rowAt_fresh {geometry : Geometry} {rows : List (Minted Row)} {layer j : Nat}
    (present : j < rows.length) :
    rowAt geometry session rows layer (session.dposHost + j) = rows[j] layer := by
  unfold rowAt
  rw [if_neg (by omega), Nat.add_sub_cancel_left, List.getElem?_eq_getElem present]

theorem rowAt_append {geometry : Geometry} {rows more : List (Minted Row)} {layer pos : Nat}
    (below : pos < session.dposHost + rows.length) :
    rowAt geometry session (rows ++ more) layer pos = rowAt geometry session rows layer pos := by
  by_cases before : pos < session.dposHost
  · rw [rowAt_old before, rowAt_old before]
  · unfold rowAt
    rw [List.getElem?_append_left (by omega)]

/-! ## The steps -/

/-- A step never fails on an open geometry. -/
theorem step_isSome (minted : Minted Row) (session : KvSession Row) :
    ∃ next, stepAndAdvance geometry.toGeometry minted session = some next := by
  have journal_pos := geometry.journal_pos
  unfold stepAndAdvance g4KvStep
  dsimp only
  rw [if_neg]
  · exact ⟨_, rfl⟩
  · simp only [List.any_eq_true, Bool.and_eq_true, decide_eq_true_eq]
    rintro ⟨_, _, _, ring, full⟩
    unfold slideJournal at full
    split at full
    next => simp only at full; omega
    next room => exact room ⟨ring, journal_pos, full⟩

theorem step_cache {geometry : Geometry} {minted : Minted Row} {layer : Nat}
    (owner : layer ∈ geometry.owners)
    (stepped : stepAndAdvance geometry minted session = some next) :
    (next.layers layer).cache = Function.update (session.layers layer).cache
      (geometry.slotOf layer session.dposHost) (minted layer) := by
  rw [stepAndAdvance_layers layer stepped, if_pos owner]
  simp only [replayRow, slideJournal_dposHost, Nat.add_zero]

/-- A step leaves a position where it was, in a ring as long as a turn still holds it. -/
theorem rowAt_step {geometry : Geometry} {minted : Minted Row} {rest : List (Minted Row)}
    {layer pos : Nat} (owner : layer ∈ geometry.owners)
    (near : geometry.ringed layer = true →
      session.dposHost < pos + geometry.ringW ∧ pos ≤ session.dposHost + rest.length)
    (stepped : stepAndAdvance geometry minted session = some next) :
    rowAt geometry next rest layer pos = rowAt geometry session (minted :: rest) layer pos := by
  have position := (stepAndAdvance_some stepped).1
  rcases Nat.lt_trichotomy pos session.dposHost with older | now | newer
  · rw [rowAt_old older, rowAt_old (by rw [position]; omega), step_cache owner stepped,
      Function.update_of_ne (slotOf_ne older fun ringed => (near ringed).1)]
  · subst now
    rw [rowAt_old (by rw [position]; omega), step_cache owner stepped, Function.update_self]
    exact (@rowAt_fresh _ session geometry (minted :: rest) layer 0 (Nat.zero_lt_succ _)).symm
  · obtain ⟨j, rfl⟩ := Nat.exists_eq_add_of_lt newer
    unfold rowAt
    rw [if_neg (by omega), if_neg (by omega), position, step_cache owner stepped,
      show session.dposHost + j + 1 - (session.dposHost + 1) = j by omega,
      show session.dposHost + j + 1 - session.dposHost = j + 1 by omega, List.getElem?_cons_succ]
    cases present : rest[j]? with
    | some row => rfl
    | none =>
        have beyond := List.getElem?_eq_none_iff.mp present
        apply Function.update_of_ne
        apply Ne.symm
        apply slotOf_ne newer
        intro ringed
        have below := (near ringed).2
        omega

theorem stepReads_eq {layer : Nat} (known : layer < geometry.NL) (minted : Minted Row)
    (session : KvSession Row) :
    stepReads geometry.toGeometry layer minted session =
      (geometry.window layer session.dposHost).map
        (rowAt geometry.toGeometry session [minted] (geometry.source layer)) := by
  have owner := (Geometry.mem_owners.mp (source_owner known)).1
  have slidLayers : (slideJournal geometry.toGeometry session).layers = session.layers := by
    unfold slideJournal
    split <;> rfl
  simp only [stepReads, slideJournal_dposHost, storeStep_owner owner, replayRow, Nat.add_zero,
    slidLayers]
  apply List.map_congr_left
  intro pos read
  rw [← slotOf_source known]
  obtain ⟨inside, _⟩ := Geometry.mem_window.mp read
  rcases inside.lt_or_eq with older | now
  · have near := @window_near geometry layer _ _ read
    rw [rowAt_old older, Function.update_of_ne]
    rw [slotOf_source known, slotOf_source known]
    exact slotOf_ne older near
  · subst now
    rw [Function.update_self]
    exact (@rowAt_fresh _ session geometry.toGeometry [minted] _ 0 (Nat.zero_lt_succ _)).symm

/-- Step `j` of a loop attends to the rows of its window. -/
theorem stepsReads_eq {layer : Nat} (known : layer < geometry.NL) (rows : List (Minted Row))
    (session : KvSession Row) :
    stepsReads geometry.toGeometry layer rows session =
      (List.range rows.length).map fun j =>
        (geometry.window layer (session.dposHost + j)).map
          (rowAt geometry.toGeometry session rows (geometry.source layer)) := by
  induction rows generalizing session with
  | nil => rfl
  | cons row rest inductionHypothesis =>
      obtain ⟨next, stepped⟩ := @step_isSome _ geometry row session
      have position := (stepAndAdvance_some stepped).1
      simp only [stepsReads, stepped, inductionHypothesis next, stepReads_eq known,
        List.length_cons, List.range_succ_eq_map, List.map_cons, List.map_map, Nat.add_zero]
      congr 1
      · apply List.map_congr_left
        intro pos read
        have inside := (Geometry.mem_window.mp read).1
        exact (@rowAt_append _ _ _ [row] rest _ _ (Nat.lt_succ_of_le inside)).symm
      · apply List.map_congr_left
        intro j bounded
        rw [Function.comp_apply, position, Nat.add_assoc, Nat.add_comm 1 j]
        apply List.map_congr_left
        intro pos read
        have inside := (Geometry.mem_window.mp read).1
        have few := List.mem_range.mp bounded
        apply rowAt_step (source_owner known) _ stepped
        intro ringed
        rw [source_ringed known] at ringed
        have near := window_near read ringed
        omega

theorem steps_isSome (rows : List (Minted Row)) (session : KvSession Row) :
    ∃ after, runEach (stepAndAdvance geometry.toGeometry) rows session = some after := by
  induction rows generalizing session with
  | nil => exact ⟨session, rfl⟩
  | cons row rest inductionHypothesis =>
      obtain ⟨next, stepped⟩ := @step_isSome _ geometry row session
      obtain ⟨after, run⟩ := inductionHypothesis next
      exact ⟨after, Option.bind_eq_some_iff.mpr ⟨next, stepped, run⟩⟩

theorem steps_cache_linear {geometry : Geometry} {rows : List (Minted Row)} {layer : Nat}
    (owner : layer ∈ geometry.owners) (linear : geometry.ringed layer = false)
    (run : runEach (stepAndAdvance geometry) rows session = some next) (pos : Nat) :
    (next.layers layer).cache pos = rowAt geometry session rows layer pos := by
  induction rows generalizing session with
  | nil =>
      cases run
      simp [rowAt, Geometry.slotOf, linear]
  | cons row rest inductionHypothesis =>
      obtain ⟨middle, stepped, continued⟩ := Option.bind_eq_some_iff.mp run
      rw [inductionHypothesis continued]
      apply rowAt_step owner _ stepped
      intro ringed
      rw [linear] at ringed
      cases ringed

theorem steps_cache_ring {geometry : Geometry} {rows : List (Minted Row)} {layer : Nat}
    (owner : layer ∈ geometry.owners) (ringed : geometry.ringed layer = true)
    (run : runEach (stepAndAdvance geometry) rows session = some next) :
    (next.layers layer).cache = UndoRing.storeFrom geometry.ringW (session.layers layer).cache
      session.dposHost (rows.map fun minted => minted layer) := by
  induction rows generalizing session with
  | nil =>
      cases run
      rfl
  | cons row rest inductionHypothesis =>
      obtain ⟨middle, stepped, continued⟩ := Option.bind_eq_some_iff.mp run
      rw [inductionHypothesis continued, step_cache owner stepped, (stepAndAdvance_some stepped).1,
        Geometry.slotOf, if_pos ringed, List.map_cons, UndoRing.storeFrom]

theorem steps_layers_shared {geometry : Geometry} {rows : List (Minted Row)} {layer : Nat}
    (shared : layer ∉ geometry.owners)
    (run : runEach (stepAndAdvance geometry) rows session = some next) :
    next.layers layer = session.layers layer := by
  apply @runEach_preserves _ _ _ (fun reached => reached.layers layer = session.layers layer)
    _ _ _ _ run rfl
  intro row before after stepped kept
  rw [stepAndAdvance_layers layer stepped, if_neg shared, kept]

end Placement

/-! ## A batch and the steps it stands for -/

/-- Two sessions whose attention reads the same. -/
structure SameCaches {Row : Type u} (one other : KvSession Row) : Prop where
  dposHost_eq : one.dposHost = other.dposHost
  cache_eq : ∀ layer, (one.layers layer).cache = (other.layers layer).cache

section Batches

variable {Row : Type u} {geometry : SharedGeometry} {widths : RowWidths}
variable {session next after : KvSession Row}

/-- A row the steps leave in reach is where its position says. -/
theorem steps_cache_at {geometry : Geometry} {session next : KvSession Row}
    {rows : List (Minted Row)} {layer pos : Nat} (owner : layer ∈ geometry.owners)
    (below : pos < session.dposHost + rows.length)
    (near : geometry.ringed layer = true → session.dposHost + rows.length ≤ pos + geometry.ringW)
    (run : runEach (stepAndAdvance geometry) rows session = some next) :
    (next.layers layer).cache (geometry.slotOf layer pos) =
      rowAt geometry session rows layer pos := by
  induction rows generalizing session with
  | nil =>
      cases run
      exact (rowAt_old below).symm
  | cons row rest inductionHypothesis =>
      obtain ⟨middle, stepped, continued⟩ := Option.bind_eq_some_iff.mp run
      have position := (stepAndAdvance_some stepped).1
      rw [List.length_cons] at below near
      rw [inductionHypothesis (by omega) (fun ringed => by
        have fits := near ringed
        omega) continued]
      apply rowAt_step owner _ stepped
      intro ringed
      have fits := near ringed
      omega

theorem storeBatch_cache {rows : List (Minted Row)} {layer : Nat}
    (owner : layer ∈ geometry.owners)
    (run : runEach (stepAndAdvance geometry.toGeometry) rows session = some after) :
    (storeBatch geometry.toGeometry session rows layer (session.layers layer)).cache =
      (after.layers layer).cache := by
  have owns : ¬ geometry.kvfs ≤ layer := Nat.not_le.mpr (Geometry.mem_owners.mp owner).1
  unfold storeBatch
  rw [if_neg owns]
  cases ringed : geometry.ringed layer with
  | true =>
      have ring := Geometry.ringed_iff.mp ringed
      rw [if_pos ring, steps_cache_ring owner ringed run]
      have dropped := UndoRing.storeFrom_drop (session.layers layer).cache session.dposHost
        (rows.map fun minted => minted layer) ring.1
      rw [List.length_map, ← List.map_drop] at dropped
      exact dropped
  | false =>
      have linear : ¬ (0 < geometry.ringW ∧ geometry.isGlobal layer = false) := by
        rw [← Geometry.ringed_iff, ringed]
        exact Bool.false_ne_true
      rw [if_neg linear]
      funext slot
      rw [steps_cache_linear owner ringed run slot]
      unfold rowAt Geometry.slotOf
      simp only [ringed, Bool.false_eq_true, if_false]
      by_cases older : slot < session.dposHost
      · rw [if_neg (Nat.not_le.mpr older), if_pos older]
      · apply (if_pos (Nat.le_of_not_lt older)).trans
        symm
        apply (if_neg older).trans
        cases rows[slot - session.dposHost]? with
        | none => rfl
        | some minted => rfl

theorem batched_sameCaches {env : BatchEnv} {rows : List (Minted Row)} {P : Nat}
    (batched : gemma4KvPrefillBatchedFrom geometry.toGeometry env rows P session = some next)
    (run : runEach (stepAndAdvance geometry.toGeometry) rows session = some after) :
    SameCaches next after where
  dposHost_eq := by
    obtain ⟨standing, _, _, position, _⟩ := batchedFrom_some batched
    rw [position, steps_dposHost run, standing]
  cache_eq := by
    intro layer
    rw [batchedFrom_layers layer batched]
    by_cases owner : layer ∈ geometry.owners
    · rw [if_pos owner, storeBatch_cache owner run]
    · rw [if_neg owner, steps_layers_shared owner run]

/-- A cache without a ring holds, after the sink, every position at its own slot. -/
theorem sunk_rowAt {layer : Nat} (known : layer < geometry.NL)
    (linear : geometry.ringed layer = false) (rows : List (Minted Row)) (pos : Nat) :
    (storeBatch geometry.toGeometry session rows (geometry.source layer)
      (session.layers (geometry.source layer))).cache pos =
        rowAt geometry.toGeometry session rows (geometry.source layer) pos := by
  obtain ⟨after, run⟩ := @steps_isSome _ geometry rows session
  have owner := source_owner known
  rw [storeBatch_cache owner run]
  exact steps_cache_linear owner ((source_ringed known).trans linear) run pos

/-- Shifted by what the comb leaves out, its window is the window of the positions. -/
theorem window_comb {layer P pre : Nat} (windowed : geometry.isGlobal layer = false)
    (inside : pre ≤ P) (reaches : P = pre ∨ pre + 1 = geometry.SW ∨ geometry.SW = 0) (j : Nat) :
    geometry.window layer (P + j) =
      (geometry.window layer (pre + j)).map fun i => P - pre + i := by
  unfold Geometry.window Geometry.windowStart
  simp only [windowed, Bool.false_eq_true, if_false]
  rw [List.map_add_range']
  congr 1 <;> omega

theorem prefixTail_reaches {layer P : Nat} (ringed : geometry.ringed layer = true) (suffix : P ≠ 0) :
    ∃ pre, prefixTail geometry.toGeometry P = List.range' (P - pre) pre ∧ pre ≤ P ∧
      (P = pre ∨ pre + 1 = geometry.SW ∨ geometry.SW = 0) := by
  have ring := (Geometry.ringed_iff.mp ringed).1
  have fits := geometry.window_le ring
  unfold prefixTail
  rw [if_pos ⟨Nat.pos_of_ne_zero suffix, ring⟩]
  exact ⟨_, rfl, by omega, by omega⟩

/-- The comb: the gathered tail, then the batch's own rows. -/
theorem comb_rowAt {scratch : Nat → Row} {rows : List (Minted Row)} {layer pre i : Nat}
    (known : layer < geometry.NL) (ringed : geometry.ringed layer = true)
    (inside : pre ≤ session.dposHost) (below : i < pre + rows.length) :
    written scratch
      ((List.range' (session.dposHost - pre) pre).map (fun pos =>
          (session.layers (geometry.source layer)).cache (pos % geometry.ringW)) ++
        rows.map fun minted => minted (geometry.source layer)) i =
      rowAt geometry.toGeometry session rows (geometry.source layer)
        (session.dposHost - pre + i) := by
  unfold written
  by_cases gathered : i < pre
  · rw [List.getElem?_append_left (by simpa using gathered), List.getElem?_map,
      List.getElem?_range' gathered, Option.map_some, rowAt_old (by omega), slotOf_source known,
      Geometry.slotOf, if_pos ringed, Nat.one_mul]
  · have fresh : i - pre < rows.length := by omega
    rw [List.getElem?_append_right (by simpa using gathered), List.length_map,
      List.length_range', List.getElem?_map, List.getElem?_eq_getElem fresh, Option.map_some,
      show session.dposHost - pre + i = session.dposHost + (i - pre) by omega, rowAt_fresh fresh]

theorem flat_rowAt {scratch : Nat → Row} {rows : List (Minted Row)} {layer i : Nat}
    (cold : session.dposHost = 0) (below : i < rows.length) :
    written scratch (rows.map fun minted => minted layer) i =
      rowAt geometry.toGeometry session rows layer i := by
  have fresh := @rowAt_fresh _ session geometry.toGeometry _ layer _ below
  rw [cold, Nat.zero_add] at fresh
  unfold written
  rw [fresh, List.getElem?_map, List.getElem?_eq_getElem below, Option.map_some]

/-- Query `j` of a batch attends to the rows of its window. -/
theorem batchReads_eq {layer : Nat} (known : layer < geometry.NL) (scratch : Nat → Row)
    (rows : List (Minted Row)) (session : KvSession Row) :
    batchReads geometry.toGeometry widths scratch rows session.dposHost session layer =
      (List.range rows.length).map fun j =>
        (geometry.window layer (session.dposHost + j)).map
          (rowAt geometry.toGeometry session rows (geometry.source layer)) := by
  unfold batchReads batchBuffer
  dsimp only
  split
  next cold =>
    split
    next flat =>
      apply List.map_congr_left
      intro j bounded
      rw [cold]
      apply List.map_congr_left
      intro pos read
      have inside := (Geometry.mem_window.mp read).1
      have few := List.mem_range.mp bounded
      dsimp only at inside
      exact flat_rowAt cold (by omega)
    next resident =>
      have linear : geometry.ringed layer = false := by
        rw [Bool.eq_false_iff]
        exact fun ringed => resident (Or.inl (Geometry.ringed_iff.mp ringed).1)
      apply List.map_congr_left
      intro j bounded
      rw [cold]
      apply List.map_congr_left
      intro pos _
      exact sunk_rowAt known linear rows pos
  next warm =>
    split
    next ringed =>
      obtain ⟨pre, tail, inside, reaches⟩ := @prefixTail_reaches geometry layer _ ringed warm
      have windowed := (Geometry.ringed_iff.mp ringed).2
      unfold ringGather
      rw [tail]
      apply List.map_congr_left
      intro j bounded
      have few := List.mem_range.mp bounded
      rw [window_comb windowed inside reaches, List.map_map]
      simp only [List.length_map, List.length_range']
      apply List.map_congr_left
      intro i read
      have reached := (Geometry.mem_window.mp read).1
      exact comb_rowAt known ringed inside (by omega)
    next linear =>
      have linear := Bool.eq_false_iff.mpr linear
      apply List.map_congr_left
      intro j bounded
      apply List.map_congr_left
      intro pos _
      exact sunk_rowAt known linear rows pos

theorem rowAt_congr {one other : KvSession Row} (same : SameCaches one other)
    (rows : List (Minted Row)) (layer : Nat) :
    rowAt geometry.toGeometry one rows layer = rowAt geometry.toGeometry other rows layer := by
  funext pos
  unfold rowAt
  rw [same.dposHost_eq, same.cache_eq]

theorem stepsReads_congr {one other : KvSession Row} {layer : Nat} (known : layer < geometry.NL)
    (same : SameCaches one other) (rows : List (Minted Row)) :
    stepsReads geometry.toGeometry layer rows one =
      stepsReads geometry.toGeometry layer rows other := by
  rw [stepsReads_eq known, stepsReads_eq known, same.dposHost_eq, rowAt_congr same]

theorem steps_sameCaches {one other afterOne afterOther : KvSession Row}
    (same : SameCaches one other) {rows : List (Minted Row)}
    (runOne : runEach (stepAndAdvance geometry.toGeometry) rows one = some afterOne)
    (runOther : runEach (stepAndAdvance geometry.toGeometry) rows other = some afterOther) :
    SameCaches afterOne afterOther where
  dposHost_eq := by rw [steps_dposHost runOne, steps_dposHost runOther, same.dposHost_eq]
  cache_eq := by
    intro layer
    by_cases owner : layer ∈ geometry.owners
    · cases ringed : geometry.ringed layer with
      | true =>
          rw [steps_cache_ring owner ringed runOne, steps_cache_ring owner ringed runOther,
            same.cache_eq, same.dposHost_eq]
      | false =>
          funext slot
          rw [steps_cache_linear owner ringed runOne, steps_cache_linear owner ringed runOther,
            rowAt_congr same]
    · rw [steps_layers_shared owner runOne, steps_layers_shared owner runOther, same.cache_eq]

theorem stepsReads_append {layer : Nat} {first : List (Minted Row)} (second : List (Minted Row))
    (run : runEach (stepAndAdvance geometry.toGeometry) first session = some next) :
    stepsReads geometry.toGeometry layer (first ++ second) session =
      stepsReads geometry.toGeometry layer first session ++
        stepsReads geometry.toGeometry layer second next := by
  induction first generalizing session with
  | nil =>
      cases run
      rfl
  | cons row rest inductionHypothesis =>
      obtain ⟨middle, stepped, continued⟩ := Option.bind_eq_some_iff.mp run
      simp only [List.cons_append, stepsReads, stepped, inductionHypothesis continued]

/-- Chunk by chunk, the batches leave and read what the steps do. -/
theorem pieces_steps {env : Nat → BatchEnv} (scratch : Nat → Nat → Row)
    {parts : List (List (Minted Row))}
    (batched : prefillPieces geometry.toGeometry env parts session.dposHost session = (next, true))
    (run : runEach (stepAndAdvance geometry.toGeometry) parts.flatten session = some after) :
    SameCaches next after ∧
      ∀ layer < geometry.NL,
        piecesReads geometry.toGeometry widths scratch env layer parts session.dposHost session =
          stepsReads geometry.toGeometry layer parts.flatten session := by
  induction parts generalizing session after with
  | nil =>
      cases run
      cases batched
      exact ⟨⟨rfl, fun _ => rfl⟩, fun _ _ => rfl⟩
  | cons piece rest inductionHypothesis =>
      unfold prefillPieces at batched
      cases first : gemma4KvPrefillBatchedFrom geometry.toGeometry (env session.dposHost) piece
          session.dposHost session with
      | none =>
          rw [first] at batched
          cases batched
      | some landed =>
          rw [first] at batched
          obtain ⟨stepped, firstRun⟩ := @steps_isSome _ geometry piece session
          rw [List.flatten_cons, runEach_append firstRun] at run
          have position : landed.dposHost = session.dposHost + piece.length :=
            (batchedFrom_some first).2.2.2.1
          have same := batched_sameCaches first firstRun
          obtain ⟨later, laterRun⟩ := @steps_isSome _ geometry rest.flatten landed
          rw [← position] at batched
          obtain ⟨caches, reads⟩ := inductionHypothesis batched laterRun
          have others := steps_sameCaches same laterRun run
          refine ⟨⟨caches.dposHost_eq.trans others.dposHost_eq, fun layer =>
            (caches.cache_eq layer).trans (others.cache_eq layer)⟩, fun layer known => ?_⟩
          rw [List.flatten_cons, stepsReads_append rest.flatten firstRun, stepsReads_eq known,
            ← stepsReads_congr known same, ← reads layer known, piecesReads,
            batchReads_eq known, position, first]

end Batches

/-! ## The chunk loop -/

/-- The chunks a prompt is fed in under `SP_KV_PREFILL_CHUNK`. -/
def chunking {Piece : Type u} (chunk : Nat) (rows : List Piece) : List (List Piece) :=
  if chunk = 0 ∨ rows.length ≤ chunk then [rows] else pieces chunk rows.length rows

section Chunks

variable {Row : Type u} {geometry : Geometry} {session next : KvSession Row}

theorem prefillBatched_chunking {env : Nat → BatchEnv} {chunk : Nat} {rows : List (Minted Row)} :
    gemma4KvPrefillBatched geometry env chunk rows session =
      prefillPieces geometry env (chunking chunk rows) 0 session := by
  unfold gemma4KvPrefillBatched chunking
  split
  next whole => rfl
  next several => rfl

theorem flatten_chunking {Piece : Type u} (chunk : Nat) (rows : List Piece) :
    (chunking chunk rows).flatten = rows := by
  unfold chunking
  split
  next whole => simp
  next several =>
    rw [not_or] at several
    exact flatten_pieces several.1 rows.length rows (Nat.le_refl _)

theorem chunking_ne_nil {Piece : Type u} (chunk : Nat) (rows : List Piece) :
    chunking chunk rows ≠ [] := by
  unfold chunking
  split
  next whole => simp
  next several =>
    rw [not_or, Nat.not_le] at several
    have nonempty : rows ≠ [] := by
      rintro rfl
      exact absurd several.2 (Nat.not_lt_zero _)
    cases rows with
    | nil => exact absurd rfl nonempty
    | cons row rest => simp [pieces]

/-- What the guards of a chunk loop that went through have checked. -/
theorem prefillPieces_some {env : Nat → BatchEnv} {parts : List (List (Minted Row))} {off : Nat}
    (some_parts : parts ≠ [])
    (batched : prefillPieces geometry env parts off session = (next, true)) :
    session.dposHost = off ∧ parts.flatten.length ≠ 0 ∧
      off + parts.flatten.length ≤ geometry.Pmax := by
  induction parts generalizing off session with
  | nil => exact absurd rfl some_parts
  | cons piece rest inductionHypothesis =>
      unfold prefillPieces at batched
      cases first : gemma4KvPrefillBatchedFrom geometry (env off) piece off session with
      | none =>
          rw [first] at batched
          cases batched
      | some landed =>
          rw [first] at batched
          obtain ⟨standing, room, some_rows, _⟩ := batchedFrom_some first
          rw [List.flatten_cons, List.length_append]
          refine ⟨standing, by omega, ?_⟩
          cases rest with
          | nil => simpa using room
          | cons second rest =>
              obtain ⟨_, _, fits⟩ := inductionHypothesis (List.cons_ne_nil _ _) batched
              omega

end Chunks

/-! ## Rows as labels -/

/-- A row that says which layer and position it was minted for. -/
abbrev Label := Nat × Nat

def labelRows (P n : Nat) : List (Minted Label) :=
  (List.range' P n).map fun t layer => (layer, t)

/-- Every slot that a step at the live position or later can read holds its own label. -/
def Labelled (geometry : Geometry) (session : KvSession Label) : Prop :=
  ∀ layer ∈ geometry.owners, ∀ pos ∈ geometry.window layer session.dposHost,
    pos < session.dposHost →
      (session.layers layer).cache (geometry.slotOf layer pos) = (layer, pos)

/-- A batched prefill of the `n` prompt rows from `P` on leaves the caches and reads the labels
of the per-token prefill, and these are the labels of the window. -/
structure MatchesPerToken (geometry : Geometry) (P n : Nat) (session next : KvSession Label)
    (reads : Nat → List (List Label)) : Prop where
  perToken : ∃ after, gemma4KvPrefill geometry (labelRows P n) session = some after ∧
    SameCaches next after ∧ next.dposHost = P + n ∧
      ∀ layer < geometry.NL, reads layer = stepsReads geometry layer (labelRows P n) session
  labelled : Labelled geometry session → Labelled geometry next
  attends : Labelled geometry session → ∀ layer < geometry.NL, ∀ j < n,
    ∃ read, (reads layer)[j]? = some read ∧ ∀ label, label ∈ read ↔
      label.1 = geometry.source layer ∧ label.2 ≤ P + j ∧
        (geometry.isGlobal layer = false → P + j + 1 ≤ label.2 + geometry.SW)

section Labels

variable {geometry : SharedGeometry} {widths : RowWidths} {session next : KvSession Label}

theorem rowAt_label {layer pos n : Nat} (owner : layer ∈ geometry.owners)
    (labelled : Labelled geometry.toGeometry session)
    (windowed : geometry.isGlobal layer = false → session.dposHost + 1 ≤ pos + geometry.SW)
    (below : pos < session.dposHost + n) :
    rowAt geometry.toGeometry session (labelRows session.dposHost n) layer pos = (layer, pos) := by
  by_cases older : pos < session.dposHost
  · rw [rowAt_old older]
    exact labelled layer owner pos (Geometry.mem_window.mpr ⟨older.le, windowed⟩) older
  · obtain ⟨i, rfl⟩ := Nat.exists_eq_add_of_le (Nat.le_of_not_lt older)
    have inside : i < (labelRows session.dposHost n).length := by
      simp only [labelRows, List.length_map, List.length_range']
      omega
    have minted : (labelRows session.dposHost n)[i] = fun layer => (layer, session.dposHost + i) := by
      simp only [labelRows, List.getElem_map, List.getElem_range', Nat.one_mul]
    rw [rowAt_fresh inside, minted]

theorem length_labelRows (P n : Nat) : (labelRows P n).length = n := by
  rw [labelRows, List.length_map, List.length_range']

/-- Steps on labelled slots leave labelled slots. -/
theorem labelled_steps {n : Nat} {after : KvSession Label}
    (labelled : Labelled geometry.toGeometry session)
    (run : runEach (stepAndAdvance geometry.toGeometry) (labelRows session.dposHost n) session =
      some after) : Labelled geometry.toGeometry after := by
  have position := steps_dposHost run
  rw [length_labelRows] at position
  intro layer owner pos read before
  obtain ⟨_, windowed⟩ := Geometry.mem_window.mp read
  rw [steps_cache_at owner (by rw [length_labelRows]; omega) _ run]
  · exact rowAt_label owner labelled (fun swa => by have inside := windowed swa; omega) (by omega)
  · intro ringed
    have near := window_near read ringed
    rw [length_labelRows]
    omega

theorem mem_labelled_window {layer n j : Nat} (known : layer < geometry.NL) (few : j < n)
    (labelled : Labelled geometry.toGeometry session) (label : Label) :
    label ∈ (geometry.window layer (session.dposHost + j)).map
        (rowAt geometry.toGeometry session (labelRows session.dposHost n)
          (geometry.source layer)) ↔
      label.1 = geometry.source layer ∧ label.2 ≤ session.dposHost + j ∧
        (geometry.isGlobal layer = false →
          session.dposHost + j + 1 ≤ label.2 + geometry.SW) := by
  have place : ∀ pos ∈ geometry.window layer (session.dposHost + j),
      rowAt geometry.toGeometry session (labelRows session.dposHost n)
        (geometry.source layer) pos = (geometry.source layer, pos) := by
    intro pos read
    obtain ⟨inside, windowed⟩ := Geometry.mem_window.mp read
    apply rowAt_label (source_owner known) labelled _ (by omega)
    intro swa
    rw [source_global known] at swa
    have reached := windowed swa
    omega
  rw [List.map_congr_left place, List.mem_map]
  constructor
  · rintro ⟨pos, read, rfl⟩
    exact ⟨rfl, Geometry.mem_window.mp read⟩
  · rintro ⟨layer_eq, read⟩
    exact ⟨label.2, Geometry.mem_window.mpr read, Prod.ext layer_eq.symm rfl⟩

/-- Any chunking of the prompt, at any starting position. -/
theorem pieces_matchPerToken {scratch : Nat → Nat → Label} {env : Nat → BatchEnv}
    {parts : List (List (Minted Label))} {P n : Nat} (some_parts : parts ≠ [])
    (prompt : parts.flatten = labelRows P n)
    (batched : prefillPieces geometry.toGeometry env parts P session = (next, true)) :
    MatchesPerToken geometry.toGeometry P n session next fun layer =>
      piecesReads geometry.toGeometry widths scratch env layer parts P session := by
  obtain ⟨rfl, some_rows, room⟩ := prefillPieces_some some_parts batched
  rw [prompt, length_labelRows] at some_rows room
  obtain ⟨after, run⟩ := @steps_isSome _ geometry (labelRows session.dposHost n) session
  obtain ⟨caches, reads⟩ := @pieces_steps _ geometry widths session next after env scratch parts
    batched (prompt ▸ run)
  have position := steps_dposHost run
  rw [length_labelRows] at position
  rw [prompt] at reads
  refine ⟨⟨after, ?_, caches, caches.dposHost_eq.trans position, reads⟩, ?_, ?_⟩
  · unfold gemma4KvPrefill
    rw [length_labelRows, if_neg (by omega)]
    exact run
  · intro labelled layer owner pos read before
    rw [caches.cache_eq layer]
    rw [caches.dposHost_eq] at read before
    exact labelled_steps labelled run layer owner pos read before
  · intro labelled layer known j few
    rw [reads layer known, stepsReads_eq known, length_labelRows]
    exact ⟨_, by rw [List.getElem?_map, List.getElem?_range few, Option.map_some],
      mem_labelled_window known few labelled⟩

/-- Batched and per-token prefill place and read the same positions: for every chunk width of
the chunk loop, and for any chunks fed in turn from any starting position. -/
theorem prefillBatched_matchesPerToken (geometry : SharedGeometry) (widths : RowWidths)
    (scratch : Nat → Nat → Label) (env : Nat → BatchEnv) (session : KvSession Label) (n : Nat) :
    (∀ chunk,
      let served := gemma4KvPrefillBatched geometry.toGeometry env chunk (labelRows 0 n) session
      served.2 = true →
        MatchesPerToken geometry.toGeometry 0 n session served.1 fun layer =>
          piecesReads geometry.toGeometry widths scratch env layer
            (chunking chunk (labelRows 0 n)) 0 session) ∧
      ∀ parts P, parts ≠ [] → parts.flatten = labelRows P n →
        let served := prefillPieces geometry.toGeometry env parts P session
        served.2 = true →
          MatchesPerToken geometry.toGeometry P n session served.1 fun layer =>
            piecesReads geometry.toGeometry widths scratch env layer parts P session := by
  constructor
  · intro chunk served went_through
    simp only [served, prefillBatched_chunking] at went_through ⊢
    exact pieces_matchPerToken (chunking_ne_nil _ _) (flatten_chunking _ _)
      (Prod.ext rfl went_through)
  · intro parts P some_parts prompt served went_through
    exact pieces_matchPerToken some_parts prompt (Prod.ext rfl went_through)

/-- Two owners and their sharers, with a ring that wraps inside the second chunk. -/
def smallShared : SharedGeometry where
  Pmax := 12
  NL := 4
  kvfs := 2
  period := 2
  SW := 2
  ringW := 3
  Jmax := 2
  cpuTail := 0
  pmax_pos := by decide
  ring_le := by decide
  journal_pos := by decide
  window_le := by decide
  source_matches := by
    intro layer shared known
    have sharer : layer = 2 ∨ layer = 3 := by omega
    rcases sharer with rfl | rfl <;> decide

def unwritten : KvSession Label :=
  KvSession.opened (fun _ => ⟨fun _ => (9, 9), fun _ => (9, 9)⟩) false

theorem prefillBatched_matchesPerToken_chunked :
    let env : Nat → BatchEnv := fun _ => ⟨false, true⟩
    let served := gemma4KvPrefillBatched smallShared.toGeometry env 2 (labelRows 0 7) unwritten
    served.2 = true ∧
      MatchesPerToken smallShared.toGeometry 0 7 unwritten served.1 fun layer =>
        piecesReads smallShared.toGeometry ⟨1, 1, 1, 1, true, false⟩ (fun _ _ => (9, 9)) env layer
          (chunking 2 (labelRows 0 7)) 0 unwritten := by
  have went_through : (gemma4KvPrefillBatched smallShared.toGeometry (fun _ => ⟨false, true⟩) 2
      (labelRows 0 7) unwritten).2 = true := by decide
  exact ⟨went_through, (prefillBatched_matchesPerToken smallShared ⟨1, 1, 1, 1, true, false⟩
    (fun _ _ => (9, 9)) (fun _ => ⟨false, true⟩) unwritten 7).1 2 went_through⟩

end Labels

end KairosEngine.Cuda
