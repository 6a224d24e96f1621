import KairosEngine.Cuda.KvCalls
import KairosEngine.Cuda.RewindWindow

/-!
# What a prefix shear leaves

A run keeps, next to the session, the rows written for its live positions and the snapshots
taken so far.  While the wrap flag is down and the ring has not filled, every slot is the
position itself; a peek at exactly `ringW` positions and a restore that brings back a wrapped
ring under a lowered flag are the two ways to lose that.
-/

namespace KairosEngine.Cuda

open KairosEngine.Library

universe u

variable {Row : Type u}

/-- A snapshot with the rows and the flag of the session it was taken from. -/
structure TakenPrefix (Row : Type u) where
  saved : PrefixRows Row
  live : List (Minted Row)
  wrapped : Bool

structure PrefixRun (Row : Type u) where
  session : KvSession Row
  live : List (Minted Row)
  taken : List (TakenPrefix Row)

/-- Every call but the latent seam, and no blob from elsewhere. -/
def SessionCall.isPlain : SessionCall Row → Bool
  | .injectTokens _ _ => false
  | .restorePrefix _ => false
  | _ => true

/-- The rows a call may append. -/
def SessionCall.rows : SessionCall Row → List (Minted Row)
  | .prefill rows | .prefillBatched _ _ rows | .prefillBatchedFrom _ rows _ | .decode rows
  | .decodeBatch rows | .injectTokens _ rows | .replay rows => rows
  | .decodeLogits row => [row]
  | _ => []

inductive PrefixRequest (Row : Type u) where
  | call (call : SessionCall Row) (plain : call.isPlain = true)
  | snapshot (P : Int)
  | restore (k : Nat)

section Requests

variable (geometry : Geometry) (widths : RowWidths)

/-- The live rows after a call are the old and the new ones up to the live position. -/
def PrefixRun.step (request : PrefixRequest Row) (run : PrefixRun Row) : PrefixRun Row :=
  match request with
  | .call call _ =>
      let next := (call.serve geometry widths run.session).1
      { run with session := next, live := (run.live ++ call.rows).take next.dposHost }
  | .snapshot P =>
      match snapshotRows geometry P run.session with
      | none => run
      | some saved =>
          { run with taken := run.taken ++ [⟨saved, run.live, run.session.ringWrapped⟩] }
  | .restore k =>
      match run.taken[k]? with
      | none => run
      | some entry =>
          match restoreRowsAt geometry entry.saved run.session with
          | none => run
          | some next => { run with session := next, live := entry.live }

/-- No peek succeeds at exactly `ringW` positions of an unwrapped ring, and no snapshot of a
wrapped ring that fits the ring comes back to a session whose flag is down. -/
def PrefixRequest.KeepsFlag (request : PrefixRequest Row) (run : PrefixRun Row) : Prop :=
  match request with
  | .call (.readGlobalQ row) _ =>
      (gemma4KvReadGlobalQ geometry widths row run.session).isSome = true →
        run.session.dposHost = geometry.ringW → run.session.ringWrapped = true
  | .restore k =>
      ∀ entry, run.taken[k]? = some entry →
        (restoreRowsAt geometry entry.saved run.session).isSome = true →
          entry.wrapped = true → entry.saved.P ≤ geometry.ringW →
            run.session.ringWrapped = true
  | _ => True

/-- Slot `p` holds the row of position `p`, in every owner, and whatever steps follow read
the rows of these positions and their own. -/
def TruePrefix (session : KvSession Row) (live : List (Minted Row)) : Prop :=
  (∀ layer ∈ geometry.owners, ∀ p minted, live[p]? = some minted →
      (session.layers layer).cache p = minted layer) ∧
    ∀ rows after, runEach (stepAndAdvance geometry) rows session = some after →
      ∀ layer ∈ geometry.owners, ∀ q ∈ geometry.window layer after.dposHost,
        q < after.dposHost → ∃ minted, (live ++ rows)[q]? = some minted ∧
          (after.layers layer).cache (geometry.slotOf layer q) = minted layer

/-- A shear that returns 0 leaves a true prefix of the live rows. -/
def PrefixRequest.ShearsTrue (request : PrefixRequest Row) (run : PrefixRun Row) : Prop :=
  match request with
  | .call (.shear P) _ =>
      ∀ next, gemma4KvShear geometry P run.session = some next →
        next.dposHost = P.toNat ∧ TruePrefix geometry next (run.live.take P.toNat)
  | _ => True

end Requests

/-! ## The invariant -/

/-- Whether slot and position are the same in a layer: it is a full cache, or its ring has
not filled since the flag was last lowered. -/
def Positional (geometry : Geometry) (layer : Nat) (wrapped : Bool) (pos : Nat) : Prop :=
  geometry.ringed layer = true → wrapped = false ∧ pos ≤ geometry.ringW

/-- A cache holds the live rows at their positions. -/
def HoldsRows (cache : Nat → Row) (live : List (Minted Row)) (layer : Nat) : Prop :=
  ∀ p minted, live[p]? = some minted → cache p = minted layer

structure TakenPrefix.Sound (geometry : Geometry) (entry : TakenPrefix Row) : Prop where
  length_eq : entry.live.length = entry.saved.P
  holds : ∀ layer ∈ geometry.owners, Positional geometry layer entry.wrapped entry.saved.P →
    HoldsRows (entry.saved.rows layer) entry.live layer

structure PrefixRun.Sound (geometry : Geometry) (run : PrefixRun Row) : Prop where
  placed : run.session.Placed geometry
  length_eq : run.live.length = run.session.dposHost
  holds : ∀ layer ∈ geometry.owners,
    Positional geometry layer run.session.ringWrapped run.session.dposHost →
      HoldsRows (run.session.layers layer).cache run.live layer
  /-- A longer ring with the flag down can only have been restored. -/
  parked : 0 < geometry.ringW → run.session.ringWrapped = false →
    geometry.ringW < run.session.dposHost → run.session.commitPos = run.session.dposHost
  taken : ∀ entry ∈ run.taken, entry.Sound geometry

section Steps

variable {geometry : Geometry} {widths : RowWidths}
variable {session next : KvSession Row} {live : List (Minted Row)} {taken : List (TakenPrefix Row)}

theorem HoldsRows.push {cache : Nat → Row} {layer : Nat} {row : Minted Row}
    (holds : HoldsRows cache live layer) :
    HoldsRows (Function.update cache live.length (row layer)) (live ++ [row]) layer := by
  intro p minted present
  by_cases newest : p = live.length
  · subst newest
    rw [List.getElem?_concat_length, Option.some.injEq] at present
    subst present
    exact Function.update_self ..
  · rw [Function.update_of_ne newest]
    have inside := (List.getElem?_eq_some_iff.mp present).1
    rw [List.length_append, List.length_singleton] at inside
    rw [List.getElem?_append_left (by omega)] at present
    exact holds p minted present

theorem HoldsRows.take {cache : Nat → Row} {layer : Nat} (holds : HoldsRows cache live layer)
    (count : Nat) : HoldsRows cache (live.take count) layer := by
  intro p minted present
  rw [List.getElem?_take] at present
  split at present
  next => exact holds p minted present
  next => cases present

/-- Where slot and position agree after a step they agreed before it, and the step stored at
its position. -/
theorem positional_step {row : Minted Row} {layer : Nat} (owner : layer ∈ geometry.owners)
    (stepped : stepAndAdvance geometry row session = some next)
    (positional : Positional geometry layer next.ringWrapped next.dposHost) :
    Positional geometry layer session.ringWrapped session.dposHost ∧
      (next.layers layer).cache =
        Function.update (session.layers layer).cache session.dposHost (row layer) := by
  have position := (stepAndAdvance_some stepped).1
  have wrapped := stepAndAdvance_wrapped stepped
  have stored := stepAndAdvance_layers layer stepped
  rw [if_pos owner] at stored
  rw [stored]
  simp only [replayRow, slideJournal_dposHost, Nat.add_zero]
  by_cases ringed : geometry.ringed layer = true
  · obtain ⟨lowered, short⟩ := positional ringed
    rw [wrapped, Bool.or_eq_false_iff] at lowered
    rw [position] at short
    have inside : session.dposHost < geometry.ringW := short
    refine ⟨fun _ => ⟨lowered.1, inside.le⟩, ?_⟩
    rw [Geometry.slotOf, if_pos ringed, Nat.mod_eq_of_lt inside]
  · refine ⟨fun is_ringed => absurd is_ringed ringed, ?_⟩
    rw [Geometry.slotOf, if_neg ringed]

theorem sound_step {row : Minted Row} (sound : PrefixRun.Sound geometry ⟨session, live, taken⟩)
    (room : session.dposHost < geometry.Pmax)
    (stepped : stepAndAdvance geometry row session = some next) :
    PrefixRun.Sound geometry ⟨next, live ++ [row], taken⟩ where
  placed := placed_step sound.placed room stepped
  length_eq := by
    rw [List.length_append, sound.length_eq, (stepAndAdvance_some stepped).1]
    rfl
  holds := by
    intro layer owner positional
    obtain ⟨before, stored⟩ := positional_step owner stepped positional
    have length_eq : live.length = session.dposHost := sound.length_eq
    simp only
    rw [stored, ← length_eq]
    exact (sound.holds layer owner before).push
  parked := by
    intro ring lowered long
    have wrapped := stepAndAdvance_wrapped stepped
    simp only [(stepAndAdvance_some stepped).1] at long
    rw [wrapped, decide_eq_true ring, decide_eq_true long] at lowered
    simp at lowered
  taken := sound.taken

theorem sound_steps {rows : List (Minted Row)}
    (sound : PrefixRun.Sound geometry ⟨session, live, taken⟩)
    (room : session.dposHost + rows.length ≤ geometry.Pmax)
    (run : runEach (stepAndAdvance geometry) rows session = some next) :
    PrefixRun.Sound geometry ⟨next, live ++ rows, taken⟩ := by
  induction rows generalizing session live with
  | nil =>
      cases run
      rwa [List.append_nil]
  | cons row rest inductionHypothesis =>
      obtain ⟨middle, stepped, continued⟩ := Option.bind_eq_some_iff.mp run
      rw [List.length_cons] at room
      have later := inductionHypothesis (sound_step sound (by omega) stepped)
        (by rw [(stepAndAdvance_some stepped).1]; omega) continued
      rwa [List.append_assoc, List.singleton_append] at later

theorem batchedFrom_wrapped {env : BatchEnv} {rows : List (Minted Row)} {P : Nat}
    (batched : gemma4KvPrefillBatchedFrom geometry env rows P session = some next) :
    next.ringWrapped = (session.ringWrapped ||
      (decide (0 < geometry.ringW) && decide (geometry.ringW < P + rows.length))) := by
  unfold gemma4KvPrefillBatchedFrom at batched
  split at batched
  next => cases batched
  next =>
    cases batched
    rfl

/-- A batch sunk where slot and position agree holds the rows before it and its own. -/
theorem HoldsRows.storeBatch {rows : List (Minted Row)} {layer : Nat}
    (owner : layer ∈ geometry.owners) (length_eq : live.length = session.dposHost)
    (short : geometry.ringed layer = true → session.dposHost + rows.length ≤ geometry.ringW)
    (holds : HoldsRows (session.layers layer).cache live layer) :
    HoldsRows (storeBatch geometry session rows layer (session.layers layer)).cache
      (live ++ rows) layer := by
  have owns : ¬ geometry.kvfs ≤ layer := Nat.not_le.mpr (Geometry.mem_owners.mp owner).1
  intro p minted present
  unfold Cuda.storeBatch
  rw [if_neg owns]
  by_cases ringed : geometry.ringed layer = true
  · have fits := short ringed
    rw [if_pos (Geometry.ringed_iff.mp ringed)]
    have none_skipped : rows.length - geometry.ringW = 0 := by omega
    simp only [none_skipped, Nat.add_zero, List.drop_zero]
    by_cases older : p < session.dposHost
    · rw [List.getElem?_append_left (by omega)] at present
      rw [UndoRing.storeFrom_other]
      · exact holds p minted present
      · intro offset bounded
        rw [List.length_map] at bounded
        rw [Nat.mod_eq_of_lt (by omega)]
        omega
    · rw [List.getElem?_append_right (by omega), length_eq] at present
      have inside := (List.getElem?_eq_some_iff.mp present).1
      have stored := UndoRing.storeFrom_stored geometry.ringW (session.layers layer).cache
        session.dposHost (rows.map fun row => row layer) (by rw [List.length_map]; omega)
        (p - session.dposHost) (minted layer) (by rw [List.getElem?_map, present]; rfl)
      rwa [show session.dposHost + (p - session.dposHost) = p by omega,
        Nat.mod_eq_of_lt (by omega)] at stored
  · rw [if_neg fun ring => ringed (Geometry.ringed_iff.mpr ring)]
    by_cases older : p < session.dposHost
    · rw [List.getElem?_append_left (by omega)] at present
      simp only [if_neg (Nat.not_le.mpr older)]
      exact holds p minted present
    · rw [List.getElem?_append_right (by omega), length_eq] at present
      simp only [if_pos (Nat.le_of_not_lt older), present]

theorem sound_batchedFrom {env : BatchEnv} {rows : List (Minted Row)} {P : Nat}
    (sound : PrefixRun.Sound geometry ⟨session, live, taken⟩)
    (batched : gemma4KvPrefillBatchedFrom geometry env rows P session = some next) :
    PrefixRun.Sound geometry ⟨next, live ++ rows, taken⟩ := by
  obtain ⟨standing, _, _, position, _⟩ := batchedFrom_some batched
  have length_eq : live.length = session.dposHost := sound.length_eq
  have flag := batchedFrom_wrapped batched
  refine ⟨placed_batchedFrom sound.placed batched, ?_, ?_, ?_, sound.taken⟩
  · simp only [List.length_append, length_eq, position, standing]
  · intro layer owner positional
    simp only [batchedFrom_layers layer batched, if_pos owner]
    apply HoldsRows.storeBatch owner length_eq
    · intro ringed
      have short := (positional ringed).2
      rw [standing]
      simpa only [position] using short
    · apply sound.holds layer owner
      intro ringed
      obtain ⟨lowered, short⟩ := positional ringed
      simp only [flag, Bool.or_eq_false_iff] at lowered
      simp only [position] at short
      exact ⟨lowered.1, by simp only; omega⟩
  · intro ring lowered long
    simp only [position] at long
    simp only [flag, decide_eq_true ring, decide_eq_true long] at lowered
    simp at lowered

/-- The chunk loop appends the rows of the chunks that went through. -/
theorem sound_pieces {env : Nat → BatchEnv} {parts : List (List (Minted Row))} {off : Nat}
    (sound : PrefixRun.Sound geometry ⟨session, live, taken⟩) :
    let next := (prefillPieces geometry env parts off session).1
    PrefixRun.Sound geometry ⟨next, (live ++ parts.flatten).take next.dposHost, taken⟩ := by
  induction parts generalizing session live off with
  | nil =>
      have length_eq : live.length = session.dposHost := sound.length_eq
      simp only [prefillPieces, List.flatten_nil, List.append_nil, ← length_eq, List.take_length]
      exact sound
  | cons piece rest inductionHypothesis =>
      have length_eq : live.length = session.dposHost := sound.length_eq
      unfold prefillPieces
      cases batched : gemma4KvPrefillBatchedFrom geometry (env off) piece off session with
      | none =>
          simp only [← length_eq, List.take_left']
          exact sound
      | some middle =>
          have later := @inductionHypothesis middle _ (off + piece.length)
            (sound_batchedFrom sound batched)
          simp only [List.flatten_cons, ← List.append_assoc]
          exact later

/-- A rewind leaves every slot below the new position alone where slots are positions. -/
theorem restoreRows_cache {delta layer slot : Nat} (inside : delta ≤ session.dposHost)
    (missed : geometry.isGlobal layer = true ∨
      ∀ p, session.dposHost - delta ≤ p → p < session.dposHost → slot ≠ p % geometry.ringW) :
    (restoreRows geometry session delta layer).cache slot =
      (session.layers layer).cache slot := by
  induction delta with
  | zero => rfl
  | succ delta inductionHypothesis =>
      have before := inductionHypothesis (by omega)
        (missed.imp_right fun away p above below => away p (by omega) below)
      rw [restoreRows_succ, ← before]
      split
      next owner =>
        unfold restoreSlot
        split
        next => rfl
        next windowed =>
          have away := missed.resolve_left windowed (session.dposHost - 1 - delta) (by omega)
            (by omega)
          exact Function.update_of_ne away _ _
      next shared => rfl

theorem rewind_layers {delta : Int} {layer slot : Nat}
    (rewound : gemma4KvRewind geometry delta session = some next)
    (missed : geometry.ringed layer = false ∨
      ∀ p, session.dposHost - delta.toNat ≤ p → p < session.dposHost →
        slot ≠ p % geometry.ringW) :
    (next.layers layer).cache slot = (session.layers layer).cache slot ∧
      next.ringWrapped = session.ringWrapped := by
  obtain ⟨_, inside, _⟩ := rewind_some rewound
  unfold gemma4KvRewind at rewound
  split at rewound
  next => cases rewound
  next =>
    split at rewound
    next ring =>
      split at rewound
      next => cases rewound
      next =>
        cases rewound
        refine ⟨restoreRows_cache inside (missed.imp_left fun linear => ?_), rfl⟩
        simpa [Geometry.ringed, ring] using linear
    next =>
      cases rewound
      exact ⟨rfl, rfl⟩

theorem sound_rewind {delta : Int} (sound : PrefixRun.Sound geometry ⟨session, live, taken⟩)
    (placed : next.Placed geometry)
    (rewound : gemma4KvRewind geometry delta session = some next) :
    PrefixRun.Sound geometry ⟨next, live.take next.dposHost, taken⟩ := by
  obtain ⟨_, inside, uncommitted, position, baseline⟩ := rewind_some rewound
  have length_eq : live.length = session.dposHost := sound.length_eq
  have flag : next.ringWrapped = session.ringWrapped :=
    (@rewind_layers _ _ _ _ _ (min geometry.kvfs geometry.NL) geometry.ringW rewound (by
      by_cases ring : 0 < geometry.ringW
      · exact Or.inr fun p _ _ => (Nat.mod_lt p ring).ne'
      · exact Or.inl (by simp [Geometry.ringed, ring]))).2
  -- with the flag down a ring longer than its width has nothing to rewind
  have short : 0 < geometry.ringW → session.ringWrapped = false →
      next.dposHost ≤ geometry.ringW → session.dposHost ≤ geometry.ringW := by
    intro ring lowered fits
    by_contra long
    have parked : session.commitPos = session.dposHost :=
      sound.parked ring lowered (Nat.lt_of_not_le long)
    have bounded := uncommitted ring
    omega
  refine ⟨placed, ?_, ?_, ?_, sound.taken⟩
  · rw [List.length_take, length_eq, position]
    exact min_eq_left (Nat.sub_le _ _)
  · intro layer owner positional
    have before : Positional geometry layer session.ringWrapped session.dposHost := by
      intro ringed
      obtain ⟨lowered, fits⟩ := positional ringed
      simp only [flag] at lowered
      exact ⟨lowered, short (Geometry.ringed_iff.mp ringed).1 lowered fits⟩
    intro p minted present
    rw [List.getElem?_take] at present
    split at present
    next below =>
      simp only
      rw [(rewind_layers rewound ?_).1]
      · exact sound.holds layer owner before p minted present
      · by_cases ringed : geometry.ringed layer = true
        · refine Or.inr fun q above newest => ?_
          have fits := (before ringed).2
          rw [Nat.mod_eq_of_lt (by omega)]
          omega
        · exact Or.inl (Bool.eq_false_iff.mpr ringed)
    next => cases present
  · intro ring lowered long
    simp only [flag] at lowered
    simp only [position] at long
    have parked : session.commitPos = session.dposHost := sound.parked ring lowered (by
      simp only
      omega)
    have bounded := uncommitted ring
    simp only [position, baseline]
    omega

/-- The peek stores at the live position only. -/
theorem sound_readGlobalQ {row : Minted Row}
    (sound : PrefixRun.Sound geometry ⟨session, live, taken⟩) (placed : next.Placed geometry)
    (unfilled : session.dposHost = geometry.ringW → session.ringWrapped = true)
    (peeked : gemma4KvReadGlobalQ geometry widths row session = some next) :
    PrefixRun.Sound geometry ⟨next, live, taken⟩ := by
  obtain ⟨_, position, baseline⟩ := readGlobalQ_some peeked
  have length_eq : live.length = session.dposHost := sound.length_eq
  refine ⟨placed, length_eq.trans position.symm, ?_, ?_, sound.taken⟩
  · intro layer owner positional
    obtain ⟨flag, stored⟩ := readGlobalQ_layers layer peeked
    rw [if_pos owner] at stored
    have before : Positional geometry layer session.ringWrapped session.dposHost := by
      simpa only [flag, position] using positional
    intro p minted present
    have inside : p < live.length := (List.getElem?_eq_some_iff.mp present).1
    simp only [stored, replayRow, slideJournal_dposHost, Nat.add_zero]
    rw [Function.update_of_ne]
    · exact sound.holds layer owner before p minted present
    · by_cases ringed : geometry.ringed layer = true
      · obtain ⟨lowered, fits⟩ := before ringed
        have below : session.dposHost < geometry.ringW := by
          refine lt_of_le_of_ne fits fun full => ?_
          rw [unfilled full] at lowered
          cases lowered
        rw [Geometry.slotOf, if_pos ringed, Nat.mod_eq_of_lt below]
        omega
      · rw [Geometry.slotOf, if_neg ringed]
        omega
  · intro ring lowered long
    have flag := (readGlobalQ_layers 0 peeked).1
    simp only [flag] at lowered
    simp only [position] at long
    simp only [position, baseline]
    exact sound.parked ring lowered long

theorem sound_shear {P : Int} (sound : PrefixRun.Sound geometry ⟨session, live, taken⟩)
    (placed : next.Placed geometry)
    (sheared : gemma4KvShear geometry P session = some next) :
    PrefixRun.Sound geometry ⟨next, live.take next.dposHost, taken⟩ := by
  obtain ⟨_, inside, positional, rfl⟩ := shear_some sheared
  have length_eq : live.length = session.dposHost := sound.length_eq
  refine ⟨placed, ?_, ?_, ?_, sound.taken⟩
  · rw [List.length_take, length_eq]
    exact min_eq_left inside
  · intro layer owner _
    refine (sound.holds layer owner fun ringed => ?_).take _
    exact positional (Geometry.ringed_iff.mp ringed).1
  · intro _ _ _
    rfl

theorem sound_restore {entry : TakenPrefix Row}
    (sound : PrefixRun.Sound geometry ⟨session, live, taken⟩) (known : entry ∈ taken)
    (placed : next.Placed geometry)
    (unwrapped : entry.wrapped = true → entry.saved.P ≤ geometry.ringW →
      session.ringWrapped = true)
    (restored : restoreRowsAt geometry entry.saved session = some next) :
    PrefixRun.Sound geometry ⟨next, entry.live, taken⟩ := by
  obtain ⟨_, position, baseline⟩ := restoreRowsAt_some restored
  have entrySound := sound.taken entry known
  refine ⟨placed, entrySound.length_eq.trans position.symm, ?_, ?_, sound.taken⟩
  · intro layer owner positional p minted present
    have inside := (List.getElem?_eq_some_iff.mp present).1
    rw [entrySound.length_eq] at inside
    unfold restoreRowsAt at restored
    split at restored
    next => cases restored
    next =>
      cases restored
      simp only at positional ⊢
      rw [updateEach_owners, if_pos owner, restoreLayer]
      have held : Positional geometry layer entry.wrapped entry.saved.P := by
        intro ringed
        obtain ⟨lowered, fits⟩ := positional ringed
        refine ⟨?_, fits⟩
        by_contra wrapped
        rw [unwrapped (Bool.not_eq_false _ ▸ wrapped) fits] at lowered
        cases lowered
      have copied : p < prefixSlots geometry layer entry.saved.P := by
        unfold prefixSlots
        split
        next ringed => exact inside.trans_le (held ringed).2
        next => exact inside
      simp only [if_pos copied]
      exact entrySound.holds layer owner held p minted present
  · intro _ _ _
    simp only [position, baseline]

end Steps

/-! ## Runs -/

section Runs

variable {geometry : Geometry} {widths : RowWidths}

/-- A call that appends rows by steps, or refuses. -/
theorem sound_orRefuse {call : KvSession Row → Option (KvSession Row)} {rows : List (Minted Row)}
    {run : PrefixRun Row} (sound : run.Sound geometry)
    (steps : ∀ next, call run.session = some next →
      run.session.dposHost + rows.length ≤ geometry.Pmax ∧
        runEach (stepAndAdvance geometry) rows run.session = some next) :
    let next := (orRefuse call run.session).1
    PrefixRun.Sound geometry ⟨next, (run.live ++ rows).take next.dposHost, run.taken⟩ := by
  unfold orRefuse
  cases served : call run.session with
  | none =>
      simp only [← sound.length_eq, List.take_left']
      exact sound
  | some next =>
      obtain ⟨room, stepped⟩ := steps next served
      have moved := steps_dposHost stepped
      have later := sound_steps sound room stepped
      have whole : (run.live ++ rows).take next.dposHost = run.live ++ rows := by
        apply List.take_of_length_le
        rw [List.length_append, sound.length_eq, moved]
      simp only [whole]
      exact later

/-- A call that appends nothing, or refuses. -/
theorem sound_orRefuse_nil {call : KvSession Row → Option (KvSession Row)}
    {run : PrefixRun Row} (sound : run.Sound geometry)
    (keeps : ∀ next, call run.session = some next →
      PrefixRun.Sound geometry ⟨next, run.live.take next.dposHost, run.taken⟩) :
    let next := (orRefuse call run.session).1
    PrefixRun.Sound geometry ⟨next, (run.live ++ []).take next.dposHost, run.taken⟩ := by
  unfold orRefuse
  simp only [List.append_nil]
  cases served : call run.session with
  | none =>
      simp only [← sound.length_eq, List.take_length]
      exact sound
  | some next => exact keeps next served

theorem sound_batched {env : BatchEnv} {rows : List (Minted Row)} {P : Nat} {run : PrefixRun Row}
    (sound : run.Sound geometry) :
    let next := (orRefuse (gemma4KvPrefillBatchedFrom geometry env rows P) run.session).1
    PrefixRun.Sound geometry ⟨next, (run.live ++ rows).take next.dposHost, run.taken⟩ := by
  have single := @sound_pieces _ geometry run.session run.live run.taken (fun _ => env) [rows] P
    sound
  simp only [List.flatten_cons, List.flatten_nil, List.append_nil] at single
  unfold orRefuse
  unfold prefillPieces at single
  cases batched : gemma4KvPrefillBatchedFrom geometry env rows P run.session with
  | none =>
      rw [batched] at single
      exact single
  | some next =>
      rw [batched] at single
      exact single

theorem sound_prefillBatched {env : Nat → BatchEnv} {chunk : Nat} {rows : List (Minted Row)}
    {run : PrefixRun Row} (sound : run.Sound geometry) :
    let next := (gemma4KvPrefillBatched geometry env chunk rows run.session).1
    PrefixRun.Sound geometry ⟨next, (run.live ++ rows).take next.dposHost, run.taken⟩ := by
  unfold gemma4KvPrefillBatched
  split
  next => exact sound_batched sound
  next several =>
    rw [not_or] at several
    have whole := flatten_pieces several.1 rows.length rows (Nat.le_refl _)
    have swept := @sound_pieces _ geometry run.session run.live run.taken env
      (pieces chunk rows.length rows) 0 sound
    rw [whole] at swept
    exact swept

/-- A snapshot is taken at the live position. -/
theorem sound_snapshot {P : Int} {run : PrefixRun Row} {saved : PrefixRows Row}
    (sound : run.Sound geometry) (shot : snapshotRows geometry P run.session = some saved) :
    PrefixRun.Sound geometry
      ⟨run.session, run.live, run.taken ++ [⟨saved, run.live, run.session.ringWrapped⟩]⟩ := by
  refine ⟨sound.placed, sound.length_eq, sound.holds, sound.parked, ?_⟩
  unfold snapshotRows at shot
  split at shot
  next => cases shot
  next standing =>
    cases shot
    intro entry member
    rcases List.mem_append.mp member with older | newest
    · exact sound.taken entry older
    · rw [List.mem_singleton.mp newest]
      have here : P.toNat = run.session.dposHost := by omega
      refine ⟨sound.length_eq.trans here.symm, ?_⟩
      simp only [here]
      exact sound.holds

/-- Every guarded request keeps the invariant. -/
theorem sound_request (request : PrefixRequest Row) (run : PrefixRun Row)
    (guarded : request.KeepsFlag geometry widths run) (sound : run.Sound geometry) :
    (PrefixRun.step geometry widths request run).Sound geometry := by
  cases request with
  | call call plain =>
      have placed := placed_serve widths call sound.placed
      cases call with
      | prefill rows =>
          refine sound_orRefuse sound fun next filled => ?_
          exact ⟨(prefill_some filled).2.1, (prefill_some filled).2.2⟩
      | prefillBatched env chunk rows => exact sound_prefillBatched sound
      | prefillBatchedFrom env rows P => exact sound_batched sound
      | decode rows =>
          refine sound_orRefuse sound fun next decoded => ?_
          exact ⟨(decode_some decoded).1.le, (decode_some decoded).2⟩
      | decodeLogits row =>
          refine sound_orRefuse sound fun next decoded => ?_
          have single := decode_some (decodeLogits_some decoded)
          exact ⟨single.1.le, single.2⟩
      | decodeBatch rows =>
          refine sound_orRefuse sound fun next decoded => ?_
          have several := decode_some (decodeBatch_some decoded)
          exact ⟨several.1.le, several.2⟩
      | injectTokens scale rows => cases plain
      | replay rows =>
          refine sound_orRefuse sound fun next replayed => ?_
          exact ⟨(replay_some replayed).1, replay_steps replayed⟩
      | readGlobalQ row =>
          refine sound_orRefuse_nil sound fun next peeked => ?_
          have placed : next.Placed geometry := placed_of_served peeked placed
          have position := (readGlobalQ_some peeked).2.1
          rw [position, ← sound.length_eq, List.take_length]
          exact sound_readGlobalQ sound placed (guarded (Option.isSome_of_eq_some peeked)) peeked
      | rewind delta =>
          refine sound_orRefuse_nil sound fun next rewound => ?_
          have placed : next.Placed geometry := placed_of_served rewound placed
          exact sound_rewind sound placed rewound
      | commit =>
          have kept : run.live.take run.session.dposHost = run.live := by
            rw [← sound.length_eq, List.take_length]
          refine ⟨placed, ?_, ?_, fun _ _ _ => rfl, sound.taken⟩
          · simp only [PrefixRun.step, SessionCall.serve, SessionCall.rows, gemma4KvCommit,
              List.append_nil, kept]
            exact sound.length_eq
          · simp only [PrefixRun.step, SessionCall.serve, SessionCall.rows, gemma4KvCommit,
              List.append_nil, kept]
            exact sound.holds
      | shear P =>
          refine sound_orRefuse_nil sound fun next sheared => ?_
          have placed : next.Placed geometry := placed_of_served sheared placed
          exact sound_shear sound placed sheared
      | restorePrefix saved => cases plain
      | reset =>
          refine ⟨placed, rfl, ?_, fun _ _ _ => rfl, sound.taken⟩
          intro layer _ _ p minted present
          simp [PrefixRun.step, SessionCall.serve, gemma4KvReset] at present
  | snapshot P =>
      unfold PrefixRun.step
      simp only
      cases shot : snapshotRows geometry P run.session with
      | none => exact sound
      | some saved => exact sound_snapshot sound shot
  | restore k =>
      unfold PrefixRun.step
      simp only
      cases found : run.taken[k]? with
      | none => exact sound
      | some entry =>
          simp only
          cases restored : restoreRowsAt geometry entry.saved run.session with
          | none => exact sound
          | some next =>
              have placed : next.Placed geometry := placed_of_served restored
                (placed_serve widths (.restorePrefix entry.saved) sound.placed)
              exact sound_restore sound (List.mem_of_getElem? found) placed
                (guarded entry found (Option.isSome_of_eq_some restored)) restored

end Runs

/-! ## Continuing from a shear -/

section Continue

variable {geometry : RingGeometry} {session after : KvSession Row} {live rows : List (Minted Row)}

theorem holds_full_steps {layer : Nat} (owner : layer ∈ geometry.owners)
    (full : geometry.ringed layer = false) (length_eq : live.length = session.dposHost)
    (holds : HoldsRows (session.layers layer).cache live layer)
    (run : runEach (stepAndAdvance geometry.toGeometry) rows session = some after) :
    HoldsRows (after.layers layer).cache (live ++ rows) layer := by
  induction rows generalizing session live with
  | nil =>
      cases run
      rwa [List.append_nil]
  | cons row rest inductionHypothesis =>
      obtain ⟨middle, stepped, continued⟩ := Option.bind_eq_some_iff.mp run
      have stored := (positional_step owner stepped fun ringed => by
        rw [full] at ringed
        cases ringed).2
      have pushed : HoldsRows (middle.layers layer).cache (live ++ [row]) layer := by
        rw [stored, ← length_eq]
        exact holds.push
      have later := inductionHypothesis
        (by rw [List.length_append, length_eq, (stepAndAdvance_some stepped).1]; rfl) pushed
        continued
      rwa [List.append_assoc, List.singleton_append] at later

/-- Steps keep every position whose slot they do not take. -/
theorem keptAfterSteps_of_near {count pos commit q : Nat} {kept : Nat → Bool}
    (known : kept q = true) (near : pos + count ≤ q + geometry.ringW) :
    keptAfterSteps geometry.toGeometry count pos commit kept q = true := by
  induction count generalizing pos commit kept with
  | zero => exact known
  | succ count inductionHypothesis =>
      apply inductionHypothesis
      · have inSlot : pos ≤ q + geometry.ringW := by omega
        simp [known, inSlot]
      · omega

theorem remembers_of_holds (young : session.dposHost ≤ geometry.ringW)
    (length_eq : live.length = session.dposHost) (baseline : session.commitPos ≤ session.dposHost)
    (holds : ∀ layer ∈ geometry.owners, HoldsRows (session.layers layer).cache live layer) :
    Trace.Remembers geometry ⟨session, live, fun _ => true⟩ := by
  intro layer swa
  obtain ⟨known, owner, _⟩ := Geometry.swaOwner_iff.mp swa
  apply UndoRing.Tracks.of_young
  · rw [List.length_map]
    exact length_eq
  · exact baseline
  · exact young
  · intro q row present
    rw [List.getElem?_map, Option.map_eq_some_iff] at present
    obtain ⟨minted, here, rfl⟩ := present
    have inside : q < live.length := (List.getElem?_eq_some_iff.mp here).1
    simp only [KvSession.layerRing]
    rw [Nat.mod_eq_of_lt (by omega)]
    exact holds layer (Geometry.mem_owners.mpr ⟨owner, known⟩) q minted here

theorem truePrefix_of_holds (young : session.dposHost ≤ geometry.ringW)
    (length_eq : live.length = session.dposHost) (baseline : session.commitPos ≤ session.dposHost)
    (holds : ∀ layer ∈ geometry.owners, HoldsRows (session.layers layer).cache live layer) :
    TruePrefix geometry.toGeometry session live := by
  refine ⟨holds, ?_⟩
  intro rows after run layer owner q read older
  have moved := steps_dposHost run
  have inside : q < (live ++ rows).length := by
    rw [List.length_append, length_eq]
    omega
  have present := List.getElem?_eq_getElem inside
  refine ⟨(live ++ rows)[q], present, ?_⟩
  by_cases ringed : geometry.ringed layer = true
  · have windowed := (Geometry.ringed_iff.mp ringed).2
    have near := (Geometry.mem_window.mp read).2 windowed
    have window_le := geometry.window_le
    obtain ⟨owns, known⟩ := Geometry.mem_owners.mp owner
    have remembers := remembers_steps run (remembers_of_holds young length_eq baseline holds)
    have stored := (remembers layer (Geometry.swaOwner_iff.mpr ⟨known, owns, windowed⟩)).in_slot q
      ((live ++ rows)[q] layer) (by rw [List.getElem?_map, present]; rfl)
      (keptAfterSteps_of_near rfl (by omega))
      (by simp only [layerRing_pos, layerRing_width]; omega)
    rw [Geometry.slotOf, if_pos ringed]
    exact stored
  · have full := Bool.eq_false_iff.mpr ringed
    rw [Geometry.slotOf, if_neg ringed]
    exact holds_full_steps owner full length_eq (holds layer owner) run q _ present

/-- A shear that succeeds in a sound run leaves a true prefix. -/
theorem sound_shearsTrue (widths : RowWidths) (request : PrefixRequest Row) (run : PrefixRun Row)
    (sound : run.Sound geometry.toGeometry) :
    request.ShearsTrue geometry.toGeometry run := by
  unfold PrefixRequest.ShearsTrue
  split
  next P plain =>
    intro next sheared
    obtain ⟨_, inside, positional, moved⟩ := shear_some sheared
    have placed : next.Placed geometry.toGeometry :=
      placed_of_served sheared (placed_serve widths (.shear P) sound.placed)
    have shorn := sound_shear sound placed sheared
    have position : next.dposHost = P.toNat := by rw [moved]
    have young : next.dposHost ≤ geometry.ringW := by
      rw [position]
      exact inside.trans (positional geometry.ring_pos).2
    have lowered : next.ringWrapped = false := by
      rw [moved]
      exact (positional geometry.ring_pos).1
    refine ⟨position, ?_⟩
    rw [← position]
    exact truePrefix_of_holds young shorn.length_eq (placed.commit_le geometry.ring_pos)
      fun layer owner => shorn.holds layer owner fun _ => ⟨lowered, young⟩
  next => trivial

end Continue

/-! ## The shear -/

theorem sound_opened {geometry : Geometry} (layers : Nat → LayerCache Row) (oneShot : Bool) :
    PrefixRun.Sound geometry ⟨KvSession.opened layers oneShot, [], []⟩ where
  placed := placed_opened layers oneShot
  length_eq := rfl
  holds := by
    intro layer _ _ p minted present
    simp at present
  parked _ _ long := absurd long (Nat.not_lt_zero _)
  taken := by
    intro entry member
    cases member

/-- In every run of guarded requests, each shear that returns 0 leaves a true prefix. -/
theorem gemma4KvShear_truePrefix (geometry : RingGeometry) (widths : RowWidths)
    (layers : Nat → LayerCache Row) (oneShot : Bool) (requests : List (PrefixRequest Row))
    (guarded : GuardedRun (PrefixRun.step geometry.toGeometry widths)
      (fun request run => request.KeepsFlag geometry.toGeometry widths run) requests
      ⟨KvSession.opened layers oneShot, [], []⟩) :
    GuardedRun (PrefixRun.step geometry.toGeometry widths)
      (fun request run => request.ShearsTrue geometry.toGeometry run) requests
      ⟨KvSession.opened layers oneShot, [], []⟩ :=
  guarded.establishes (fun request run kept sound => sound_request request run kept sound)
    (fun request run _ sound => sound_shearsTrue widths request run sound)
    (sound_opened layers oneShot)

/-- A peek at three positions of a ring of four, then a shear to two. -/
theorem gemma4KvShear_truePrefix_peeked :
    let requests : List (PrefixRequest Nat) :=
      [.call (.prefill (numberedRows 0 3)) rfl, .call (.readGlobalQ fun _ => 77) rfl,
        .call (.shear 2) rfl]
    GuardedRun (PrefixRun.step smallRing.toGeometry ⟨1, 1, 1, 1, false, false⟩)
      (fun request run => request.ShearsTrue smallRing.toGeometry run) requests
      ⟨KvSession.opened staleSession.layers true, [], []⟩ := by
  refine gemma4KvShear_truePrefix smallRing ⟨1, 1, 1, 1, false, false⟩ staleSession.layers true
    [.call (.prefill (numberedRows 0 3)) rfl, .call (.readGlobalQ fun _ => 77) rfl,
      .call (.shear 2) rfl] ⟨trivial, ?_, trivial, trivial⟩
  intro _ full
  exact absurd full (by decide)

/-- A peek at exactly four positions of a ring of four overwrites slot 0, and the shear still
returns 0. -/
theorem gemma4KvShear_keeps_peek :
    let run := serveAll (PrefixRun.step smallRing.toGeometry ⟨1, 1, 1, 1, false, false⟩)
      [.call (.prefill (numberedRows 0 4)) rfl, .call (.readGlobalQ fun _ => 77) rfl]
      ⟨KvSession.opened staleSession.layers true, [], []⟩
    ∃ next, gemma4KvShear smallRing.toGeometry 1 run.session = some next ∧
      run.live[0]?.map (fun minted => minted 0) = some 0 ∧ smallRing.swaOwner 0 = true ∧
      (next.layers 0).cache 0 = 77 ∧ ¬ TruePrefix smallRing.toGeometry next (run.live.take 1) := by
  refine ⟨_, rfl, rfl, rfl, rfl, ?_⟩
  rintro ⟨holds, _⟩
  exact absurd (holds 0 (by decide) 0 (fun _ => 0) rfl) (by decide)

/-- A restore does not raise the flag: the snapshot of a rewound, wrapped ring comes back after
a reset, and the shear trusts it. -/
theorem gemma4KvShear_trusts_restore :
    let run := serveAll (PrefixRun.step smallRing.toGeometry ⟨1, 1, 1, 1, false, false⟩)
      [.call (.prefill (numberedRows 0 6)) rfl, .call (.rewind 3) rfl, .snapshot 3,
        .call .reset rfl, .restore 0]
      ⟨KvSession.opened staleSession.layers true, [], []⟩
    ∃ next, gemma4KvShear smallRing.toGeometry 1 run.session = some next ∧
      run.live[0]?.map (fun minted => minted 0) = some 0 ∧ smallRing.swaOwner 0 = true ∧
      (next.layers 0).cache 0 = 99 :=
  ⟨_, rfl, rfl, rfl, rfl⟩

end KairosEngine.Cuda
