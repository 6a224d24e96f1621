import KairosEngine.Cuda.KvSession
import Mathlib.Tactic.IntervalCases

/-!
# What a ring-mode rewind gives back

A run of successful calls is followed by two observers that never look at a
row: the rows still live by position, and the positions whose row is still
recoverable, from its slot or from the journal entry a rewind would read.  The
auto-slide and the batched sink are the two places that lose positions.
-/

namespace KairosEngine.Cuda

open KairosEngine.Library

universe u

variable {Row : Type u}

/-- A session with the history of the steps that were not rewound. -/
structure Trace (Row : Type u) where
  session : KvSession Row
  live : List (Minted Row)
  kept : Nat → Bool

/-- Positions still recoverable after `count` steps taken from `pos` with the
journal based at `commit`. -/
def keptAfterSteps (geometry : Geometry) : Nat → Nat → Nat → (Nat → Bool) → Nat → Bool
  | 0, _, _, kept => kept
  | count + 1, pos, commit, kept =>
      let slides := decide (geometry.Jmax ≤ pos - commit)
      let commit' := if slides then pos - (geometry.Jmax - 1) else commit
      keptAfterSteps geometry count (pos + 1) commit' fun q =>
        q == pos || (kept q && (!slides || decide (pos ≤ q + geometry.ringW)))

/-- Positions still recoverable after a batched prefill of `count` rows at `pos`. -/
def keptAfterBatch (geometry : Geometry) (count pos : Nat) (kept : Nat → Bool) : Nat → Bool :=
  fun q =>
    if q < pos then
      kept q && (decide (q + geometry.ringW < pos) || decide (pos + count ≤ q + geometry.ringW))
    else
      decide (pos + count ≤ q + geometry.ringW)

/-- Positions still recoverable after a commit at `pos`. -/
def keptAfterCommit (geometry : Geometry) (pos : Nat) (kept : Nat → Bool) : Nat → Bool :=
  fun q => kept q && decide (pos ≤ q + geometry.ringW)

def KvCall.live (trace : Trace Row) : KvCall Row → List (Minted Row)
  | .prefill rows | .decode rows | .decodeBatch rows | .prefillBatchedFrom _ rows _ =>
      trace.live ++ rows
  | .decodeLogits row => trace.live ++ [row]
  | .commit => trace.live
  | .rewind delta => trace.live.take (trace.session.dposHost - delta.toNat)

def KvCall.kept (geometry : Geometry) (trace : Trace Row) : KvCall Row → Nat → Bool
  | .prefill rows | .decode rows | .decodeBatch rows =>
      keptAfterSteps geometry rows.length trace.session.dposHost trace.session.commitPos
        trace.kept
  | .decodeLogits _ =>
      keptAfterSteps geometry 1 trace.session.dposHost trace.session.commitPos trace.kept
  | .prefillBatchedFrom _ rows _ =>
      keptAfterBatch geometry rows.length trace.session.dposHost trace.kept
  | .commit => keptAfterCommit geometry trace.session.dposHost trace.kept
  | .rewind _ => trace.kept

def KvCall.observe (geometry : Geometry) (call : KvCall Row) (trace : Trace Row) :
    Option (Trace Row) :=
  (call.apply geometry trace.session).map fun session =>
    { session, live := call.live trace, kept := call.kept geometry trace }

/-- A run of successful calls. -/
def runCalls (geometry : Geometry) : List (KvCall Row) → Trace Row → Option (Trace Row) :=
  runEach (KvCall.observe geometry)

/-- The trace of a session that was just reset. -/
def Trace.reset (session : KvSession Row) : Trace Row where
  session := gemma4KvReset session
  live := []
  kept := fun _ => true

/-- Every ring layer remembers the recoverable positions of the live history. -/
def Trace.Remembers (geometry : RingGeometry) (trace : Trace Row) : Prop :=
  ∀ layer, geometry.swaOwner layer = true →
    (trace.session.layerRing geometry layer).Tracks
      (trace.live.map fun minted => minted layer) (fun q => trace.kept q = true)

/-- The rows in the attention window that ends at the present position are the
live rows of those positions. -/
def Trace.WindowIntact (geometry : RingGeometry) (trace : Trace Row) : Prop :=
  ∀ layer, geometry.swaOwner layer = true →
    ∀ q, trace.session.dposHost + 1 ≤ q + geometry.SW → q < trace.session.dposHost →
      ∃ minted, trace.live[q]? = some minted ∧
        (trace.session.layers layer).cache (q % geometry.ringW) = minted layer

/-- Every position of the window that a rewind by `delta` exposes is recoverable. -/
def Trace.Recoverable (geometry : RingGeometry) (trace : Trace Row) (delta : Int) : Prop :=
  ∀ q : Nat, (trace.session.dposHost : Int) - delta + 1 ≤ q + geometry.SW →
    (q : Int) < trace.session.dposHost - delta → trace.kept q = true

/-! ## Step lemmas -/

section Steps

variable {geometry : RingGeometry}

theorem Trace.reset_remembers (session : KvSession Row) :
    (Trace.reset session).Remembers geometry := by
  intro layer _
  exact UndoRing.tracks_empty _ _ _ _

/-- Token steps keep every ring layer in agreement with the observers. -/
theorem remembers_steps {rows : List (Minted Row)} {session next : KvSession Row}
    {live : List (Minted Row)} {kept : Nat → Bool}
    (run : runEach (stepAndAdvance geometry.toGeometry) rows session = some next)
    (remembers : Trace.Remembers geometry ⟨session, live, kept⟩) :
    Trace.Remembers geometry ⟨next, live ++ rows,
      keptAfterSteps geometry.toGeometry rows.length session.dposHost session.commitPos
        kept⟩ := by
  induction rows generalizing session live kept with
  | nil =>
      cases run
      simpa [keptAfterSteps] using remembers
  | cons row rest inductionHypothesis =>
      obtain ⟨middle, stepped, continued⟩ := Option.bind_eq_some_iff.mp run
      obtain ⟨position, baseline⟩ := stepAndAdvance_counters stepped
      have oneStep : Trace.Remembers geometry ⟨middle, live ++ [row],
          fun q => q == session.dposHost || (kept q &&
            (!decide (geometry.Jmax ≤ session.dposHost - session.commitPos) ||
              decide (session.dposHost ≤ q + geometry.ringW)))⟩ := by
        intro layer owner
        have slid := (remembers layer owner).slide geometry.Jmax
        have pushed := slid.push (row layer) (by simpa using geometry.ring_pos)
        rw [← layerRing_stepAndAdvance stepped owner] at pushed
        rw [List.map_append, List.map_singleton]
        refine pushed.mono fun q _ survives => ?_
        simp only [UndoRing.slide_pos, layerRing_pos, UndoRing.afterSlide, layerRing_base,
          layerRing_width]
        simp only [Bool.or_eq_true, beq_iff_eq, Bool.and_eq_true, Bool.not_eq_true',
          decide_eq_true_eq, decide_eq_false_iff_not] at survives
        refine survives.imp_right fun older => ⟨older.1, fun full => ?_⟩
        exact older.2.resolve_left (fun room => room full)
      have later := inductionHypothesis continued oneStep
      rw [List.append_assoc, List.singleton_append, position, baseline] at later
      simpa only [List.length_cons, keptAfterSteps, slideJournal_commit,
        decide_eq_true_eq] using later

theorem remembers_batched {env : BatchEnv} {rows : List (Minted Row)} {P : Nat}
    {trace : Trace Row} {next : KvSession Row}
    (batched : gemma4KvPrefillBatchedFrom geometry.toGeometry env rows P trace.session =
      some next)
    (remembers : trace.Remembers geometry) :
    Trace.Remembers geometry ⟨next, trace.live ++ rows,
      keptAfterBatch geometry.toGeometry rows.length trace.session.dposHost trace.kept⟩ := by
  intro layer owner
  have sunk := (remembers layer owner).sink (rows.map fun minted => minted layer)
  rw [← layerRing_batched batched owner] at sunk
  rw [List.map_append]
  refine sunk.mono fun q _ survives => ?_
  simp only [keptAfterBatch] at survives
  simp only [UndoRing.afterSink, layerRing_pos, layerRing_width, List.length_map]
  split at survives
  next older =>
    rw [if_pos older]
    simp only [Bool.and_eq_true, Bool.or_eq_true, decide_eq_true_eq] at survives
    exact ⟨survives.1, fun near => survives.2.resolve_left (by omega)⟩
  next fresh =>
    rw [if_neg fresh]
    exact of_decide_eq_true survives

theorem remembers_commit {trace : Trace Row} (remembers : trace.Remembers geometry) :
    Trace.Remembers geometry ⟨gemma4KvCommit trace.session, trace.live,
      keptAfterCommit geometry.toGeometry trace.session.dposHost trace.kept⟩ := by
  intro layer owner
  have settled := (remembers layer owner).settle
  refine settled.mono fun q _ survives => ?_
  simp only [keptAfterCommit, Bool.and_eq_true, decide_eq_true_eq] at survives
  exact survives

theorem remembers_rewind {delta : Int} {trace : Trace Row} {next : KvSession Row}
    (rewound : gemma4KvRewind geometry.toGeometry delta trace.session = some next)
    (remembers : trace.Remembers geometry) :
    Trace.Remembers geometry ⟨next,
      trace.live.take (trace.session.dposHost - delta.toNat), trace.kept⟩ := by
  intro layer owner
  obtain ⟨_, uncommitted, _, _⟩ := rewind_bounds rewound
  have popped := (remembers layer owner).popN delta.toNat uncommitted
  rw [← layerRing_rewind rewound owner] at popped
  simpa only [List.map_take, layerRing_pos] using popped

/-- Every successful call keeps the ring layers in agreement with the observers. -/
theorem remembers_call {call : KvCall Row} {trace next : Trace Row}
    (observed : call.observe geometry.toGeometry trace = some next)
    (remembers : trace.Remembers geometry) : next.Remembers geometry := by
  obtain ⟨session, applied, rfl⟩ := Option.map_eq_some_iff.mp observed
  cases call with
  | prefill rows =>
      simp only [KvCall.apply, gemma4KvPrefill] at applied
      split at applied
      next => simp at applied
      next => exact remembers_steps applied remembers
  | decode rows =>
      simp only [KvCall.apply, gemma4KvDecode] at applied
      split at applied
      next => simp at applied
      next => exact remembers_steps applied remembers
  | decodeLogits row =>
      simp only [KvCall.apply, gemma4KvDecodeLogits] at applied
      split at applied
      next => simp at applied
      next =>
        have single : runEach (stepAndAdvance geometry.toGeometry) [row] trace.session =
            some session := by
          simp [runEach, applied]
        exact remembers_steps single remembers
  | decodeBatch rows =>
      simp only [KvCall.apply, gemma4KvDecodeBatch] at applied
      split at applied
      next => simp at applied
      next => exact remembers_steps applied remembers
  | prefillBatchedFrom env rows P => exact remembers_batched applied remembers
  | commit =>
      cases applied
      exact remembers_commit remembers
  | rewind delta => exact remembers_rewind applied remembers

/-- The agreement holds after every run from a reset session. -/
theorem remembers_run {calls : List (KvCall Row)} {start : KvSession Row} {trace : Trace Row}
    (run : runCalls geometry.toGeometry calls (Trace.reset start) = some trace) :
    trace.Remembers geometry :=
  runEach_preserves (fun _ _ _ observed => remembers_call observed) run
    (Trace.reset_remembers start)

/-- Where the exposed window is recoverable, its slots hold the live rows. -/
theorem windowIntact_of_kept {trace : Trace Row} (remembers : trace.Remembers geometry)
    (kept : ∀ q, trace.session.dposHost + 1 ≤ q + geometry.SW →
      q < trace.session.dposHost → trace.kept q = true) :
    trace.WindowIntact geometry := by
  intro layer owner q near older
  have tracked := remembers layer owner
  have window_le := geometry.window_le
  have inside : q < trace.live.length := by
    have length_eq := tracked.length_eq
    simp only [List.length_map, layerRing_pos] at length_eq
    omega
  refine ⟨trace.live[q], List.getElem?_eq_getElem inside, ?_⟩
  have stored := tracked.in_slot q (trace.live[q] layer)
    (by simp [List.getElem?_map, List.getElem?_eq_getElem inside])
    (kept q near older) (by simp only [layerRing_pos, layerRing_width]; omega)
  exact stored

end Steps

/-! ## The rewind -/

/-- A rewind that returns 0 restores the whole attention window whenever every
position of that window was still recoverable before it. -/
theorem gemma4KvRewind_windowIntact (geometry : RingGeometry) (start : KvSession Row)
    (calls : List (KvCall Row)) (trace after : Trace Row) (delta : Int)
    (run : runCalls geometry.toGeometry calls (Trace.reset start) = some trace)
    (rewound : (KvCall.rewind delta).observe geometry.toGeometry trace = some after)
    (recoverable : trace.Recoverable geometry delta) :
    after.WindowIntact geometry := by
  have remembers := remembers_call rewound (remembers_run run)
  apply windowIntact_of_kept remembers
  obtain ⟨session, applied, rfl⟩ := Option.map_eq_some_iff.mp rewound
  obtain ⟨nonnegative, _, position, _⟩ := rewind_bounds applied
  simp only [position, KvCall.kept]
  intro q near older
  exact recoverable q (by omega) (by omega)

/-- A ring of four slots with a journal of four entries. -/
def smallRing : RingGeometry where
  Pmax := 16
  NL := 2
  kvfs := 2
  period := 2
  SW := 4
  ringW := 4
  Jmax := 4
  cpuTail := 0
  ring_pos := by decide
  window_le := by decide
  ring_le := by decide
  journal_pos := by decide

/-- A session whose buffers hold 99 everywhere. -/
def staleSession : KvSession Nat where
  dposHost := 0
  commitPos := 0
  jcur := 0
  ringWrapped := false
  oneShot := false
  layers := fun _ => { cache := fun _ => 99, journal := fun _ => 99 }

/-- Prompt rows numbered from `first` on. -/
def numberedRows (first count : Nat) : List (Minted Nat) :=
  (List.range' first count).map fun q _ => q

/-- A wrap-crossing rewind behind a commit: the turn of three decoded rows is
undone by two. -/
theorem gemma4KvRewind_windowIntact_committed :
    ∃ trace after,
      runCalls smallRing.toGeometry
        [.prefill (numberedRows 0 4), .commit, .decode (numberedRows 4 3)]
        (Trace.reset staleSession) = some trace ∧
      (KvCall.rewind 2).observe smallRing.toGeometry trace = some after ∧
      after.session.dposHost = 5 ∧ after.WindowIntact smallRing := by
  refine ⟨_, _, rfl, rfl, rfl, ?_⟩
  apply gemma4KvRewind_windowIntact smallRing staleSession
    [.prefill (numberedRows 0 4), .commit, .decode (numberedRows 4 3)] _ _ 2 rfl rfl
  intro q near older
  have bounded : (q : Int) < ((7 : Nat) : Int) - 2 := older
  -- Both hypotheses hold the run unevaluated.
  clear near older
  have small : q < 5 := by omega
  interval_cases q <;> rfl

/-- Ten prompt rows slide the journal six times; a rewind by three then reads
entries that no longer belong to the positions it restores. -/
theorem gemma4KvRewind_loses_window :
    ∃ trace after,
      runCalls smallRing.toGeometry [.prefill (numberedRows 0 10)] (Trace.reset staleSession) =
        some trace ∧
      (KvCall.rewind 3).observe smallRing.toGeometry trace = some after ∧
      after.session.dposHost = 7 ∧
      after.live[4]?.map (fun minted => minted 0) = some 4 ∧
      (after.session.layers 0).cache (4 % smallRing.ringW) = 99 ∧
      ¬ after.WindowIntact smallRing := by
  refine ⟨_, _, rfl, rfl, rfl, rfl, rfl, ?_⟩
  intro intact
  obtain ⟨minted, present, stored⟩ := intact 0 rfl 4 (by decide) (by decide)
  have numbered : (fun _ => 4) = minted := Option.some.inj present
  subst numbered
  exact absurd stored (by decide)

end KairosEngine.Cuda
