import KairosEngine.Cuda.KvSession
import KairosEngine.Library.UndoLog

/-!
# Speculative probes

Before the model answers, the recall lanes of `run_kvdecode_chat` replay one stored episode after
the other into the live cache, decode a few tokens behind it and rewind.  Each loop counts the steps
that succeeded and rewinds by that count; what a rewind says is ignored.
-/

namespace KairosEngine.Daemon

open KairosEngine.Library

/-! ## The loops -/

/-- How a `decode_step` ends: with a new entry, or with an error before or after the position moved. -/
inductive StepFate
  | done
  | refused
  | strayed
  deriving DecidableEq

/-- What the forward computes, as far as the probes look at it: the entry that decoding a token
appends, the logits it leaves, and arithmetic on scores. -/
structure ProbeModel (Entry Score : Type) where
  row : List Entry → Int → Entry
  zeroRow : Entry
  argmax : List Entry → Int → Int
  /-- `logits[s] - lse(logits)`. -/
  logProb : List Entry → Int → Int → Score
  zero : Score
  add : Score → Score → Score
  sub : Score → Score → Score
  mul : Score → Score → Score
  lt : Score → Score → Bool

/-- An episode with what its sidecars `ep.tok` and `ep.secret` were resolved to, and the rows that a
replay of it writes. -/
structure ProbeCandidate (Entry : Type) where
  npos : Int
  gkEmpty : Bool
  eptok : List Int
  secretIds : List Int
  rows : List Entry
  rows_length : rows.length = npos.toNat

/-- What fails while one candidate is probed. -/
structure ProbeFaults where
  replay : Bool
  first : Nat → StepFate
  ablate : Bool
  replayZero : Bool
  second : Nat → StepFate

/-- The three loops: INT2 with `SP_G4_KV_JMAX` as it reads it, and the two modes of the disposer. -/
inductive ProbeLoop
  | int2 (jmax : Int)
  | disposer2
  | disposer1
  deriving DecidableEq

variable {Entry Score : Type} {depth : Nat}

/-- `kv::replay`: refused where the journal has no room for the episode. -/
def kvReplay (fault : Bool) (rows : List Entry) (log : UndoLog Entry depth) :
    Option (UndoLog Entry depth) :=
  if fault = true ∨ rows = [] ∨ depth < log.undoable + rows.length then none
  else some (log.pushAll rows)

/-- A leg: decode up to the first error, each step forcing the given token or taking the best one. -/
def ProbeModel.leg (model : ProbeModel Entry Score) (fates : Nat → StepFate) :
    Nat → Int → List (Option Int) → UndoLog Entry depth →
      List (Int × Score) × UndoLog Entry depth
  | _, _, [], log => ([], log)
  | index, tok, want :: rest, log =>
      let pushed := log.push (model.row log.entries tok)
      match fates index with
      | .refused => ([], log)
      | .strayed => ([], pushed)
      | .done =>
          let s := want.getD (model.argmax log.entries tok)
          let later := model.leg fates (index + 1) s rest pushed
          ((s, model.logProb log.entries tok s) :: later.1, later.2)

structure ProbeState (Entry Score : Type) (depth : Nat) where
  log : UndoLog Entry depth
  best : Option (ProbeCandidate Entry × Score)

/-- The cache after a loop and its decision, and whether a candidate was accepted. -/
structure ProbeEnd (Entry : Type) (depth : Nat) where
  log : UndoLog Entry depth
  accepted : Bool
  recalled : Bool

namespace ProbeModel

variable (model : ProbeModel Entry Score)

/-- The differences of two score lists from `w0` on, summed in order. -/
def sumFrom (w0 : Nat) (less more : List (Int × Score)) : Score :=
  ((less.zip more).drop w0).foldl
    (fun total pair => model.add total (model.sub pair.2.2 pair.1.2)) model.zero

/-- Keep the better of the best candidate so far and this one. -/
def rank (better : Score → Score → Bool) (cand : ProbeCandidate Entry) (score : Score)
    (best : Option (ProbeCandidate Entry × Score)) : Option (ProbeCandidate Entry × Score) :=
  match best with
  | none => some (cand, score)
  | some (holder, held) => if better score held then some (cand, score) else some (holder, held)

/-- The rows to knock out: the first twelve positions whose token the payload holds. -/
def targetRows (cand : ProbeCandidate Entry) (payload : List Int) : List Nat :=
  ((((cand.eptok.take cand.npos.toNat).zipIdx).filter fun entry =>
    payload.contains entry.1).map Prod.snd).take 12

/-- One candidate of INT2 stage 2 and of disposer mode 2. -/
def ablationProbe (last : Int) (anchor : Nat) (cand : ProbeCandidate Entry) (faults : ProbeFaults)
    (state : ProbeState Entry Score depth) : ProbeState Entry Score depth :=
  let wanted : List (Option Int) :=
    if cand.secretIds = [] then List.replicate 8 none else cand.secretIds.map some
  let w0 := if cand.secretIds = [] then 2 else 0
  match kvReplay faults.replay cand.rows state.log with
  | none => state
  | some injected =>
      let first := model.leg faults.first 0 last wanted injected
      let ng := first.1.length
      let undone := first.2.shear ng
      if ng = 0 then { state with log := undone.shear cand.npos.toNat }
      else
        let targets := targetRows cand ((first.1.drop (min w0 ng)).map Prod.fst)
        let ablated :=
          if faults.ablate then undone
          else undone.overwrite (targets.map fun position => anchor + position) model.zeroRow
        let second := model.leg faults.second 0 last (first.1.map fun entry => some entry.1) ablated
        { log := second.2.shear (second.1.length + cand.npos.toNat)
          best := rank model.lt cand (model.sumFrom w0 first.1 second.1) state.best }

/-- One candidate of disposer mode 1, with the sign of `SP_B3_DCONT_SIGN`. -/
def deltaProbe (sign : Score) (last : Int) (cand : ProbeCandidate Entry) (faults : ProbeFaults)
    (state : ProbeState Entry Score depth) : ProbeState Entry Score depth :=
  match kvReplay faults.replay cand.rows state.log with
  | none => state
  | some injected =>
      let first := model.leg faults.first 0 last (List.replicate 8 none) injected
      let undone := first.2.shear (first.1.length + cand.npos.toNat)
      if first.1 = [] then { state with log := undone }
      else
        match kvReplay faults.replayZero (cand.rows.map fun _ => model.zeroRow) undone with
        | none => { state with log := undone }
        | some zeroed =>
            let second := model.leg faults.second 0 last
              (first.1.map fun entry => some entry.1) zeroed
            { log := second.2.shear (second.1.length + cand.npos.toNat)
              best := rank (fun score held => model.lt (model.mul sign held) (model.mul sign score))
                cand (model.sumFrom 2 second.1 first.1) state.best }

/-- Whether the loop probes the candidate at all. -/
def considers (kind : ProbeLoop) (cand : ProbeCandidate Entry) : Bool :=
  decide (0 < cand.npos) && !cand.gkEmpty &&
    match kind with
    | .int2 jmax =>
        decide (cand.secretIds ≠ [] ∧ cand.eptok ≠ [] ∧
          cand.npos + cand.secretIds.length ≤ jmax)
    | .disposer2 => true
    | .disposer1 => true

/-- One round of the loop. -/
def probeStep (kind : ProbeLoop) (sign : Score) (last : Int) (anchor : Nat)
    (input : ProbeCandidate Entry × ProbeFaults) (state : ProbeState Entry Score depth) :
    ProbeState Entry Score depth :=
  if considers kind input.1 = true then
    match kind with
    | .int2 _ => model.ablationProbe last anchor input.1 input.2 state
    | .disposer2 => model.ablationProbe last anchor input.1 input.2 state
    | .disposer1 => model.deltaProbe sign last input.1 input.2 state
  else state

/-- The threshold that the best candidate has to pass. -/
def fires (kind : ProbeLoop) (tau score : Score) : Bool :=
  match kind with
  | .int2 _ => model.lt score tau
  | .disposer2 => model.lt score tau
  | .disposer1 => model.lt tau score

/-- The loop from the position it finds, and the replay of an accepted candidate. -/
def probeAll (kind : ProbeLoop) (sign tau : Score) (last : Int) (acceptFault : Bool)
    (inputs : List (ProbeCandidate Entry × ProbeFaults)) (log : UndoLog Entry depth) :
    ProbeEnd Entry depth :=
  let ended := serveAll (model.probeStep kind sign last log.entries.length) inputs
    { log, best := none }
  match ended.best with
  | none => { log := ended.log, accepted := false, recalled := false }
  | some (cand, score) =>
      if model.fires kind tau score then
        match kvReplay acceptFault cand.rows ended.log with
        | none => { log := ended.log, accepted := true, recalled := false }
        | some replayed => { log := replayed, accepted := true, recalled := true }
      else { log := ended.log, accepted := false, recalled := false }

end ProbeModel

/-! ## The session behind the log -/

section Session

open KairosEngine.Cuda

universe u

variable {Row : Type u} {geometry : RingGeometry} {session next : KvSession Row}
  {log : UndoLog Entry geometry.Jmax}

/-- A log stands where a ring session stands, and can be taken back as far as its journal reaches. -/
def CountsAs (session : KvSession Row) (log : UndoLog Entry geometry.Jmax) : Prop :=
  session.dposHost = log.entries.length ∧ session.dposHost = session.commitPos + log.undoable

/-- A step of the session is an append; the slide of the journal drops the oldest. -/
theorem CountsAs.step (counts : CountsAs session log) {minted : Minted Row}
    (stepped : stepAndAdvance geometry.toGeometry minted session = some next) (row : Entry) :
    CountsAs next (log.push row) := by
  obtain ⟨position, baseline⟩ := stepAndAdvance_counters stepped
  have journal := geometry.journal_pos
  have shallow := log.shallow
  obtain ⟨length, room⟩ := counts
  rw [slideJournal_commit] at baseline
  refine ⟨?_, ?_⟩
  · rw [position, length, UndoLog.push, UndoLog.pushAll_entries, List.length_append,
      List.length_singleton]
  · rw [position, baseline, UndoLog.push, UndoLog.pushAll_undoable, List.length_singleton]
    split <;> omega

/-- A rewind of the session succeeds where the log can be taken back, and takes it back. -/
theorem CountsAs.rewind (counts : CountsAs session log) (count : Nat) :
    match gemma4KvRewind geometry.toGeometry count session with
    | some next => ∃ shorter, log.rewind count = some shorter ∧ CountsAs next shorter
    | none => log.rewind count = none := by
  have ring := geometry.ring_pos
  obtain ⟨length, room⟩ := counts
  have bounded := log.undoable_le
  rcases Nat.lt_or_ge log.undoable count with deep | fits
  · have crossed : (session.dposHost : Int) - session.commitPos < count := by omega
    have refused : gemma4KvRewind geometry.toGeometry count session = none := by
      rw [gemma4KvRewind, if_pos ring, if_pos crossed, ite_self]
    rw [refused]
    exact dif_neg (Nat.not_le.mpr deep)
  · have inside : ¬ ((count : Int) < 0 ∨ (session.dposHost : Int) < count) := by omega
    have covered : ¬ (session.dposHost : Int) - session.commitPos < count := by omega
    rw [gemma4KvRewind, if_neg inside, if_pos ring, if_neg covered]
    refine ⟨_, dif_pos fits, ?_, ?_⟩
    · rw [List.length_take, Int.toNat_natCast]
      dsimp only
      omega
    · rw [Int.toNat_natCast]
      dsimp only
      omega

end Session

/-! ## What a leg leaves in the log -/

/-- The steps that succeed before the first that does not. -/
def okSteps (fates : Nat → StepFate) : Nat → Nat → Nat
  | _, 0 => 0
  | index, count + 1 =>
      match fates index with
      | .done => okSteps fates (index + 1) count + 1
      | .refused => 0
      | .strayed => 0

/-- The entries that a failing step leaves behind. -/
def strayCount (fates : Nat → StepFate) : Nat → Nat → Nat
  | _, 0 => 0
  | index, count + 1 =>
      match fates index with
      | .done => strayCount fates (index + 1) count
      | .refused => 0
      | .strayed => 1

theorem okSteps_le (fates : Nat → StepFate) (index count : Nat) :
    okSteps fates index count ≤ count := by
  induction count generalizing index with
  | zero => exact Nat.le_refl 0
  | succ count inductionHypothesis =>
      rw [okSteps]
      cases fates index with
      | done => exact Nat.succ_le_succ (inductionHypothesis (index + 1))
      | refused => exact Nat.zero_le _
      | strayed => exact Nat.zero_le _

namespace ProbeModel

variable (model : ProbeModel Entry Score)

/-- A leg counts the steps that succeeded; a stray one is in the log all the same. -/
theorem leg_spec (fates : Nat → StepFate) (index : Nat) (tok : Int) (wanted : List (Option Int))
    (log : UndoLog Entry depth) :
    (model.leg fates index tok wanted log).1.length = okSteps fates index wanted.length ∧
      ∃ rows, (model.leg fates index tok wanted log).2 = log.pushAll rows ∧
        rows.length = okSteps fates index wanted.length + strayCount fates index wanted.length := by
  induction wanted generalizing index tok log with
  | nil => exact ⟨rfl, [], (UndoLog.pushAll_nil log).symm, rfl⟩
  | cons want rest inductionHypothesis =>
      rw [leg, List.length_cons, okSteps, strayCount]
      cases fates index with
      | refused => exact ⟨rfl, [], (UndoLog.pushAll_nil log).symm, rfl⟩
      | strayed => exact ⟨rfl, [model.row log.entries tok], rfl, rfl⟩
      | done =>
          obtain ⟨counted, rows, pushed, length⟩ := inductionHypothesis (index + 1)
            (want.getD (model.argmax log.entries tok)) (log.push (model.row log.entries tok))
          refine ⟨congrArg (· + 1) counted, model.row log.entries tok :: rows, ?_, ?_⟩
          · exact pushed.trans (UndoLog.pushAll_pushAll [_] rows log)
          · rw [List.length_cons, length]
            exact Nat.add_right_comm _ _ 1

/-! ## One probe -/

/-- The tokens that the first leg wants. -/
def payloadLength (kind : ProbeLoop) (cand : ProbeCandidate Entry) : Nat :=
  match kind with
  | .int2 _ => if cand.secretIds = [] then 8 else cand.secretIds.length
  | .disposer2 => if cand.secretIds = [] then 8 else cand.secretIds.length
  | .disposer1 => 8

/-- The log after a probe with ablation: the episode and the first leg, less the counted steps; then
either the episode is taken back too, or rows are knocked out and the second leg follows. -/
theorem ablationProbe_cases (last : Int) (anchor : Nat) (cand : ProbeCandidate Entry)
    (faults : ProbeFaults) (state : ProbeState Entry Score depth) {payload ng : Nat}
    (wants : payload = payloadLength .disposer2 cand)
    (counted : ng = okSteps faults.first 0 payload) :
    kvReplay faults.replay cand.rows state.log = none ∧
        model.ablationProbe last anchor cand faults state = state ∨
      ∃ injected rows, kvReplay faults.replay cand.rows state.log = some injected ∧
        rows.length = ng + strayCount faults.first 0 payload ∧
        (ng = 0 ∧ (model.ablationProbe last anchor cand faults state).log =
            ((injected.pushAll rows).shear ng).shear cand.npos.toNat ∨
          ng ≠ 0 ∧ ∃ positions more, (∀ position ∈ positions, anchor ≤ position) ∧
            more.length = okSteps faults.second 0 ng + strayCount faults.second 0 ng ∧
            (model.ablationProbe last anchor cand faults state).log =
              ((((injected.pushAll rows).shear ng).overwrite positions model.zeroRow).pushAll
                more).shear (okSteps faults.second 0 ng + cand.npos.toNat)) := by
  rw [ablationProbe]
  cases replayed : kvReplay faults.replay cand.rows state.log with
  | none => exact .inl ⟨rfl, rfl⟩
  | some injected =>
      let wanted : List (Option Int) :=
        if cand.secretIds = [] then List.replicate 8 none else cand.secretIds.map some
      have length : wanted.length = payload := by
        rw [wants, payloadLength]
        simp only [wanted]
        split
        · rfl
        · exact List.length_map some
      obtain ⟨gen, rows, pushed, more⟩ := model.leg_spec faults.first 0 last wanted injected
      rw [length] at gen more
      refine .inr ⟨injected, rows, rfl, counted ▸ more, ?_⟩
      dsimp only
      generalize model.leg faults.first 0 last wanted injected = first at gen pushed
      rw [← counted] at gen
      rw [gen, pushed]
      split
      next idle => exact .inl ⟨idle, rfl⟩
      next busy =>
        let positions := (targetRows cand ((first.1.drop (min (if cand.secretIds = [] then 2 else 0)
          ng)).map Prod.fst)).map fun position => anchor + position
        let knocked := if faults.ablate then [] else positions
        have ablated : (if faults.ablate = true then (injected.pushAll rows).shear ng
            else ((injected.pushAll rows).shear ng).overwrite positions model.zeroRow) =
            ((injected.pushAll rows).shear ng).overwrite knocked model.zeroRow := by
          simp only [knocked]
          split
          · rfl
          · rfl
        obtain ⟨again, behind, pushed, more⟩ := model.leg_spec faults.second 0 last
          (first.1.map fun entry => some entry.1)
          (((injected.pushAll rows).shear ng).overwrite knocked model.zeroRow)
        rw [List.length_map, gen] at again more
        refine .inr ⟨busy, knocked, behind, ?_, more, ?_⟩
        · intro position member
          simp only [knocked] at member
          split at member
          · cases member
          · obtain ⟨offset, -, rfl⟩ := List.mem_map.mp member
            exact Nat.le_add_right anchor offset
        · rw [ablated, again, pushed]

/-- The log after a probe against a zeroed episode: both legs begin and end with the episode. -/
theorem deltaProbe_cases (sign : Score) (last : Int) (cand : ProbeCandidate Entry)
    (faults : ProbeFaults) (state : ProbeState Entry Score depth) {ng : Nat}
    (counted : ng = okSteps faults.first 0 8) :
    kvReplay faults.replay cand.rows state.log = none ∧
        model.deltaProbe sign last cand faults state = state ∨
      ∃ injected rows, kvReplay faults.replay cand.rows state.log = some injected ∧
        rows.length = ng + strayCount faults.first 0 8 ∧
        ((ng = 0 ∨ kvReplay faults.replayZero (cand.rows.map fun _ => model.zeroRow)
              ((injected.pushAll rows).shear (ng + cand.npos.toNat)) = none) ∧
            (model.deltaProbe sign last cand faults state).log =
              (injected.pushAll rows).shear (ng + cand.npos.toNat) ∨
          ng ≠ 0 ∧ ∃ zeroed more, kvReplay faults.replayZero (cand.rows.map fun _ => model.zeroRow)
                ((injected.pushAll rows).shear (ng + cand.npos.toNat)) = some zeroed ∧
            more.length = okSteps faults.second 0 ng + strayCount faults.second 0 ng ∧
            (model.deltaProbe sign last cand faults state).log =
              (zeroed.pushAll more).shear (okSteps faults.second 0 ng + cand.npos.toNat)) := by
  rw [deltaProbe]
  cases replayed : kvReplay faults.replay cand.rows state.log with
  | none => exact .inl ⟨rfl, rfl⟩
  | some injected =>
      obtain ⟨gen, rows, pushed, more⟩ := model.leg_spec faults.first 0 last
        (List.replicate 8 none) injected
      rw [List.length_replicate] at gen more
      refine .inr ⟨injected, rows, rfl, counted ▸ more, ?_⟩
      dsimp only
      generalize model.leg faults.first 0 last (List.replicate 8 none) injected = first
        at gen pushed
      rw [← counted] at gen
      rw [gen, pushed]
      split
      next idle => exact .inl ⟨.inl (gen ▸ List.length_eq_zero_iff.mpr idle), rfl⟩
      next busy =>
        cases again : kvReplay faults.replayZero (cand.rows.map fun _ => model.zeroRow)
            ((injected.pushAll rows).shear (ng + cand.npos.toNat)) with
        | none => exact .inl ⟨.inr rfl, rfl⟩
        | some zeroed =>
            obtain ⟨scored, behind, pushed, more⟩ := model.leg_spec faults.second 0 last
              (first.1.map fun entry => some entry.1) zeroed
            rw [List.length_map, gen] at scored more
            have some_steps : ng ≠ 0 := fun none => busy (List.length_eq_zero_iff.mp (gen.trans none))
            refine .inr ⟨some_steps, zeroed, behind, rfl, more, ?_⟩
            dsimp only
            rw [scored, pushed]

/-! ## Net zero -/

/-- One candidate leaves nothing behind: no step of its legs fails after the position moved, and the
journal covers the episode together with the steps of the first leg. -/
def NetZero (kind : ProbeLoop) (input : ProbeCandidate Entry × ProbeFaults)
    (state : ProbeState Entry Score depth) : Prop :=
  let payload := payloadLength kind input.1
  let ng := okSteps input.2.first 0 payload
  considers kind input.1 = true → input.2.replay = false →
    state.log.undoable + input.1.npos.toNat ≤ depth →
      strayCount input.2.first 0 payload = 0 ∧ input.1.npos.toNat + ng ≤ depth ∧
        (ng ≠ 0 → (kind = .disposer1 → input.2.replayZero = false) →
          strayCount input.2.second 0 ng = 0)

instance NetZero.decidable (kind : ProbeLoop) (input : ProbeCandidate Entry × ProbeFaults)
    (state : ProbeState Entry Score depth) : Decidable (NetZero kind input state) :=
  inferInstanceAs (Decidable (_ → _ → _ → _ ∧ _ ∧ (_ → (_ → _) → _)))

theorem kvReplay_eq_some {fault : Bool} {rows : List Entry} {log injected : UndoLog Entry depth}
    (replayed : kvReplay fault rows log = some injected) :
    fault = false ∧ rows ≠ [] ∧ log.undoable + rows.length ≤ depth ∧
      injected = log.pushAll rows := by
  unfold kvReplay at replayed
  split at replayed
  · cases replayed
  · next accepted =>
      rw [not_or, not_or] at accepted
      exact ⟨eq_false_of_ne_true accepted.1, accepted.2.1, Nat.not_lt.mp accepted.2.2,
        (Option.some.inj replayed).symm⟩

theorem kvReplay_eq_none_iff {fault : Bool} {rows : List Entry} {log : UndoLog Entry depth} :
    kvReplay fault rows log = none ↔
      fault = true ∨ rows = [] ∨ depth < log.undoable + rows.length := by
  unfold kvReplay
  split
  next refused => exact iff_of_true rfl refused
  next accepted => exact iff_of_false nofun accepted

theorem kvReplay_ne_none {fault : Bool} {rows : List Entry} {log : UndoLog Entry depth} {count : Nat}
    (long : rows.length = count) (positive : 0 < count) (fine : fault = false)
    (room : log.undoable + count ≤ depth) : kvReplay fault rows log ≠ none := by
  intro refused
  rcases kvReplay_eq_none_iff.mp refused with fault | empty | full
  · cases fine.symm.trans fault
  · rw [empty] at long
    exact absurd long (Nat.ne_of_lt positive)
  · rw [long] at full
    exact Nat.not_lt.mpr room full

/-- The log behind the replay of an episode and the rows of a leg. -/
theorem probed_counts (cand : ProbeCandidate Entry) (rows : List Entry) (log : UndoLog Entry depth) :
    ((log.pushAll cand.rows).pushAll rows).entries.length =
        log.entries.length + (cand.npos.toNat + rows.length) ∧
      ((log.pushAll cand.rows).pushAll rows).undoable =
        min depth (log.undoable + (cand.npos.toNat + rows.length)) := by
  rw [UndoLog.pushAll_pushAll, UndoLog.pushAll_entries, UndoLog.pushAll_undoable,
    List.length_append, List.length_append, cand.rows_length]
  exact ⟨rfl, rfl⟩

/-- What one probe does to the length of the log, and that it leaves what stood below the anchor. -/
structure Settles (base : List Entry) (before after : UndoLog Entry depth) (clean : Prop) : Prop where
  longer : before.entries.length ≤ after.entries.length
  below : base <+: after.entries
  still_iff : after.entries.length = before.entries.length ↔ clean

theorem Settles.refused {base : List Entry} {log : UndoLog Entry depth}
    (below : base <+: log.entries) {clean : Prop} (idle : clean) : Settles base log log clean where
  longer := Nat.le_refl _
  below := below
  still_iff := iff_of_true rfl idle

theorem ablationProbe_settles (last : Int) (base : List Entry) (cand : ProbeCandidate Entry)
    (faults : ProbeFaults) (state : ProbeState Entry Score depth)
    (below : base <+: state.log.entries) (positive : 0 < cand.npos) {payload ng : Nat}
    (wants : payload = payloadLength .disposer2 cand)
    (counted : ng = okSteps faults.first 0 payload) :
    Settles base state.log (model.ablationProbe last base.length cand faults state).log
      (faults.replay = false → state.log.undoable + cand.npos.toNat ≤ depth →
        strayCount faults.first 0 payload = 0 ∧ cand.npos.toNat + ng ≤ depth ∧
          (ng ≠ 0 → strayCount faults.second 0 ng = 0)) := by
  have npos := cand.rows_length
  have some_rows : 0 < cand.npos.toNat := Int.lt_toNat.mpr positive
  have few := okSteps_le faults.second 0 ng
  have anchored := below.length_le
  rcases model.ablationProbe_cases last base.length cand faults state wants counted with
    ⟨refused, same⟩ | ⟨injected, rows, replayed, length, ended⟩
  · rw [same]
    apply Settles.refused below
    exact fun fine room => absurd refused (kvReplay_ne_none npos some_rows fine room)
  · obtain ⟨fine, -, room, rfl⟩ := kvReplay_eq_some replayed
    obtain ⟨size, undoable⟩ := probed_counts cand rows state.log
    have standing := UndoLog.prefix_pushAll (UndoLog.prefix_pushAll below cand.rows) rows
    generalize (state.log.pushAll cand.rows).pushAll rows = probed at ended size undoable standing
    have first := probed.length_le_shear ng
    have undone : base <+: (probed.shear ng).entries := UndoLog.prefix_shear standing (by omega)
    rcases ended with ⟨rfl, log⟩ | ⟨busy, positions, more, above, again, log⟩
    · have whole : probed.shear 0 = probed := UndoLog.shear_zero probed
      have second := probed.length_le_shear cand.npos.toNat
      rw [whole] at undone log
      rw [log]
      refine ⟨by omega, UndoLog.prefix_shear undone (by omega), ?_⟩
      constructor
      · intro still _ _
        have fits := UndoLog.shear_full_iff.mp
          (show _ + cand.npos.toNat = probed.entries.length by omega)
        exact ⟨by omega, by omega, absurd rfl⟩
      · intro clean
        obtain ⟨unstrayed, covered, -⟩ := clean fine (npos ▸ room)
        have full := UndoLog.shear_full_iff.mpr (show cand.npos.toNat ≤ probed.undoable by omega)
        omega
    · generalize took : okSteps faults.second 0 ng + cand.npos.toNat = taken at log
      generalize scored : ((probed.shear ng).overwrite positions model.zeroRow).pushAll more = behind
        at log
      have size_again : behind.entries.length = (probed.shear ng).entries.length + more.length := by
        rw [← scored, UndoLog.pushAll_entries, List.length_append, UndoLog.overwrite_length]
      have undoable_again : behind.undoable = min depth ((probed.shear ng).undoable + more.length) := by
        rw [← scored, UndoLog.pushAll_undoable, UndoLog.overwrite_undoable]
      have standing_again : base <+: behind.entries :=
        scored ▸ UndoLog.prefix_pushAll (UndoLog.prefix_overwrite undone above model.zeroRow) more
      have second := behind.length_le_shear taken
      rw [log]
      refine ⟨by omega, UndoLog.prefix_shear standing_again (by omega), ?_⟩
      constructor
      · intro still _ _
        have covered := UndoLog.shear_full_iff.mp (show _ + ng = probed.entries.length by omega)
        have covered_again := UndoLog.shear_full_iff.mp
          (show _ + taken = behind.entries.length by omega)
        have left := (UndoLog.shear_of_le covered).2
        exact ⟨by omega, by omega, fun _ => by omega⟩
      · intro clean
        obtain ⟨unstrayed, covered, second_unstrayed⟩ := clean fine (npos ▸ room)
        have unstrayed_again := second_unstrayed busy
        have fits : ng ≤ probed.undoable := by omega
        have left := (UndoLog.shear_of_le fits).2
        have full := UndoLog.shear_full_iff.mpr fits
        have full_again := UndoLog.shear_full_iff.mpr (show taken ≤ behind.undoable by omega)
        omega

theorem deltaProbe_settles (sign : Score) (last : Int) (base : List Entry)
    (cand : ProbeCandidate Entry) (faults : ProbeFaults) (state : ProbeState Entry Score depth)
    (below : base <+: state.log.entries) (positive : 0 < cand.npos) {ng : Nat}
    (counted : ng = okSteps faults.first 0 8) :
    Settles base state.log (model.deltaProbe sign last cand faults state).log
      (faults.replay = false → state.log.undoable + cand.npos.toNat ≤ depth →
        strayCount faults.first 0 8 = 0 ∧ cand.npos.toNat + ng ≤ depth ∧
          (ng ≠ 0 → faults.replayZero = false → strayCount faults.second 0 ng = 0)) := by
  have npos := cand.rows_length
  have some_rows : 0 < cand.npos.toNat := Int.lt_toNat.mpr positive
  have few := okSteps_le faults.second 0 ng
  have anchored := below.length_le
  rcases model.deltaProbe_cases sign last cand faults state counted with
    ⟨refused, same⟩ | ⟨injected, rows, replayed, length, ended⟩
  · rw [same]
    apply Settles.refused below
    exact fun fine room => absurd refused (kvReplay_ne_none npos some_rows fine room)
  · obtain ⟨fine, -, room, rfl⟩ := kvReplay_eq_some replayed
    obtain ⟨size, undoable⟩ := probed_counts cand rows state.log
    have standing := UndoLog.prefix_pushAll (UndoLog.prefix_pushAll below cand.rows) rows
    generalize (state.log.pushAll cand.rows).pushAll rows = probed at ended size undoable standing
    have first := probed.length_le_shear (ng + cand.npos.toNat)
    have undone : base <+: (probed.shear (ng + cand.npos.toNat)).entries :=
      UndoLog.prefix_shear standing (by omega)
    rcases ended with ⟨skipped, log⟩ | ⟨busy, zeroed, more, again, length_again, log⟩
    · rw [log]
      refine ⟨by omega, undone, ?_⟩
      constructor
      · intro still _ _
        have covered := UndoLog.shear_full_iff.mp
          (show _ + (ng + cand.npos.toNat) = probed.entries.length by omega)
        have left := (UndoLog.shear_of_le covered).2
        refine ⟨by omega, by omega, fun busy allowed => ?_⟩
        have zeros := (List.length_map fun _ => model.zeroRow).trans npos
        apply absurd (skipped.resolve_left busy) (kvReplay_ne_none zeros some_rows allowed _)
        omega
      · intro clean
        obtain ⟨unstrayed, covered, -⟩ := clean fine (npos ▸ room)
        have full := UndoLog.shear_full_iff.mpr
          (show ng + cand.npos.toNat ≤ probed.undoable by omega)
        omega
    · obtain ⟨allowed, -, free, rfl⟩ := kvReplay_eq_some again
      generalize took : okSteps faults.second 0 ng + cand.npos.toNat = taken at log
      generalize scored : ((probed.shear (ng + cand.npos.toNat)).pushAll
        (cand.rows.map fun _ => model.zeroRow)).pushAll more = behind at log
      have zeros : (cand.rows.map fun _ => model.zeroRow).length = cand.npos.toNat :=
        (List.length_map _).trans npos
      rw [UndoLog.pushAll_pushAll] at scored
      have size_again : behind.entries.length =
          (probed.shear (ng + cand.npos.toNat)).entries.length +
            (cand.npos.toNat + more.length) := by
        rw [← scored, UndoLog.pushAll_entries, List.length_append, List.length_append, zeros]
      have undoable_again : behind.undoable =
          min depth ((probed.shear (ng + cand.npos.toNat)).undoable +
            (cand.npos.toNat + more.length)) := by
        rw [← scored, UndoLog.pushAll_undoable, List.length_append, zeros]
      have standing_again : base <+: behind.entries := scored ▸ UndoLog.prefix_pushAll undone _
      have second := behind.length_le_shear taken
      rw [zeros] at free
      rw [log]
      refine ⟨by omega, UndoLog.prefix_shear standing_again (by omega), ?_⟩
      constructor
      · intro still _ _
        have covered := UndoLog.shear_full_iff.mp
          (show _ + (ng + cand.npos.toNat) = probed.entries.length by omega)
        exact ⟨by omega, by omega, fun _ _ => by omega⟩
      · intro clean
        obtain ⟨unstrayed, covered, second_unstrayed⟩ := clean fine (npos ▸ room)
        have unstrayed_again := second_unstrayed busy allowed
        have full := UndoLog.shear_full_iff.mpr
          (show ng + cand.npos.toNat ≤ probed.undoable by omega)
        have full_again := UndoLog.shear_full_iff.mpr (show taken ≤ behind.undoable by omega)
        omega

theorem probeStep_settles (kind : ProbeLoop) (sign : Score) (last : Int) (base : List Entry)
    (input : ProbeCandidate Entry × ProbeFaults) (state : ProbeState Entry Score depth)
    (below : base <+: state.log.entries) :
    Settles base state.log (model.probeStep kind sign last base.length input state).log
      (NetZero kind input state) := by
  obtain ⟨cand, faults⟩ := input
  unfold probeStep
  by_cases considered : considers kind cand = true
  · have positive : 0 < cand.npos := by
      simp only [considers, Bool.and_eq_true, decide_eq_true_eq] at considered
      exact considered.1.1
    rw [if_pos considered]
    cases kind with
    | int2 jmax =>
        have settled := model.ablationProbe_settles last base cand faults state below positive rfl rfl
        refine ⟨settled.longer, settled.below, settled.still_iff.trans ?_⟩
        simp only [NetZero, considered, true_imp_iff, payloadLength, reduceCtorEq, false_imp_iff]
    | disposer2 =>
        have settled := model.ablationProbe_settles last base cand faults state below positive rfl rfl
        refine ⟨settled.longer, settled.below, settled.still_iff.trans ?_⟩
        simp only [NetZero, considered, true_imp_iff, payloadLength, reduceCtorEq, false_imp_iff]
    | disposer1 =>
        have settled := model.deltaProbe_settles sign last base cand faults state below positive rfl
        refine ⟨settled.longer, settled.below, settled.still_iff.trans ?_⟩
        simp only [NetZero, considered, true_imp_iff, payloadLength]
  · rw [if_neg considered]
    exact Settles.refused below fun looked => absurd looked considered

theorem probeAll_rejected {kind : ProbeLoop} {sign tau : Score} {last : Int} {acceptFault : Bool}
    {inputs : List (ProbeCandidate Entry × ProbeFaults)} {log : UndoLog Entry depth}
    (rejected : (model.probeAll kind sign tau last acceptFault inputs log).accepted = false) :
    (model.probeAll kind sign tau last acceptFault inputs log).log =
      (serveAll (model.probeStep kind sign last log.entries.length) inputs
        { log, best := none }).log := by
  unfold probeAll at rejected ⊢
  dsimp only at rejected ⊢
  split
  · rfl
  next cand score best =>
    rw [best] at rejected
    split
    next fired =>
      dsimp only at rejected
      rw [if_pos fired] at rejected
      split at rejected
      · cases rejected
      · cases rejected
    next => rfl

end ProbeModel

/-- The probes are net zero exactly in the loops whose candidates all are: if the loop ends without
accepting one, the position and every entry below it are those before it. -/
theorem probeAll_netZero_iff (model : ProbeModel Entry Score) (kind : ProbeLoop) (sign tau : Score)
    (last : Int) (acceptFault : Bool) (inputs : List (ProbeCandidate Entry × ProbeFaults))
    (log : UndoLog Entry depth)
    (rejected : (model.probeAll kind sign tau last acceptFault inputs log).accepted = false) :
    (model.probeAll kind sign tau last acceptFault inputs log).log.entries = log.entries ↔
      GuardedRun (model.probeStep kind sign last log.entries.length) (ProbeModel.NetZero kind)
        inputs { log, best := none } := by
  have along := @GuardedRun.iff_still _ _ (model.probeStep kind sign last log.entries.length)
    (ProbeModel.NetZero kind) (fun state => log.entries <+: state.log.entries)
    (fun state => state.log.entries.length)
    (fun input state below => (model.probeStep_settles kind sign last _ input state below).below)
    (fun input state below => (model.probeStep_settles kind sign last _ input state below).longer)
    (fun input state below => (model.probeStep_settles kind sign last _ input state below).still_iff)
    inputs { log, best := none } (List.prefix_refl log.entries)
  have below := @serveAll_preserves _ _ (model.probeStep kind sign last log.entries.length)
    (fun state => log.entries <+: state.log.entries)
    (fun input state below => (model.probeStep_settles kind sign last _ input state below).below)
    inputs { log, best := none } (List.prefix_refl log.entries)
  rw [model.probeAll_rejected rejected, along]
  constructor
  · exact congrArg List.length
  · exact fun same => (below.eq_of_length same.symm).symm

/-- Whether a candidate was accepted, and the position after the loop. -/
def ProbeEnd.outcome (ended : ProbeEnd Entry depth) : Bool × Nat :=
  (ended.accepted, ended.log.entries.length)

/-- A forward whose rows are their positions and whose scores are all alike. -/
def levelModel : ProbeModel Nat Int where
  row entries _ := entries.length
  zeroRow := 0
  argmax _ tok := tok + 1
  logProb _ _ _ := -1
  zero := 0
  add := (· + ·)
  sub := (· - ·)
  mul := (· * ·)
  lt score held := decide (score < held)

/-- An episode of four positions whose second token is the secret. -/
def secretEpisode (secretIds : List Int) : ProbeCandidate Nat where
  npos := 4
  gkEmpty := false
  eptok := [5, 6, 7, 8]
  secretIds
  rows := [50, 60, 70, 80]
  rows_length := rfl

def soundFaults : ProbeFaults where
  replay := false
  first := fun _ => .done
  ablate := false
  replayZero := false
  second := fun _ => .done

/-- A cache of three entries, all of them committed. -/
def committedLog (depth : Nat) : UndoLog Nat depth where
  entries := [1, 2, 3]
  undoable := 0
  undoable_le := Nat.zero_le _
  shallow := Nat.zero_le _

theorem probeAll_netZero_iff_refused :
    (levelModel.probeAll (.int2 8) 1 (-8) 9 false
        [(secretEpisode [6], soundFaults),
          (secretEpisode [6, 7], { soundFaults with second := fun _ => .refused })]
        (committedLog 8)).log.entries = [1, 2, 3] :=
  (probeAll_netZero_iff levelModel (.int2 8) 1 (-8) 9 false _ (committedLog 8) (by decide)).mpr
    (by decide)

/-- A step that fails behind the position leaves an entry; an episode that the journal does not
cover together with the payload stays, payload and all. -/
theorem probeAll_leaves :
    (levelModel.probeAll (.int2 8) 1 (-8) 9 false
        [(secretEpisode [6, 7], { soundFaults with second := fun _ => .strayed })]
        (committedLog 8)).outcome = (false, 4) ∧
    (levelModel.probeAll .disposer2 1 (-8) 9 false [(secretEpisode [], soundFaults)]
        (committedLog 8)).outcome = (false, 15) ∧
    (levelModel.probeAll .disposer1 1 8 9 false [(secretEpisode [], soundFaults)]
        (committedLog 8)).outcome = (false, 15) := by
  decide

end KairosEngine.Daemon
