import KairosEngine.Library.Loop
import KairosEngine.Daemon.PrefillReuse

/-!
# Requests on the resident handle

A chat turn from the cache mutex to its end, with every early return, and the two debug
routes.  What the engine and the client answer is part of the request; the recall stage
is any function of the warm cache.
-/

namespace KairosEngine.Daemon

open KairosEngine.Library Residency

/-! ## Chat turns -/

/-- The process flags that take a turn off the committed sequence. -/
structure TurnFlags where
  /-- `SP_PERSIST_KV` is not "0". -/
  persistKv : Bool
  decide : Bool
  forget : Bool
  nightshift : Bool
  persistB4 : Bool
  judge : Bool
  disposer : Bool
  int2 : Bool

/-- `inject_frames` with its markers and how each call goes. -/
structure FrameRequest where
  frames : List Nat
  ragged : Bool
  openTok : Option (Int × Verdict)
  inject : Verdict
  closeTok : Option (Int × Verdict)

/-- What the recall stage leaves for the synthesis. -/
structure RecallEnd where
  entries : List Entry
  synLast : Int
  recalled : Bool
  declined : Bool

/-- What becomes of one sampled token before it is fed back. -/
inductive StepEmit where
  | streamed
  /-- A stop string, or the judge's halt. -/
  | stopped
  | clientGone
  deriving DecidableEq

/-- A chat request with the answers of the engine, the sampler and the client. -/
structure ChatTurn where
  flags : TurnFlags
  /-- The flags and answers of the reuse and prefill sections. -/
  input : PrefillInput
  tokens : List Int
  /-- The turn is delegated, or the handle is missing. -/
  delegated : Bool
  byteexact : Option Verdict
  injectFrames : Option FrameRequest
  /-- From the FORGET verb to the selectors, on the warm cache and the prompt's last token. -/
  recallStage : Int → List Entry → RecallEnd
  /-- `replay_dir` with the frames of the episode, none for a blank request. -/
  replay : Option (List Nat × Verdict)
  logitsFit : Bool
  synStep : Verdict
  /-- The continuous thoughts of `SP_COCONUT`. -/
  thoughts : List Verdict
  maxTokens : Nat
  sampled : Nat → Int
  stopIds : List Int
  emit : Nat → StepEmit
  step : Nat → Verdict
  /-- The DECIDE pass finds candidates and runs its side prompts. -/
  decidePass : Bool

/-- A verb that appends entries; a failure stops the turn. -/
def extend (verdict : Verdict) (added entries : List Entry) :
    Except (List Entry) (List Entry) :=
  match verdict with
  | .ok => .ok (entries ++ added)
  | failure => .error (failure.remains entries)

/-- What the decode loop leaves: the cache, `committed_gen` and `cache_dirty`. -/
structure Decoded where
  entries : List Entry
  gen : List Int
  dirty : Bool

/-- The end of a turn that reaches its commit. -/
structure TurnEnd where
  decoded : Decoded
  recalled : Bool

namespace ChatTurn

variable (turn : ChatTurn)

def persistArmed : Bool :=
  turn.flags.persistKv && turn.replay.isNone && turn.injectFrames.isNone && !turn.flags.decide &&
    !turn.flags.forget && (!turn.flags.nightshift || turn.flags.persistB4) && !turn.flags.judge &&
    !turn.flags.disposer && !turn.flags.int2

def prefillInput : PrefillInput :=
  { turn.input with env := { turn.input.env with persistArmed := turn.persistArmed } }

def persistKv : Bool := turn.prefillInput.env.persistKv

def injectStage (entries : List Entry) : Except (List Entry) (List Entry) :=
  match turn.injectFrames with
  | none => .ok entries
  | some request =>
      if request.frames = [] then .ok entries
      else if request.ragged then .error entries
      else do
        let marked := fun (marker : Option (Int × Verdict)) entries =>
          match marker with
          | some (tok, verdict) => extend verdict (minted [tok]) entries
          | none => .ok entries
        let opened ← marked request.openTok entries
        let framed ← extend request.inject (request.frames.map Entry.frame) opened
        marked request.closeTok framed

def replayStage (entries : List Entry) : Except (List Entry) (List Entry) :=
  match turn.replay with
  | none => .ok entries
  | some (frames, verdict) =>
      if frames = [] then .ok entries else extend verdict (frames.map Entry.frame) entries

/-- A failing thought ends the thoughts, not the turn. -/
def think (entries : List Entry) : List Verdict → List Entry
  | [] => entries
  | verdict :: rest =>
      match extend verdict [.frame 0] entries with
      | .ok next => think next rest
      | .error left => left

/-- The decode loop; the error is the cache at a disconnect, the only return in it. -/
def decodeLoop : Nat → Nat → Decoded → Except (List Entry) Decoded
  | 0, _, so => .ok so
  | budget + 1, index, so =>
      let next := turn.sampled index
      if turn.stopIds.contains next then
        .ok so
      else
        match turn.emit index with
        | .clientGone => .error so.entries
        | .stopped => .ok so
        | .streamed =>
            match extend (turn.step index) (minted [next]) so.entries with
            | .ok entries => decodeLoop budget (index + 1) { so with entries, gen := so.gen ++ [next] }
            | .error entries => .ok { entries, gen := so.gen ++ [next], dirty := true }

/-- From the warm prompt to the commit; an error is a return before it. -/
def finish (last : Int) (warm : List Entry) : Except (List Entry) TurnEnd := do
  let framed ← turn.injectStage warm
  let ended := turn.recallStage last framed
  let replayed ← turn.replayStage ended.entries
  if !turn.logitsFit then .error replayed
  else if ended.declined then .error []
  else do
    let fed ← extend turn.synStep (minted [ended.synLast]) replayed
    let decoded ← turn.decodeLoop turn.maxTokens 0
      { entries := think fed turn.thoughts, gen := [], dirty := false }
    let entries := if turn.flags.decide && turn.decidePass then [] else decoded.entries
    return { decoded := { decoded with entries }, recalled := ended.recalled }

/-- `CommitVoid`: the list does not outlive a turn that returns early. -/
def void (res : Residency) : Residency := { res with committed := [] }

/-- The commit, and the guard forgotten behind it. -/
def commit (tokens : List Int) (ended : TurnEnd) (res : Residency) : Residency :=
  if turn.persistKv then
    { res with
      committed :=
        if !ended.recalled && !ended.decoded.dirty then tokens ++ ended.decoded.gen else []
      committedTag := res.modelTag.getD "" }
  else
    res

def run (res : Residency) : Residency :=
  if turn.delegated = true ∨ turn.tokens = [] then
    res
  else if turn.byteexact.any (fun verdict => decide (verdict ≠ .ok)) then
    void res
  else
    match turn.prefillInput.prefillPrompt turn.tokens res with
    | .error left => void left
    | .ok (tokens, next) =>
        match turn.finish (tokens.getLastD 0) next.entries with
        | .error left => void (next.withEntries left)
        | .ok ended => turn.commit tokens ended (next.withEntries ended.decoded.entries)

end ChatTurn

/-! ## The debug routes -/

/-- `v1_debug_kdiff`; `none` where the text does not encode. -/
structure KdiffRequest where
  toks : Option (List Int)
  prefill : Verdict
  readK : Verdict

/-- `readK` is the shape of every verb that only reads. -/
def query (verdict : Verdict) (res : Residency) : Except Residency Unit :=
  if verdict = .ok then .ok () else .error res

def KdiffRequest.run (request : KdiffRequest) (res : Residency) : Residency :=
  match request.toks.filter fun toks => decide (2 ≤ toks.length) with
  | none => res
  | some toks =>
      let attempt : Except Residency Residency := do
        let filled ← res.reset.prefill request.prefill toks
        let _ ← query request.readK filled
        return filled.reset
      match attempt with
      | .ok next => next
      | .error left => left

inductive KvdiffMode where
  | batch
  | control
  | suffix (split : Option Nat)

/-- The calls of `v1_debug_kvdiff_batch` that can fail, in order. -/
inductive KvdiffSite where
  | prefillA | bytesA | snapshotA
  | prefillB | batchB | bytesB | snapshotB
  | globalKvd
  | prefillAgainA | readA
  | prefillAgainB | batchAgainB | readB
  deriving DecidableEq

structure KvdiffRequest where
  toks : List Int
  mode : KvdiffMode
  /-- The two snapshots have the same size. -/
  sameShape : Bool
  enginePersist : Bool
  faults : KvdiffSite → Verdict

namespace KvdiffRequest

variable (request : KvdiffRequest)

/-- The second path over the tokens; a split of a single token panics in `clamp`. -/
def secondPath (prefill batch : KvdiffSite) (cold : Residency) : Except Residency Residency :=
  match request.mode with
  | .control => cold.prefill (request.faults prefill) request.toks
  | .suffix split => do
      let split := max 1 (min (split.getD (request.toks.length / 2)) (request.toks.length - 1))
      let first ← cold.prefill (request.faults prefill) (request.toks.take split)
      first.prefillBatchedFrom request.enginePersist (request.faults batch)
        (request.toks.drop split) split
  | .batch =>
      PrefillInput.asOneShot (prefillBatched request.enginePersist (request.faults batch)
        request.toks) cold

def panics : Bool :=
  match request.mode with
  | .suffix _ => decide (request.toks.length = 1)
  | _ => false

def attempt (res : Residency) : Except Residency Residency := do
  let first ← res.reset.prefill (request.faults .prefillA) request.toks
  let _ ← first.prefixBytes (request.faults .bytesA)
  let _ ← first.snapshotPrefix (request.faults .snapshotA) request.toks.length
  if request.panics then .error first
  else do
    let second ← request.secondPath .prefillB .batchB first.reset
    let _ ← second.prefixBytes (request.faults .bytesB)
    let _ ← second.snapshotPrefix (request.faults .snapshotB) request.toks.length
    if !request.sameShape then .ok second.reset
    else do
      let _ ← query (request.faults .globalKvd) second.reset
      let again ← second.reset.prefill (request.faults .prefillAgainA) request.toks
      let _ ← query (request.faults .readA) again
      let last ← request.secondPath .prefillAgainB .batchAgainB again.reset
      let _ ← query (request.faults .readB) last
      return last

def run (res : Residency) : Residency :=
  if request.toks = [] then res
  else
    match request.attempt res with
    | .ok next => next
    | .error left => left

end KvdiffRequest

/-! ## Requests -/

inductive ResidentRequest where
  | chat (turn : ChatTurn)
  | kdiff (request : KdiffRequest)
  | kvdiffBatch (request : KvdiffRequest)

def ResidentRequest.serve : ResidentRequest → Residency → Residency
  | .chat turn => turn.run
  | .kdiff request => request.run
  | .kvdiffBatch request => request.run

end KairosEngine.Daemon
