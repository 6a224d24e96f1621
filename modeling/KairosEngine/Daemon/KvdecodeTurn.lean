import KairosEngine.Daemon.DecodeBuffer
import KairosEngine.Daemon.RegistryFile
import KairosEngine.Library.Quiescence

/-!
# The steps of `run_kvdecode_chat`

A resident-cache turn from its first check to the removal of its chat, one verb of the handle or
one event for the client at a time.  What the engine, the sampler and the client answer is part of
the turn; the side passes of the recall stage are any list.  Events other than text are left out,
up to the one that closes the turn.
-/

namespace KairosEngine.Daemon

open KairosEngine.Library

inductive TurnAct
  /-- A verb of the handle that is no `decode_step`. -/
  | verb
  | decodeStep
  /-- A text delta. -/
  | delta (text : Text)
  /-- What the decode buffer still held. -/
  | flush (text : Text)
  | error
  /-- The client is gone. -/
  | lost
  | cancelled
  | done
  deriving DecidableEq

/-- Work on the answer: a `decode_step`, or a text delta that is not the flush. -/
def TurnAct.answers : TurnAct → Bool
  | .decodeStep | .delta _ => true
  | _ => false

/-- A side prompt: the verbs in front of its first step and whether they succeed, the rounds, and
the verbs that restore the cache. -/
structure SidePass where
  verbs : Nat
  opens : Bool
  budget : Nat
  /-- The `decode_step` of a round succeeds. -/
  step : Nat → Bool
  /-- The token of a round ends the reply. -/
  ends : Nat → Bool
  restores : Nat

namespace SidePass

variable (pass : SidePass)

def rounds : Nat → Nat → List TurnAct
  | 0, _ => []
  | budget + 1, round =>
      if pass.step round && !pass.ends round then .decodeStep :: rounds budget (round + 1)
      else [.decodeStep]

def acts : List TurnAct :=
  List.replicate pass.verbs .verb ++ (if pass.opens then pass.rounds pass.budget 0 else []) ++
    List.replicate pass.restores .verb

/-- A pass that makes no step. -/
def Idle : Prop := pass.opens = false ∨ pass.budget = 0

instance : Decidable pass.Idle := inferInstanceAs (Decidable (_ ∨ _))

end SidePass

/-- A reply of the DECIDE stage; its budget is the source's. -/
structure SideReply where
  opens : Bool
  step : Nat → Bool
  ends : Nat → Bool

def SideReply.pass (reply : SideReply) (budget : Nat) : SidePass where
  verbs := 2
  opens := reply.opens
  budget := budget
  step := reply.step
  ends := reply.ends
  restores := 1

/-- DECIDE over the candidates of a captured fact; MERGE follows if nothing was superseded.  There
is no reply where a prompt does not encode. -/
structure DecideStage where
  decide : Option SideReply
  decided : Bool
  merge : Option SideReply

/-- A resident-cache turn with the answers of the engine, the sampler and the client. -/
structure KvdecodeTurn where
  tokens : List Int
  /-- The texts that a delegated turn emits. -/
  delegate : Option (List Text)
  /-- There is a resident handle. -/
  handle : Bool
  /-- The verbs from `set_byteexact` to the injected frames, and whether they succeed. -/
  opening : Nat × Bool
  recallPasses : List SidePass
  /-- `replay_dir`, with the answer of the verb. -/
  replay : Option Bool
  logitsFit : Bool
  symbolicDecline : Option Text
  synStep : Bool
  /-- The continuous thoughts that are injected. -/
  thoughts : Nat
  maxTokens : Nat
  sampled : Nat → Int
  /-- `eos_ids` and `turn_stop_ids`. -/
  stopIds : List Int
  decodeToken : Int → ByteString
  /-- A memory was injected by the judge. -/
  judgeGround : Bool
  decBuf : TokenDecodeBuffer
  step : Nat → Bool
  /-- The events that get through to the client. -/
  drains : Nat → Bool
  spectest : Bool
  /-- The test of a held draft. -/
  vetoes : Text → Bool
  /-- The text of the recalled memory. -/
  fact : Text
  /-- The verbs of the nightshift capture. -/
  captures : Nat
  decide : Option DecideStage

inductive TurnStage
  | start
  | failing
  | saying (texts : List Text)
  | waiting
  | opening (verbs : Nat)
  | recalling (left : List TurnAct) (passes : List SidePass)
  | replaying
  | declining (message : Text)
  | cooling
  | synthesis
  | thinking (left : Nat)
  /-- At the head of the decode loop. -/
  | head (index : Nat)
  /-- In front of the `decode_step` of a round. -/
  | feed (index : Nat)
  | flushing
  | releasing (texts : List Text) (tail : Option Text)
  | closing
  | capturing (verbs : Nat)
  | reviewing (left : List TurnAct) (passes : List SidePass)
  | returned

structure TurnState where
  stage : TurnStage
  buffer : TokenDecodeBuffer
  answerText : Text
  /-- The texts that SPECTEST holds back. -/
  held : List Text
  /-- How many events were handed to the client. -/
  sends : Nat

/-- What the head of the decode loop makes of the sampled token. -/
inductive Reading
  | leaves
  | text (buffer : TokenDecodeBuffer) (bytes : ByteString)
  | stop (buffer : TokenDecodeBuffer) (bytes : ByteString)

namespace KvdecodeTurn

variable (turn : KvdecodeTurn)

def start : TurnState where
  stage := .start
  buffer := turn.decBuf
  answerText := []
  held := []
  sends := 0

/-- The judge's halt: a line break or a backtick. -/
def halts (bytes : ByteString) : Bool :=
  turn.judgeGround && (fromUtf8Lossy bytes).any fun c => c == '\n' || c == '\x60'

def reading (buffer : TokenDecodeBuffer) (index : Nat) : Reading :=
  if turn.maxTokens ≤ index then .leaves
  else if turn.stopIds.contains (turn.sampled index) then .leaves
  else
    let bytes := turn.decodeToken (turn.sampled index)
    if turn.halts bytes then .leaves
    else
      match buffer.push bytes with
      | (buffer, .emit out) => .text buffer out
      | (buffer, .stopped out) => .stop buffer out

/-- Hand an event to the client. -/
def deliver (act : TurnAct) (state : TurnState) : TurnState × Option TurnAct :=
  ({ state with sends := state.sends + 1 }, if turn.drains state.sends then some act else none)

/-- The decode loop up to its `decode_step`. -/
def head (index : Nat) (state : TurnState) : TurnState × Option TurnAct :=
  match turn.reading state.buffer index with
  | .leaves => ({ state with stage := .flushing }, none)
  | .text buffer bytes =>
      if bytes = [] then ({ state with buffer, stage := .feed index }, none)
      else
        let text := fromUtf8Lossy bytes
        let state := { state with buffer, answerText := state.answerText ++ text }
        if turn.spectest then
          ({ state with held := state.held ++ [text], stage := .feed index }, none)
        else if turn.drains state.sends then
          ({ state with sends := state.sends + 1, stage := .feed index }, some (.delta text))
        else ({ state with sends := state.sends + 1, stage := .returned }, some .lost)
  | .stop buffer bytes =>
      let state := { state with buffer, stage := .flushing }
      if bytes = [] then (state, none)
      else
        let text := fromUtf8Lossy bytes
        if turn.spectest then ({ state with held := state.held ++ [text] }, none)
        else turn.deliver (.delta text) state

/-- The sentence that stands in for a draft that fails its test. -/
def fallback : Text := "From the record: ".toList ++ turn.fact

def flush (state : TurnState) : TurnState × Option TurnAct :=
  let flushed := state.buffer.flush
  let text := fromUtf8Lossy flushed
  let state := { state with answerText := state.answerText ++ text }
  if turn.spectest then
    if turn.vetoes state.answerText then
      ({ state with answerText := turn.fallback, stage := .releasing [turn.fallback] none }, none)
    else
      ({ state with stage := .releasing state.held (if flushed = [] then none else some text) },
        none)
  else if flushed = [] then ({ state with stage := .closing }, none)
  else turn.deliver (.flush text) { state with stage := .closing }

def reviews : List SidePass :=
  match turn.decide with
  | none => []
  | some stage =>
      (stage.decide.map fun reply => reply.pass 12).toList ++
        if stage.decided then [] else (stage.merge.map fun reply => reply.pass 40).toList

/-- One verb, one event or one decision; `cancelled` is what a look at the flag would show. -/
def advance (cancelled : Bool) (state : TurnState) : TurnState × Option TurnAct :=
  match state.stage with
  | .start =>
      if turn.tokens = [] then ({ state with stage := .failing }, none)
      else
        match turn.delegate with
        | some texts => ({ state with stage := .saying texts }, none)
        | none => ({ state with stage := .waiting }, none)
  | .failing => ({ state with stage := .returned }, some .error)
  | .saying (text :: rest) => turn.deliver (.delta text) { state with stage := .saying rest }
  | .saying [] => ({ state with stage := .returned }, some .done)
  | .waiting =>
      if turn.handle then ({ state with stage := .opening turn.opening.1 }, none)
      else ({ state with stage := .failing }, none)
  | .opening (verbs + 1) => ({ state with stage := .opening verbs }, some .verb)
  | .opening 0 =>
      if turn.opening.2 then ({ state with stage := .recalling [] turn.recallPasses }, none)
      else ({ state with stage := .failing }, none)
  | .recalling (act :: left) passes => ({ state with stage := .recalling left passes }, some act)
  | .recalling [] (pass :: rest) => ({ state with stage := .recalling pass.acts rest }, none)
  | .recalling [] [] => ({ state with stage := .replaying }, none)
  | .replaying =>
      let act := turn.replay.map fun _ => TurnAct.verb
      if turn.replay = some false ∨ turn.logitsFit = false then
        ({ state with stage := .failing }, act)
      else
        match turn.symbolicDecline with
        | some message => ({ state with stage := .declining message }, act)
        | none => ({ state with stage := .synthesis }, act)
  | .declining message => turn.deliver (.delta message) { state with stage := .cooling }
  | .cooling => ({ state with stage := .saying [] }, some .verb)
  | .synthesis =>
      ({ state with stage := if turn.synStep then .thinking turn.thoughts else .failing },
        some .decodeStep)
  | .thinking (left + 1) => ({ state with stage := .thinking left }, some .verb)
  | .thinking 0 => ({ state with stage := .head 0 }, none)
  | .head index => turn.head index state
  | .feed index =>
      ({ state with stage := if turn.step index then .head (index + 1) else .flushing },
        some .decodeStep)
  | .flushing => turn.flush state
  | .releasing (text :: rest) tail =>
      if turn.drains state.sends then
        ({ state with sends := state.sends + 1, stage := .releasing rest tail },
          some (.delta text))
      else ({ state with sends := state.sends + 1, stage := .closing }, none)
  | .releasing [] (some tail) => turn.deliver (.flush tail) { state with stage := .closing }
  | .releasing [] none => ({ state with stage := .closing }, none)
  | .closing =>
      ({ state with stage := .capturing turn.captures },
        some (if cancelled then .cancelled else .done))
  | .capturing (verbs + 1) => ({ state with stage := .capturing verbs }, some .verb)
  | .capturing 0 => ({ state with stage := .reviewing [] turn.reviews }, none)
  | .reviewing (act :: left) passes => ({ state with stage := .reviewing left passes }, some act)
  | .reviewing [] (pass :: rest) => ({ state with stage := .reviewing pass.acts rest }, none)
  | .reviewing [] [] => ({ state with stage := .returned }, none)
  | .returned => (state, none)

/-! ## When the answer is over -/

/-- DECIDE and MERGE make no step. -/
def ReviewIdle : Prop := ∀ pass ∈ turn.reviews, pass.Idle

/-- What SPECTEST lets out of the turn. -/
def released (state : TurnState) : List Text :=
  if turn.spectest then
    if turn.vetoes (state.answerText ++ fromUtf8Lossy state.buffer.flush) then [turn.fallback]
    else state.held
  else []

/-- Behind the loop nothing follows but the flush. -/
def Settled (state : TurnState) : Prop :=
  (turn.released state = [] ∨ turn.drains state.sends = false) ∧ turn.ReviewIdle

/-- The sampled token leaves the loop, and no text of it gets to the client. -/
def Leaves (index : Nat) (state : TurnState) : Prop :=
  match turn.reading state.buffer index with
  | .leaves => turn.Settled state
  | .text _ bytes => bytes ≠ [] ∧ turn.spectest = false ∧ turn.drains state.sends = false
  | .stop buffer bytes =>
      if bytes = [] then turn.Settled { state with buffer }
      else if turn.spectest then
        turn.Settled { state with buffer, held := state.held ++ [fromUtf8Lossy bytes] }
      else
        turn.drains state.sends = false ∧
          turn.Settled { state with buffer, sends := state.sends + 1 }

/-- The turn ends in front of its synthesis step. -/
def Fails (state : TurnState) : Prop :=
  turn.replay = some false ∨ turn.logitsFit = false ∨
    turn.symbolicDecline ≠ none ∧ turn.drains state.sends = false

def Opens (state : TurnState) : Prop :=
  turn.opening.2 = true → (∀ pass ∈ turn.recallPasses, pass.Idle) ∧ turn.Fails state

/-- No text gets to the client. -/
def Mute (state : TurnState) (texts : List Text) : Prop :=
  ∀ index < texts.length, turn.drains (state.sends + index) = false

/-- Neither a `decode_step` nor a text is ahead of the turn, apart from the flush. -/
def Over (state : TurnState) : Prop :=
  match state.stage with
  | .start =>
      turn.tokens ≠ [] →
        match turn.delegate with
        | some texts => turn.Mute state texts
        | none => turn.handle = true → turn.Opens state
  | .failing | .cooling | .returned => True
  | .saying texts => turn.Mute state texts
  | .waiting => turn.handle = true → turn.Opens state
  | .opening _ => turn.Opens state
  | .recalling left passes =>
      (∀ act ∈ left, act.answers = false) ∧ (∀ pass ∈ passes, pass.Idle) ∧ turn.Fails state
  | .replaying => turn.Fails state
  | .declining _ => turn.drains state.sends = false
  | .synthesis | .feed _ => False
  | .thinking _ => turn.Leaves 0 state
  | .head index => turn.Leaves index state
  | .flushing => turn.Settled state
  | .releasing texts _ => (texts = [] ∨ turn.drains state.sends = false) ∧ turn.ReviewIdle
  | .closing | .capturing _ => turn.ReviewIdle
  | .reviewing left passes =>
      (∀ act ∈ left, act.answers = false) ∧ ∀ pass ∈ passes, pass.Idle

end KvdecodeTurn

/-! ## One step of the turn -/

theorem SidePass.idle_iff {pass : SidePass} :
    (∀ act ∈ pass.acts, act.answers = false) ↔ pass.Idle := by
  have verbs : ∀ count, ∀ act ∈ List.replicate count TurnAct.verb, act.answers = false := by
    intro count act member
    rw [List.eq_of_mem_replicate member]
    rfl
  have rounds : (∀ act ∈ pass.rounds pass.budget 0, act.answers = false) ↔ pass.budget = 0 := by
    cases pass.budget with
    | zero => simp [SidePass.rounds]
    | succ budget =>
        refine iff_of_false (fun silent => ?_) (Nat.succ_ne_zero budget)
        have first : TurnAct.decodeStep ∈ pass.rounds (budget + 1) 0 := by
          rw [SidePass.rounds]
          split
          next => exact List.mem_cons_self
          next => exact List.mem_cons_self
        exact absurd (silent _ first) (by decide)
  unfold SidePass.acts SidePass.Idle
  rw [List.forall_mem_append, List.forall_mem_append, and_iff_left (verbs _),
    and_iff_right (verbs _)]
  cases pass.opens with
  | true => simpa using rounds
  | false => simp

namespace KvdecodeTurn

variable (turn : KvdecodeTurn)

/-- The step of a state makes no part of the answer. -/
def Quiet (state : TurnState) : Prop := ∀ act ∈ (turn.advance false state).2, act.answers = false

/-- The flag decides between the two closing events and nothing else. -/
theorem advance_flag (cancelled : Bool) (state : TurnState) :
    (turn.advance cancelled state).1 = (turn.advance false state).1 ∧
      ((∀ act ∈ (turn.advance cancelled state).2, act.answers = false) ↔ turn.Quiet state) := by
  unfold Quiet advance
  cases state.stage with
  | closing => cases cancelled <;> simp [TurnAct.answers]
  | saying texts => cases texts <;> exact ⟨rfl, Iff.rfl⟩
  | opening verbs => cases verbs <;> exact ⟨rfl, Iff.rfl⟩
  | thinking left => cases left <;> exact ⟨rfl, Iff.rfl⟩
  | capturing verbs => cases verbs <;> exact ⟨rfl, Iff.rfl⟩
  | recalling left passes => cases left <;> cases passes <;> exact ⟨rfl, Iff.rfl⟩
  | reviewing left passes => cases left <;> cases passes <;> exact ⟨rfl, Iff.rfl⟩
  | releasing texts tail => cases texts <;> cases tail <;> exact ⟨rfl, Iff.rfl⟩
  | _ => exact ⟨rfl, Iff.rfl⟩

variable {turn} {state : TurnState}

theorem deliver_quiet {act : TurnAct} (answers : act.answers = true) :
    (∀ given ∈ (turn.deliver act state).2, given.answers = false) ↔
      turn.drains state.sends = false := by
  unfold deliver
  cases turn.drains state.sends <;> simp [answers]

/-- The head of the loop. -/
theorem leaves_iff (index : Nat) :
    turn.Leaves index state ↔
      (∀ act ∈ (turn.head index state).2, act.answers = false) ∧
        turn.Over (turn.head index state).1 := by
  unfold Leaves head
  cases turn.reading state.buffer index with
  | leaves => simp [Over, Settled, released]
  | text buffer bytes =>
      simp only
      split
      next empty => simp [empty, Over]
      next given =>
        cases held : turn.spectest with
        | true => simp [Over]
        | false => cases turn.drains state.sends <;> simp [given, Over, TurnAct.answers]
  | stop buffer bytes =>
      simp only
      split
      next => simp [Over, Settled, released]
      next =>
        cases held : turn.spectest with
        | true => simp [held, Over, Settled, released]
        | false =>
            simp only [Bool.false_eq_true, if_false, deliver_quiet (show (TurnAct.delta
              (fromUtf8Lossy bytes)).answers = true from rfl)]
            simp [held, deliver, Over, Settled, released]

/-- Behind the loop. -/
theorem settled_iff :
    turn.Settled state ↔
      (∀ act ∈ (turn.flush state).2, act.answers = false) ∧ turn.Over (turn.flush state).1 := by
  unfold Settled released flush
  cases turn.spectest with
  | true =>
      simp only [if_true]
      split
      next => simp [Over]
      next => simp [Over]
  | false =>
      simp only [Bool.false_eq_true, if_false, true_or, true_and]
      split
      next => simp [Over]
      next =>
        unfold deliver
        cases turn.drains state.sends <;> simp [Over, TurnAct.answers]

theorem mute_cons {text : Text} {rest : List Text} :
    turn.Mute state (text :: rest) ↔
      turn.drains state.sends = false ∧
        turn.Mute { state with sends := state.sends + 1, stage := .saying rest } rest := by
  unfold Mute
  constructor
  · intro mute
    refine ⟨mute 0 (Nat.succ_pos _), fun index inside => ?_⟩
    have later := mute (index + 1) (Nat.succ_lt_succ inside)
    rwa [← Nat.add_assoc, Nat.add_right_comm] at later
  · rintro ⟨first, later⟩ index inside
    cases index with
    | zero => exact first
    | succ index =>
        have follows := later index (Nat.lt_of_succ_lt_succ inside)
        rwa [Nat.add_right_comm, Nat.add_assoc] at follows

/-- What is over stays over, and what is not makes a part of the answer or goes on. -/
theorem over_unfolds (turn : KvdecodeTurn) (state : TurnState) :
    turn.Over state ↔ turn.Quiet state ∧ turn.Over (turn.advance false state).1 := by
  obtain ⟨stage, buffer, answerText, held, sends⟩ := state
  unfold Quiet
  cases stage with
  | start =>
      by_cases empty : turn.tokens = []
      · simp [Over, advance, empty]
      · cases delegated : turn.delegate <;> simp [Over, advance, empty, delegated, Mute, Opens, Fails]
  | failing => simp [Over, advance, TurnAct.answers]
  | saying texts =>
      cases texts with
      | nil => simp [Over, advance, Mute, TurnAct.answers]
      | cons text rest =>
          simp only [Over, advance, deliver_quiet (show (TurnAct.delta text).answers = true from rfl)]
          exact mute_cons
  | waiting =>
      simp only [Over, advance]
      cases turn.handle <;> simp [Opens, Fails]
  | opening verbs =>
      cases verbs with
      | zero =>
          simp only [Over, advance, Opens]
          cases turn.opening.2 <;> simp [Fails]
      | succ verbs => simp [Over, advance, Opens, Fails, TurnAct.answers]
  | recalling left passes =>
      cases left with
      | cons act left => simp [Over, advance, Fails, and_assoc]
      | nil =>
          cases passes with
          | nil => simp [Over, advance, Fails]
          | cons pass rest =>
              simp only [Over, advance, List.forall_mem_cons, SidePass.idle_iff]
              simp [Fails, and_assoc]
  | replaying =>
      have verb : ∀ act ∈ turn.replay.map fun _ => TurnAct.verb, act.answers = false := by
        cases turn.replay <;> simp [TurnAct.answers]
      simp only [Over, advance, Fails]
      by_cases fails : turn.replay = some false ∨ turn.logitsFit = false
      · simp only [if_pos fails, and_true]
        exact iff_of_true (fails.imp_right Or.inl) verb
      · obtain ⟨replays, fit⟩ := not_or.mp fails
        simp only [replays, fit, false_or]
        cases turn.symbolicDecline with
        | none => simp
        | some message => simpa using fun _ => verb
  | declining message =>
      simp only [Over, advance, deliver_quiet (show (TurnAct.delta message).answers = true from rfl)]
      simp [deliver]
  | cooling => simp [Over, advance, Mute, TurnAct.answers]
  | synthesis => simp [Over, advance, TurnAct.answers]
  | thinking left =>
      cases left with
      | zero => exact (and_iff_right nofun).symm
      | succ left => exact (and_iff_right fun act given => by cases given; rfl).symm
  | head index => exact leaves_iff index
  | feed index => simp [Over, advance, TurnAct.answers]
  | flushing => exact settled_iff
  | releasing texts tail =>
      cases texts with
      | cons text rest =>
          simp only [Over, advance]
          cases drained : turn.drains sends <;> simp [TurnAct.answers, ReviewIdle]
      | nil =>
          cases tail with
          | none => simp [Over, advance]
          | some tail =>
              simp only [Over, advance, deliver]
              cases turn.drains sends <;> simp [TurnAct.answers]
  | closing => simp [Over, advance, TurnAct.answers]
  | capturing verbs =>
      cases verbs with
      | zero => simp [Over, advance, ReviewIdle]
      | succ verbs => simp [Over, advance, ReviewIdle, TurnAct.answers]
  | reviewing left passes =>
      cases left with
      | cons act left => simp [Over, advance, and_assoc]
      | nil =>
          cases passes with
          | nil => simp [Over, advance]
          | cons pass rest =>
              simp only [Over, advance, List.forall_mem_cons, SidePass.idle_iff]
              simp
  | returned => simp [Over, advance]

/-! ## The end of the turn -/

/-- What the passes that are left come to. -/
def workload (left : List TurnAct) (passes : List SidePass) : Nat :=
  left.length + (passes.map fun pass => pass.acts.length + 1).sum

/-- The place of a stage in the turn, and what is left in it. -/
def rank (turn : KvdecodeTurn) (state : TurnState) : Nat ×ₗ Nat :=
  toLex <|
    match state.stage with
    | .start => (12, 0)
    | .waiting => (11, 0)
    | .opening verbs => (10, verbs)
    | .recalling left passes => (9, workload left passes)
    | .replaying => (8, 0)
    | .synthesis => (7, 0)
    | .thinking left => (6, left)
    | .head index => (5, 2 * (turn.maxTokens - index))
    | .feed index => (5, 2 * (turn.maxTokens - (index + 1)) + 1)
    | .flushing => (4, 0)
    | .releasing texts _ => (3, texts.length)
    | .closing => (2, turn.captures + 1)
    | .capturing verbs => (2, verbs)
    | .reviewing left passes => (1, workload left passes)
    | .declining _ => (3, 0)
    | .cooling => (2, 0)
    | .saying texts => (1, texts.length)
    | .failing => (1, 0)
    | .returned => (0, 0)

theorem head_lower (index : Nat) :
    turn.rank (turn.head index { state with stage := .head index }).1 <
      turn.rank { state with stage := .head index } := by
  unfold head
  cases read : turn.reading state.buffer index with
  | leaves => simp [rank, Prod.Lex.toLex_lt_toLex]
  | text buffer bytes =>
      have inside : index < turn.maxTokens := by
        by_contra outside
        rw [reading, if_pos (Nat.le_of_not_lt outside)] at read
        cases read
      have feeds : 2 * (turn.maxTokens - (index + 1)) + 1 < 2 * (turn.maxTokens - index) := by
        omega
      simp only
      split
      next => simp [rank, Prod.Lex.toLex_lt_toLex, feeds]
      next =>
        split
        next => simp [rank, Prod.Lex.toLex_lt_toLex, feeds]
        next =>
          split
          next => simp [rank, Prod.Lex.toLex_lt_toLex, feeds]
          next => simp [rank, Prod.Lex.toLex_lt_toLex]
  | stop buffer bytes =>
      simp only
      split
      next => simp [rank, Prod.Lex.toLex_lt_toLex]
      next =>
        split
        next => simp [rank, Prod.Lex.toLex_lt_toLex]
        next => simp [rank, deliver, Prod.Lex.toLex_lt_toLex]

theorem flush_lower :
    turn.rank (turn.flush { state with stage := .flushing }).1 <
      turn.rank { state with stage := .flushing } := by
  unfold flush
  simp only
  split
  next =>
    split
    next => simp [rank, Prod.Lex.toLex_lt_toLex]
    next => simp [rank, Prod.Lex.toLex_lt_toLex]
  next =>
    split
    next => simp [rank, Prod.Lex.toLex_lt_toLex]
    next => simp [rank, deliver, Prod.Lex.toLex_lt_toLex]

theorem advance_lower (turn : KvdecodeTurn) (state : TurnState) (going : state.stage ≠ .returned) :
    turn.rank (turn.advance false state).1 < turn.rank state := by
  obtain ⟨stage, buffer, answerText, held, sends⟩ := state
  cases stage with
  | start =>
      by_cases empty : turn.tokens = []
      · simp [advance, empty, rank, Prod.Lex.toLex_lt_toLex]
      · cases delegated : turn.delegate <;>
          simp [advance, empty, delegated, rank, Prod.Lex.toLex_lt_toLex]
  | head index => exact @head_lower turn ⟨.head index, buffer, answerText, held, sends⟩ index
  | flushing => exact @flush_lower turn ⟨.flushing, buffer, answerText, held, sends⟩
  | returned => exact absurd rfl going
  | waiting => cases handle : turn.handle <;> simp [advance, handle, rank, Prod.Lex.toLex_lt_toLex]
  | opening verbs =>
      cases verbs with
      | succ verbs => simp [advance, rank, Prod.Lex.toLex_lt_toLex]
      | zero => cases opens : turn.opening.2 <;> simp [advance, opens, rank, Prod.Lex.toLex_lt_toLex]
  | recalling left passes =>
      cases left with
      | cons act left => simp [advance, rank, workload, Prod.Lex.toLex_lt_toLex]
      | nil => cases passes <;> simp [advance, rank, workload, Prod.Lex.toLex_lt_toLex]
  | reviewing left passes =>
      cases left with
      | cons act left => simp [advance, rank, workload, Prod.Lex.toLex_lt_toLex]
      | nil => cases passes <;> simp [advance, rank, workload, Prod.Lex.toLex_lt_toLex]
  | replaying =>
      by_cases fails : turn.replay = some false ∨ turn.logitsFit = false
      · simp [advance, fails, rank, Prod.Lex.toLex_lt_toLex]
      · cases declined : turn.symbolicDecline <;>
          simp [advance, fails, declined, rank, Prod.Lex.toLex_lt_toLex]
  | synthesis => cases fed : turn.synStep <;> simp [advance, fed, rank, Prod.Lex.toLex_lt_toLex]
  | thinking left => cases left <;> simp [advance, rank, Prod.Lex.toLex_lt_toLex]
  | feed index =>
      cases fed : turn.step index <;> simp [advance, fed, rank, Prod.Lex.toLex_lt_toLex]
  | releasing texts tail =>
      cases texts with
      | cons text rest =>
          cases drained : turn.drains sends <;>
            simp [advance, drained, rank, Prod.Lex.toLex_lt_toLex]
      | nil => cases tail <;> simp [advance, deliver, rank, Prod.Lex.toLex_lt_toLex]
  | saying texts => cases texts <;> simp [advance, deliver, rank, Prod.Lex.toLex_lt_toLex]
  | capturing verbs => cases verbs <;> simp [advance, rank, Prod.Lex.toLex_lt_toLex]
  | _ => simp [advance, deliver, rank, Prod.Lex.toLex_lt_toLex]

/-- Every turn returns. -/
theorem exists_returned (turn : KvdecodeTurn) (state : TurnState) :
    ∃ count, ((fun state => (turn.advance false state).1)^[count] state).stage = .returned :=
  exists_iterate_rest turn.rank (turn.advance_lower) state

/-- The answer is over exactly when no step from there on makes a part of it. -/
theorem over_iff_quiet_forever (turn : KvdecodeTurn) (state : TurnState) :
    turn.Over state ↔
      ∀ count, turn.Quiet ((fun state => (turn.advance false state).1)^[count] state) := by
  apply settled_iff_quiet turn.over_unfolds
  obtain ⟨count, returned⟩ := turn.exists_returned state
  refine ⟨count, ?_⟩
  rw [Over, returned]
  trivial

end KvdecodeTurn

end KairosEngine.Daemon
