import KairosEngine.Daemon.KvdecodeTurn
import KairosEngine.Daemon.Lexical

/-!
# What SPECTEST judges

A spectest turn holds the pieces of its draft back and tests the text of the answer; the two are
gathered separately, and the last piece in front of a stop string is held but not tested.
-/

namespace KairosEngine.Daemon

open KairosEngine.Library

/-! ## The lexical test -/

def spectestStop : List String :=
  ["the", "and", "for", "that", "with", "this", "from", "are", "was", "were", "your", "you", "have",
    "will", "when", "which", "what", "into", "over", "each", "now"]

namespace Unicode

variable (tables : Unicode)

/-- The salient words of the delivered fact that the user did not say. -/
def spectestSalient (fact rawUser : Text) : List Text :=
  let userLc := tables.toLowercase rawUser
  (((((words tables.notAlphanumeric fact).filter fun word => decide (4 ≤ utf8Len word)).map
    tables.toLowercase).filter fun word => !(spectestStop.map String.toList).contains word).filter
    fun word => !textContains word userLc)

/-- The test without the linear head: there are salient words and the answer uses none. -/
def lexicalUngrounded (fact rawUser answerText : Text) : Bool :=
  let salient := tables.spectestSalient fact rawUser
  let ansLc := tables.toLowercase answerText
  let nUsed := (salient.filter fun word => textContains word ansLc).length
  !salient.isEmpty && nUsed == 0

theorem lexicalUngrounded_iff (fact rawUser answerText : Text) :
    tables.lexicalUngrounded fact rawUser answerText = true ↔
      tables.spectestSalient fact rawUser ≠ [] ∧
        ∀ word ∈ tables.spectestSalient fact rawUser,
          textContains word (tables.toLowercase answerText) = false := by
  simp only [lexicalUngrounded, Bool.and_eq_true, Bool.not_eq_true', List.isEmpty_eq_false_iff,
    beq_iff_eq, List.length_eq_zero_iff, List.filter_eq_nil_iff, Bool.not_eq_true]

end Unicode

/-! ## What the client is told -/

def TurnAct.told : TurnAct → Text
  | .delta text | .flush text => text
  | _ => []

def TurnStage.isReturned : TurnStage → Bool
  | .returned => true
  | _ => false

theorem SidePass.told_acts (pass : SidePass) : ∀ act ∈ pass.acts, act.told = [] := by
  have rounds : ∀ budget round, ∀ act ∈ pass.rounds budget round, act.told = [] := by
    intro budget
    induction budget with
    | zero => exact fun _ => nofun
    | succ budget inductionHypothesis =>
        intro round act member
        rw [SidePass.rounds] at member
        split at member
        next =>
          rcases List.mem_cons.mp member with rfl | later
          · rfl
          · exact inductionHypothesis (round + 1) act later
        next =>
          rw [List.mem_singleton.mp member]
          rfl
  intro act member
  rw [SidePass.acts, List.mem_append, List.mem_append] at member
  rcases member with (verb | round) | verb
  · rw [List.eq_of_mem_replicate verb]
    rfl
  · split at round
    next => exact rounds pass.budget 0 act round
    next => cases round
  · rw [List.eq_of_mem_replicate verb]
    rfl

namespace KvdecodeTurn

/-- The text that the turn gives to the client from a state on. -/
def tells (turn : KvdecodeTurn) (state : TurnState) : Text :=
  if state.stage.isReturned then []
  else
    ((turn.advance false state).2.map TurnAct.told).getD [] ++
      turn.tells (turn.advance false state).1
termination_by turn.rank state
decreasing_by
  apply turn.advance_lower state
  intro returned
  rename_i going
  rw [returned] at going
  exact going rfl

variable {turn : KvdecodeTurn}

theorem tells_step {state : TurnState} (going : state.stage.isReturned = false) :
    turn.tells state = ((turn.advance false state).2.map TurnAct.told).getD [] ++
      turn.tells (turn.advance false state).1 := by
  conv_lhs => rw [tells]
  rw [going, if_neg Bool.false_ne_true]

/-! ## Behind the draft -/

/-- Only the end of the turn is ahead, which tells the client nothing. -/
def Told (state : TurnState) : Prop :=
  match state.stage with
  | .closing | .capturing _ | .returned => True
  | .reviewing left _ => ∀ act ∈ left, act.told = []
  | _ => False

theorem Told.advance {state : TurnState} (told : Told state) :
    (∀ act ∈ (turn.advance false state).2, act.told = []) ∧ Told (turn.advance false state).1 := by
  obtain ⟨stage, buffer, answerText, held, sends⟩ := state
  cases stage with
  | closing => exact ⟨fun act given => by cases given; rfl, trivial⟩
  | capturing verbs =>
      cases verbs with
      | zero => exact ⟨nofun, fun _ member => nomatch member⟩
      | succ verbs => exact ⟨fun act given => by cases given; rfl, trivial⟩
  | reviewing left passes =>
      cases left with
      | cons act left =>
          have both := List.forall_mem_cons.mp told
          exact ⟨fun given same => by cases same; exact both.1, both.2⟩
      | nil =>
          cases passes with
          | cons pass rest => exact ⟨nofun, SidePass.told_acts pass⟩
          | nil => exact ⟨nofun, trivial⟩
  | returned => exact ⟨nofun, trivial⟩
  | _ => cases told

theorem tells_of_told {state : TurnState} (told : Told state) : turn.tells state = [] := by
  induction state using (InvImage.wf turn.rank wellFounded_lt).induction with
  | h state inductionHypothesis =>
      cases stage : state.stage.isReturned with
      | true =>
          rw [tells, stage]
          rfl
      | false =>
          obtain ⟨silent, later⟩ := told.advance
          have lower : turn.rank (turn.advance false state).1 < turn.rank state := by
            apply turn.advance_lower state
            intro returned
            rw [returned] at stage
            cases stage
          rw [tells_step stage, inductionHypothesis _ lower later, List.append_nil]
          cases given : (turn.advance false state).2 with
          | none => rfl
          | some act => exact silent act given

/-! ## The two turns -/

/-- The turn with SP_SPECTEST unset, its client connected throughout. -/
def streams (turn : KvdecodeTurn) : KvdecodeTurn :=
  { turn with spectest := false, drains := fun _ => true }

/-- The turn with SP_SPECTEST set and no linear head. -/
def tests (tables : Unicode) (rawUser : Text) (turn : KvdecodeTurn) : KvdecodeTurn :=
  { turn with
    spectest := true
    drains := fun _ => true
    vetoes := tables.lexicalUngrounded turn.fact rawUser }

def draftStart (turn : KvdecodeTurn) : TurnState := { turn.start with stage := .head 0 }

/-- A draft as the decode buffer cuts it. -/
structure DraftPieces where
  emitted : Text
  /-- In front of the stop string, in the piece that brought it. -/
  stopped : Text
  flushed : Text
  deriving DecidableEq

def DraftPieces.whole (draft : DraftPieces) : Text := draft.emitted ++ draft.stopped ++ draft.flushed

/-- What is gathered for the test. -/
def DraftPieces.tested (draft : DraftPieces) : Text := draft.emitted ++ draft.flushed

/-- A piece in front. -/
def DraftPieces.behind (text : Text) (draft : DraftPieces) : DraftPieces :=
  { draft with emitted := text ++ draft.emitted }

theorem DraftPieces.whole_behind (text : Text) (draft : DraftPieces) :
    (draft.behind text).whole = text ++ draft.whole := by
  simp only [whole, behind, List.append_assoc]

theorem DraftPieces.tested_behind (text : Text) (draft : DraftPieces) :
    (draft.behind text).tested = text ++ draft.tested := List.append_assoc ..

def draftFrom (turn : KvdecodeTurn) : Nat → Nat → TokenDecodeBuffer → DraftPieces
  | 0, _, buffer => ⟨[], [], fromUtf8Lossy buffer.flush⟩
  | budget + 1, index, buffer =>
      match turn.reading buffer index with
      | .leaves => ⟨[], [], fromUtf8Lossy buffer.flush⟩
      | .text buffer bytes =>
          (if turn.step index then turn.draftFrom budget (index + 1) buffer
          else ⟨[], [], fromUtf8Lossy buffer.flush⟩).behind (fromUtf8Lossy bytes)
      | .stop buffer bytes => ⟨[], fromUtf8Lossy bytes, fromUtf8Lossy buffer.flush⟩

/-- The sampled tokens through the decode buffer, up to the end of the loop. -/
def draft (turn : KvdecodeTurn) : DraftPieces := turn.draftFrom turn.maxTokens 0 turn.decBuf

/-! ## How the two end -/

section Ends

variable {tables : Unicode} {rawUser : Text}

@[simp]
theorem streams_spectest : turn.streams.spectest = false := rfl

@[simp]
theorem streams_drains (sends : Nat) : turn.streams.drains sends = true := rfl

@[simp]
theorem tests_spectest : (turn.tests tables rawUser).spectest = true := rfl

@[simp]
theorem tests_drains (sends : Nat) : (turn.tests tables rawUser).drains sends = true := rfl

theorem tells_closing {state : TurnState} (here : state.stage = .closing) :
    turn.tells state = [] := by
  apply tells_of_told
  rw [Told, here]
  trivial

theorem streams_flushing {state : TurnState} (here : state.stage = .flushing) :
    turn.streams.tells state = fromUtf8Lossy state.buffer.flush := by
  rw [tells_step (by rw [here]; rfl)]
  simp only [advance, here, flush, streams_spectest, Bool.false_eq_true, if_false]
  split
  next empty =>
    rw [empty, tells_closing]
    · rfl
    · rfl
  next =>
    rw [tells_closing]
    · exact List.append_nil _
    · rfl

theorem tests_releasing {texts : List Text} {tail : Option Text} {state : TurnState}
    (here : state.stage = .releasing texts tail) :
    (turn.tests tables rawUser).tells state = texts.flatten ++ tail.getD [] := by
  induction texts generalizing state with
  | nil =>
      rw [tells_step (by rw [here]; rfl)]
      cases tail with
      | none =>
          simp only [advance, here]
          rw [tells_closing]
          · rfl
          · rfl
      | some tail =>
          simp only [advance, here, deliver]
          rw [tells_closing]
          · exact List.append_nil tail
          · rfl
  | cons text rest inductionHypothesis =>
      have later := @inductionHypothesis
        { state with sends := state.sends + 1, stage := .releasing rest tail } rfl
      rw [tells_step (by rw [here]; rfl)]
      simp only [advance, here]
      rw [List.flatten_cons, List.append_assoc, ← later]
      rfl

theorem tests_flushing {state : TurnState} (here : state.stage = .flushing) :
    (turn.tests tables rawUser).tells state =
      if tables.lexicalUngrounded turn.fact rawUser
        (state.answerText ++ fromUtf8Lossy state.buffer.flush) then turn.fallback
      else state.held.flatten ++ fromUtf8Lossy state.buffer.flush := by
  have verdict : ∀ text, (turn.tests tables rawUser).vetoes text =
      tables.lexicalUngrounded turn.fact rawUser text := fun _ => rfl
  rw [tells_step (by rw [here]; rfl)]
  simp only [advance, here, flush, tests_spectest, if_true, verdict]
  split
  next =>
    refine Eq.trans (@tests_releasing turn tables rawUser [turn.fallback] none _ rfl) ?_
    exact (List.append_nil _).trans (List.append_nil _)
  next =>
    split
    next empty =>
      rw [empty]
      exact @tests_releasing turn tables rawUser state.held none _ rfl
    next =>
      exact @tests_releasing turn tables rawUser state.held
        (some (fromUtf8Lossy state.buffer.flush)) _ rfl

/-! ## The loop -/

theorem streams_head {budget index : Nat} {state : TurnState} (here : state.stage = .head index)
    (left : turn.maxTokens = index + budget) :
    turn.streams.tells state = (turn.draftFrom budget index state.buffer).whole := by
  induction budget generalizing index state with
  | zero =>
      have leaves : turn.streams.reading state.buffer index = .leaves :=
        if_pos (Nat.le_of_eq left)
      rw [tells_step (by rw [here]; rfl)]
      simp only [advance, here, head, leaves]
      exact streams_flushing rfl
  | succ budget inductionHypothesis =>
      have same : turn.streams.reading state.buffer index = turn.reading state.buffer index := rfl
      have stepped : turn.streams.step = turn.step := rfl
      rw [tells_step (by rw [here]; rfl), draftFrom]
      simp only [advance, here, head, same]
      cases turn.reading state.buffer index with
      | leaves => exact streams_flushing rfl
      | text buffer bytes =>
          -- Feeding the token leads to the next round or out of the loop.
          have fed : ∀ state : TurnState, state.stage = .feed index → state.buffer = buffer →
              turn.streams.tells state = (if turn.step index then
                turn.draftFrom budget (index + 1) buffer
              else ⟨[], [], fromUtf8Lossy buffer.flush⟩).whole := by
            rintro state here rfl
            rw [tells_step (by rw [here]; rfl)]
            simp only [advance, here, stepped]
            split
            next => exact inductionHypothesis rfl (by omega)
            next => exact streams_flushing rfl
          simp only [streams_spectest, Bool.false_eq_true, if_false, streams_drains, if_true,
            DraftPieces.whole_behind]
          split
          next empty =>
            rw [empty, fed _ rfl rfl]
            rfl
          next =>
            rw [fed _ rfl rfl]
            rfl
      | stop buffer bytes =>
          simp only [streams_spectest, Bool.false_eq_true, if_false]
          split
          next empty =>
            rw [empty]
            exact streams_flushing rfl
          next =>
            rw [deliver, streams_flushing rfl]
            rfl

/-- What a spectest turn comes to from a round on, with what it has gathered for the test and what
it holds. -/
theorem tests_head {budget index : Nat} {state : TurnState} (here : state.stage = .head index)
    (left : turn.maxTokens = index + budget) :
    (turn.tests tables rawUser).tells state =
      if tables.lexicalUngrounded turn.fact rawUser
        (state.answerText ++ (turn.draftFrom budget index state.buffer).tested) then turn.fallback
      else state.held.flatten ++ (turn.draftFrom budget index state.buffer).whole := by
  induction budget generalizing index state with
  | zero =>
      have leaves : (turn.tests tables rawUser).reading state.buffer index = .leaves :=
        if_pos (Nat.le_of_eq left)
      rw [tells_step (by rw [here]; rfl)]
      simp only [advance, here, head, leaves]
      exact tests_flushing rfl
  | succ budget inductionHypothesis =>
      have same : (turn.tests tables rawUser).reading state.buffer index =
          turn.reading state.buffer index := rfl
      have stepped : (turn.tests tables rawUser).step = turn.step := rfl
      rw [tells_step (by rw [here]; rfl), draftFrom]
      simp only [advance, here, head, same]
      cases turn.reading state.buffer index with
      | leaves => exact tests_flushing rfl
      | text buffer bytes =>
          have fed : ∀ state : TurnState, state.stage = .feed index → state.buffer = buffer →
              (turn.tests tables rawUser).tells state =
                if tables.lexicalUngrounded turn.fact rawUser (state.answerText ++
                  (if turn.step index then turn.draftFrom budget (index + 1) buffer
                  else ⟨[], [], fromUtf8Lossy buffer.flush⟩).tested) then turn.fallback
                else state.held.flatten ++
                  (if turn.step index then turn.draftFrom budget (index + 1) buffer
                  else ⟨[], [], fromUtf8Lossy buffer.flush⟩).whole := by
            rintro state here rfl
            rw [tells_step (by rw [here]; rfl)]
            simp only [advance, here, stepped]
            cases turn.step index with
            | true => exact inductionHypothesis rfl (by omega)
            | false => exact tests_flushing rfl
          simp only [tests_spectest, if_true, DraftPieces.whole_behind, DraftPieces.tested_behind]
          split
          next empty =>
            rw [empty, fed _ rfl rfl]
            rfl
          next =>
            rw [fed _ rfl rfl, List.flatten_append, List.flatten_singleton, List.append_assoc,
              List.append_assoc]
            rfl
      | stop buffer bytes =>
          simp only [tests_spectest, if_true]
          split
          next empty =>
            rw [empty]
            exact tests_flushing rfl
          next =>
            rw [tests_flushing rfl, List.flatten_append, List.flatten_singleton, List.append_assoc]
            rfl

end Ends

/-! ## The verdict -/

/-- The client gets the streamed text, or the record in its place where the streamed text fails the
test, exactly when the piece in front of a stop string makes no difference to the test. -/
theorem spectest_judges_iff (tables : Unicode) (rawUser : Text) (turn : KvdecodeTurn) :
    ((turn.tests tables rawUser).tells turn.draftStart =
      if tables.lexicalUngrounded turn.fact rawUser (turn.streams.tells turn.draftStart) then
        turn.fallback
      else turn.streams.tells turn.draftStart) ↔
      tables.lexicalUngrounded turn.fact rawUser turn.draft.tested =
          tables.lexicalUngrounded turn.fact rawUser turn.draft.whole ∨
        turn.draft.whole = turn.fallback := by
  have streamed : turn.streams.tells turn.draftStart = turn.draft.whole :=
    streams_head rfl (Nat.zero_add _).symm
  have tested := @tests_head turn tables rawUser turn.maxTokens 0 turn.draftStart rfl
    (Nat.zero_add _).symm
  change (turn.tests tables rawUser).tells turn.draftStart =
    if tables.lexicalUngrounded turn.fact rawUser turn.draft.tested then turn.fallback
    else turn.draft.whole at tested
  simp only [streamed, tested]
  cases tables.lexicalUngrounded turn.fact rawUser turn.draft.tested <;>
    cases tables.lexicalUngrounded turn.fact rawUser turn.draft.whole <;> simp [eq_comm]

/-- A turn that recalls the record, says one word of it and ends on the stop string. -/
def saysZebra : KvdecodeTurn where
  tokens := [2]
  delegate := none
  handle := true
  opening := (0, true)
  recallPasses := []
  replay := some true
  logitsFit := true
  symbolicDecline := none
  synStep := true
  thoughts := 0
  maxTokens := 8
  sampled index := index
  stopIds := []
  decodeToken id := if id = 0 then "Zebra".toUTF8.toList else "<end_of_turn>".toUTF8.toList
  judgeGround := false
  decBuf := TokenDecodeBuffer.new ["<end_of_turn>".toUTF8.toList]
  step _ := true
  drains _ := true
  spectest := true
  vetoes := Unicode.ascii.lexicalUngrounded "The code is zebra".toList "what is the code".toList
  fact := "The code is zebra".toList
  captures := 0
  decide := none

/-- The word is held back by the buffer until the stop string comes, so it is not tested. -/
theorem spectest_suppresses_grounded :
    saysZebra.streams.tells saysZebra.draftStart = "Zebra".toList ∧
      Unicode.ascii.lexicalUngrounded saysZebra.fact "what is the code".toList "Zebra".toList =
        false ∧
      (saysZebra.tests Unicode.ascii "what is the code".toList).tells saysZebra.draftStart =
        "From the record: The code is zebra".toList := by
  have streamed := @streams_head saysZebra 8 0 saysZebra.draftStart rfl rfl
  have tested := @tests_head saysZebra Unicode.ascii "what is the code".toList 8 0
    saysZebra.draftStart rfl rfl
  refine ⟨streamed.trans (by decide +kernel), by decide +kernel, tested.trans (by decide +kernel)⟩

end KvdecodeTurn

end KairosEngine.Daemon
