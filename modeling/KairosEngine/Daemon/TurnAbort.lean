import KairosEngine.Daemon.KvdecodeTurn
import KairosEngine.Library.Loop

/-!
# Aborting a resident-cache turn

`v1_abort` stores the flag of a chat that is registered.  The turn looks at its flag once, when it
chooses the event that closes it.
-/

namespace KairosEngine.Daemon

open KairosEngine.Library

/-! ## The registry of chats -/

/-- The chats by their ids, each with its cancel flag; a flag is named by its allocation. -/
structure Sessions where
  inner : UInt64 → Option Nat
  nextId : UInt64

/-- The flags by their allocations. -/
abbrev CancelFlags := Nat → Int

namespace Sessions

def new : Sessions where
  inner _ := none
  nextId := 1

def register (flag : Nat) (sessions : Sessions) : UInt64 × Sessions :=
  (sessions.nextId,
    { inner := Function.update sessions.inner sessions.nextId (some flag)
      nextId := sessions.nextId + 1 })

/-- Whether the chat was found, and the flags afterwards. -/
def abort (id : UInt64) (sessions : Sessions) (flags : CancelFlags) : Bool × CancelFlags :=
  match sessions.inner id with
  | some flag => (true, Function.update flags flag 1)
  | none => (false, flags)

def remove (id : UInt64) (sessions : Sessions) : Sessions :=
  { sessions with inner := Function.update sessions.inner id none }

end Sessions

/-! ## A turn among other threads -/

inductive ServeEvent
  /-- The thread of the turn goes on. -/
  | turn
  | register (flag : Nat)
  | abort (id : UInt64)
  | remove (id : UInt64)

structure ServedTurn where
  sessions : Sessions
  flags : CancelFlags
  chatId : UInt64
  cancelChild : Nat
  state : TurnState

namespace ServedTurn

variable (turn : KvdecodeTurn)

/-- The chat is registered with a flag of its own, and its thread is started. -/
def begin (sessions : Sessions) (flags : CancelFlags) (cancelChild : Nat) : ServedTurn where
  sessions := (sessions.register cancelChild).2
  flags := Function.update flags cancelChild 0
  chatId := (sessions.register cancelChild).1
  cancelChild := cancelChild
  state := turn.start

variable {turn}

/-- `cancel_child.load() != 0`. -/
def cancelled (served : ServedTurn) : Bool := decide (served.flags served.cancelChild ≠ 0)

def step (turn : KvdecodeTurn) (event : ServeEvent) (served : ServedTurn) : ServedTurn :=
  match event with
  | .turn =>
      let (state, act) := turn.advance served.cancelled served.state
      { served with
        state
        flags :=
          if act = some .lost then Function.update served.flags served.cancelChild 1
          else served.flags
        sessions :=
          match served.state.stage, state.stage with
          | .returned, _ => served.sessions
          | _, .returned => served.sessions.remove served.chatId
          | _, _ => served.sessions }
  | .register flag => { served with sessions := (served.sessions.register flag).2 }
  | .abort id => { served with flags := (served.sessions.abort id served.flags).2 }
  | .remove id => { served with sessions := served.sessions.remove id }

/-- What an event makes the turn do. -/
def act (turn : KvdecodeTurn) (event : ServeEvent) (served : ServedTurn) : Option TurnAct :=
  match event with
  | .turn => (turn.advance served.cancelled served.state).2
  | _ => none

def acts (turn : KvdecodeTurn) : List ServeEvent → ServedTurn → List TurnAct
  | [], _ => []
  | event :: rest, served => (act turn event served).toList ++ acts turn rest (step turn event served)

/-- Where an abort of the chat succeeds, the turn makes nothing more of its answer, in whatever
order the threads go on. -/
def AbortStops (turn : KvdecodeTurn) (served : ServedTurn) : Prop :=
  (served.sessions.abort served.chatId served.flags).1 = true →
    ∀ later, ∀ act ∈ acts turn later (served.step turn (.abort served.chatId)), act.answers = false

/-- The chat is still registered. -/
def Registered (served : ServedTurn) : Prop := served.sessions.inner served.chatId ≠ none

variable {served : ServedTurn}

theorem abort_succeeds_iff :
    (served.sessions.abort served.chatId served.flags).1 = true ↔ served.Registered := by
  unfold Sessions.abort Registered
  cases served.sessions.inner served.chatId <;> simp

theorem step_turn_state :
    (step turn .turn served).state = (turn.advance false served.state).1 :=
  (turn.advance_flag served.cancelled served.state).1

/-- One event where the answer is over. -/
theorem act_silent (event : ServeEvent) (answered : turn.Over served.state) :
    (∀ given ∈ act turn event served, given.answers = false) ∧
      turn.Over (step turn event served).state := by
  cases event with
  | turn =>
      obtain ⟨quiet, next⟩ := (turn.over_unfolds served.state).mp answered
      refine ⟨(turn.advance_flag served.cancelled served.state).2.mpr quiet, ?_⟩
      rwa [step_turn_state]
  | register flag => exact ⟨nofun, answered⟩
  | abort id => exact ⟨nofun, answered⟩
  | remove id => exact ⟨nofun, answered⟩

theorem acts_silent (answered : turn.Over served.state) (later : List ServeEvent) :
    ∀ given ∈ acts turn later served, given.answers = false := by
  induction later generalizing served with
  | nil => exact fun given none => absurd none List.not_mem_nil
  | cons event rest inductionHypothesis =>
      obtain ⟨silent, next⟩ := act_silent event answered
      rw [acts, List.forall_mem_append]
      exact ⟨fun given member => silent given (Option.mem_toList.mp member),
        inductionHypothesis next⟩

/-- The thread of the turn alone shows every step that is ahead. -/
theorem quiet_of_silent
    (silent : ∀ later, ∀ given ∈ acts turn later served, given.answers = false) (count : Nat) :
    turn.Quiet ((fun state => (turn.advance false state).1)^[count] served.state) := by
  induction count generalizing served with
  | zero =>
      apply (turn.advance_flag served.cancelled served.state).2.mp
      intro given member
      apply silent [.turn] given
      rw [acts, acts, List.append_nil]
      exact Option.mem_toList.mpr member
  | succ count inductionHypothesis =>
      rw [Function.iterate_succ_apply, ← step_turn_state]
      apply inductionHypothesis
      intro later given member
      apply silent (.turn :: later) given
      rw [acts]
      exact List.mem_append_right _ member

theorem silent_iff :
    (∀ later, ∀ given ∈ acts turn later served, given.answers = false) ↔
      turn.Over served.state := by
  constructor
  · intro silent
    exact (turn.over_iff_quiet_forever served.state).mpr (quiet_of_silent silent)
  · exact acts_silent

/-- A turn of one letter again and again, on a cold cache and without a recall. -/
def letterTurn : KvdecodeTurn where
  tokens := [2, 7]
  delegate := none
  handle := true
  opening := (1, true)
  recallPasses := []
  replay := none
  logitsFit := true
  symbolicDecline := none
  synStep := true
  thoughts := 0
  maxTokens := 100
  sampled _ := 7
  stopIds := [1]
  decodeToken _ := [97]
  judgeGround := false
  decBuf := TokenDecodeBuffer.new []
  step _ := true
  drains _ := true
  spectest := false
  vetoes _ := false
  fact := []
  captures := 0
  decide := none

end ServedTurn

end KairosEngine.Daemon
