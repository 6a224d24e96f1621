import KairosEngine.Library.Loop

/-!
# Whom the device note names

`DEVICE_OWNER` is written behind the device lock and cleared in a step of its own: by `device_guard`
after the lock is dropped (the fields of `DeviceGuard` drop in order), by `run_kvdecode_chat` before
it (locals drop in reverse).
-/

namespace KairosEngine.Daemon

open KairosEngine.Library

/-- The two places that take the device lock. -/
inductive DeviceSite
  | deviceGuard
  | kvdecodeChat
  deriving DecidableEq

/-- Where a caller stands; `what` is the name it gave. -/
inductive NoteStage
  | away
  /-- Behind `device_note_wait`, at the lock. -/
  | waits (site : DeviceSite) (what : String)
  /-- Has the lock; its note is not recorded yet. -/
  | locked (site : DeviceSite) (what : String)
  | noted (site : DeviceSite) (what : String)
  /-- Has dropped the first of lock and note. -/
  | releasing (site : DeviceSite) (what : String)
  deriving DecidableEq

/-- Has the device lock. -/
def NoteStage.holds : NoteStage → Bool
  | .locked _ _ | .noted _ _ | .releasing .kvdecodeChat _ => true
  | _ => false

/-- Has recorded a note that it has not cleared. -/
def NoteStage.owes : NoteStage → Bool
  | .noted _ _ | .releasing .deviceGuard _ => true
  | _ => false

inductive NoteCall
  | deviceGuard (what : String)
  | kvdecodeChat
  | proceed
  deriving DecidableEq

/-- The lock of the handle, or the fallback lock where there is none: one of the two is in use. -/
structure DeviceNote where
  handle : Bool
  holder : Option Nat
  deviceOwner : Option String
  callers : Nat → NoteStage

namespace DeviceNote

def move (place : Nat) (stage : NoteStage) (state : DeviceNote) : DeviceNote :=
  { state with callers := Function.update state.callers place stage }

/-- The next step of the caller at a place.  Who cannot go on stays where it is. -/
def step (event : Nat × NoteCall) (state : DeviceNote) : DeviceNote :=
  match state.callers event.1, event.2 with
  | .away, .deviceGuard what => state.move event.1 (.waits .deviceGuard what)
  | .away, .kvdecodeChat =>
      -- Without a handle the turn ends before any lock.
      if state.handle then state.move event.1 (.waits .kvdecodeChat "chat") else state
  | .waits site what, .proceed =>
      if state.holder = none then
        { state.move event.1 (.locked site what) with holder := some event.1 }
      else state
  | .locked site what, .proceed =>
      { state.move event.1 (.noted site what) with deviceOwner := some what }
  | .noted .deviceGuard what, .proceed =>
      { state.move event.1 (.releasing .deviceGuard what) with holder := none }
  | .releasing .deviceGuard _, .proceed =>
      { state.move event.1 .away with deviceOwner := none }
  | .noted .kvdecodeChat what, .proceed =>
      { state.move event.1 (.releasing .kvdecodeChat what) with deviceOwner := none }
  | .releasing .kvdecodeChat _, .proceed =>
      { state.move event.1 .away with holder := none }
  | _, _ => state

def start (handle : Bool) : DeviceNote where
  handle := handle
  holder := none
  deviceOwner := none
  callers := fun _ => .away

/-- The note names every caller between its recording and its release. -/
def Names (state : DeviceNote) : Prop :=
  ∀ place site what, state.callers place = .noted site what → state.deviceOwner = some what

/-- A free lock that nobody releases has no note. -/
def Rests (state : DeviceNote) : Prop :=
  state.holder = none → (∀ place site what, state.callers place ≠ .releasing site what) →
    state.deviceOwner = none

/-- Who clears the note behind the lock finds nobody recorded. -/
def ClearsOwn (event : Nat × NoteCall) (state : DeviceNote) : Prop :=
  ∀ left, state.callers event.1 = .releasing .deviceGuard left → event.2 = .proceed →
    ∀ place site what, state.callers place ≠ .noted site what

/-! ## What one step does -/

inductive Step (state : DeviceNote) : Nat × NoteCall → DeviceNote → Prop
  | rest {event} (stays : ∀ left, state.callers event.1 = .releasing .deviceGuard left →
      event.2 ≠ .proceed) : Step state event state
  | calls {place call site what} (here : state.callers place = .away) :
      Step state (place, call) (state.move place (.waits site what))
  | locks {place site what} (here : state.callers place = .waits site what)
      (free : state.holder = none) :
      Step state (place, .proceed)
        { state.move place (.locked site what) with holder := some place }
  | notes {place site what} (here : state.callers place = .locked site what) :
      Step state (place, .proceed)
        { state.move place (.noted site what) with deviceOwner := some what }
  | unlocksFirst {place what} (here : state.callers place = .noted .deviceGuard what) :
      Step state (place, .proceed)
        { state.move place (.releasing .deviceGuard what) with holder := none }
  | clearsLast {place what} (here : state.callers place = .releasing .deviceGuard what) :
      Step state (place, .proceed) { state.move place .away with deviceOwner := none }
  | clearsFirst {place what} (here : state.callers place = .noted .kvdecodeChat what) :
      Step state (place, .proceed)
        { state.move place (.releasing .kvdecodeChat what) with deviceOwner := none }
  | unlocksLast {place what} (here : state.callers place = .releasing .kvdecodeChat what) :
      Step state (place, .proceed) { state.move place .away with holder := none }

theorem step_cases (event : Nat × NoteCall) (state : DeviceNote) :
    Step state event (step event state) := by
  obtain ⟨place, call⟩ := event
  cases here : state.callers place with
  | away =>
      have stays : ∀ left, state.callers place = .releasing .deviceGuard left → call ≠ .proceed :=
        fun left other => by cases here.symm.trans other
      cases call with
      | deviceGuard what =>
          simp only [step, here]
          exact .calls here
      | kvdecodeChat =>
          simp only [step, here]
          split
          next => exact .calls here
          next => exact .rest stays
      | proceed =>
          simp only [step, here]
          exact .rest stays
  | waits site what =>
      have stays : ∀ left, state.callers place = .releasing .deviceGuard left → call ≠ .proceed :=
        fun left other => by cases here.symm.trans other
      cases call with
      | proceed =>
          simp only [step, here]
          split
          next free => exact .locks here free
          next => exact .rest stays
      | _ =>
          simp only [step, here]
          exact .rest stays
  | locked site what =>
      cases call with
      | proceed =>
          simp only [step, here]
          exact .notes here
      | _ =>
          simp only [step, here]
          exact .rest fun _ _ => nofun
  | noted site what =>
      cases call with
      | proceed =>
          cases site with
          | deviceGuard =>
              simp only [step, here]
              exact .unlocksFirst here
          | kvdecodeChat =>
              simp only [step, here]
              exact .clearsFirst here
      | _ =>
          simp only [step, here]
          exact .rest fun _ _ => nofun
  | releasing site what =>
      cases call with
      | proceed =>
          cases site with
          | deviceGuard =>
              simp only [step, here]
              exact .clearsLast here
          | kvdecodeChat =>
              simp only [step, here]
              exact .unlocksLast here
      | _ =>
          simp only [step, here]
          exact .rest fun _ _ => nofun

/-! ## Lock and note -/

/-- The lock is with the caller that says so. -/
def HeldBy (callers : Nat → NoteStage) (holder : Option Nat) : Prop :=
  ∀ place, (callers place).holds = true ↔ holder = some place

section Update

variable {callers : Nat → NoteStage} {holder : Option Nat} {place : Nat} {stage : NoteStage}

theorem HeldBy.kept (held : HeldBy callers holder) (same : stage.holds = (callers place).holds) :
    HeldBy (Function.update callers place stage) holder := by
  intro other
  by_cases own : other = place
  · subst own
    rw [Function.update_self, same]
    exact held other
  · rw [Function.update_of_ne own]
    exact held other

theorem HeldBy.taken (held : HeldBy callers none) (holds : stage.holds = true) :
    HeldBy (Function.update callers place stage) (some place) := by
  intro other
  by_cases own : other = place
  · subst own
    rw [Function.update_self]
    exact ⟨fun _ => rfl, fun _ => holds⟩
  · rw [Function.update_of_ne own]
    constructor
    · intro others
      cases (held other).mp others
    · intro mine
      exact absurd (Option.some.inj mine).symm own

theorem HeldBy.dropped (held : HeldBy callers holder) (held_here : (callers place).holds = true)
    (leaves : stage.holds = false) : HeldBy (Function.update callers place stage) none := by
  have mine := (held place).mp held_here
  intro other
  by_cases own : other = place
  · subst own
    rw [Function.update_self, leaves]
    exact ⟨nofun, nofun⟩
  · rw [Function.update_of_ne own]
    refine ⟨fun others => ?_, nofun⟩
    exact absurd (Option.some.inj (((held other).mp others).symm.trans mine)) own

/-- Nobody else has the lock. -/
theorem HeldBy.alone (held : HeldBy callers holder) (held_here : (callers place).holds = true)
    {other : Nat} (held_there : (callers other).holds = true) : other = place :=
  Option.some.inj (((held other).mp held_there).symm.trans ((held place).mp held_here))

end Update

/-- The holder of the lock says so, and a note that stands is owed by somebody. -/
structure Sound (state : DeviceNote) : Prop where
  held : HeldBy state.callers state.holder
  owed : state.deviceOwner ≠ none → ∃ place, (state.callers place).owes = true

theorem start_sound (handle : Bool) : (start handle).Sound where
  held := fun _ => ⟨nofun, nofun⟩
  owed := fun noted => absurd rfl noted

/-- Who does not owe a note can move to anywhere. -/
theorem Sound.owed_move {state : DeviceNote} (sound : state.Sound) {place : Nat}
    (stage : NoteStage) (owes : (state.callers place).owes = true → stage.owes = true)
    (noted : state.deviceOwner ≠ none) :
    ∃ other, (Function.update state.callers place stage other).owes = true := by
  obtain ⟨other, owing⟩ := sound.owed noted
  refine ⟨other, ?_⟩
  by_cases own : other = place
  · subst own
    rw [Function.update_self]
    exact owes owing
  · rw [Function.update_of_ne own]
    exact owing

theorem Sound.step {event : Nat × NoteCall} {state : DeviceNote} (sound : state.Sound) :
    (DeviceNote.step event state).Sound := by
  have moved := step_cases event state
  generalize DeviceNote.step event state = next at moved ⊢
  cases moved with
  | rest => exact sound
  | calls here =>
      refine ⟨sound.held.kept (by rw [here]; rfl), sound.owed_move _ ?_⟩
      rw [here]
      exact nofun
  | locks here free =>
      have idle := sound.held
      rw [free] at idle
      refine ⟨idle.taken rfl, sound.owed_move _ ?_⟩
      rw [here]
      exact nofun
  | @notes place site what here =>
      refine ⟨sound.held.kept (by rw [here]; rfl), fun _ => ⟨place, ?_⟩⟩
      have now := Function.update_self place (NoteStage.noted site what) state.callers
      exact congrArg NoteStage.owes now
  | unlocksFirst here =>
      refine ⟨sound.held.dropped (by rw [here]; rfl) rfl, sound.owed_move _ fun _ => rfl⟩
  | clearsLast here =>
      exact ⟨sound.held.kept (by rw [here]; rfl), fun noted => absurd rfl noted⟩
  | clearsFirst here =>
      exact ⟨sound.held.kept (by rw [here]; rfl), fun noted => absurd rfl noted⟩
  | unlocksLast here =>
      refine ⟨sound.held.dropped (by rw [here]; rfl) rfl, sound.owed_move _ ?_⟩
      rw [here]
      exact nofun

/-- Nobody has a note to clear while the lock is free and nobody releases it. -/
theorem Sound.rests {state : DeviceNote} (sound : state.Sound) : state.Rests := by
  intro free none
  by_contra noted
  obtain ⟨place, owes⟩ := sound.owed noted
  cases stage : state.callers place with
  | noted site what =>
      have holds : (state.callers place).holds = true := by rw [stage]; rfl
      cases free.symm.trans ((sound.held place).mp holds)
  | releasing site what => exact none place site what stage
  | _ =>
      rw [stage] at owes
      cases owes

/-! ## Who is named -/

section Names

variable {state : DeviceNote} {place : Nat} {stage : NoteStage}

/-- A caller that does not get to the note itself leaves the others named. -/
theorem Names.kept (names : state.Names) (silent : ∀ site what, stage ≠ .noted site what)
    {other : Nat} {site : DeviceSite} {what : String}
    (noted : Function.update state.callers place stage other = .noted site what) :
    state.deviceOwner = some what := by
  by_cases own : other = place
  · subst own
    rw [Function.update_self] at noted
    exact absurd noted (silent site what)
  · rw [Function.update_of_ne own] at noted
    exact names other site what noted

/-- Where neither the note nor a recorded caller is touched, all stay named. -/
theorem Names.still_iff (names : state.Names) (silent : ∀ site what, stage ≠ .noted site what)
    {call : NoteCall} (early : ∀ left, state.callers place ≠ .releasing .deviceGuard left)
    {next : DeviceNote} (callers : next.callers = Function.update state.callers place stage)
    (owner : next.deviceOwner = state.deviceOwner) :
    next.Names ↔ state.ClearsOwn (place, call) := by
  constructor
  · intro _ left there
    exact absurd there (early left)
  · intro _ other site what noted
    rw [callers] at noted
    rw [owner]
    exact names.kept silent noted

/-- Who moves with the lock has nobody recorded beside it. -/
theorem Sound.noted_here (sound : state.Sound) (holds : (state.callers place).holds = true)
    {other : Nat} {site : DeviceSite} {what : String}
    (noted : Function.update state.callers place stage other = .noted site what) :
    other = place ∧ stage = .noted site what := by
  by_cases own : other = place
  · subst own
    rw [Function.update_self] at noted
    exact ⟨rfl, noted⟩
  · rw [Function.update_of_ne own] at noted
    exact absurd (sound.held.alone holds (by rw [noted]; rfl)) own

theorem names_step_iff (event : Nat × NoteCall) (sound : state.Sound) (names : state.Names) :
    (step event state).Names ↔ state.ClearsOwn event := by
  have moved := step_cases event state
  generalize step event state = next at moved ⊢
  cases moved with
  | rest stays => exact ⟨fun _ left here proceeds => absurd proceeds (stays left here), fun _ => names⟩
  | calls here =>
      refine names.still_iff ?_ ?_ rfl rfl
      · exact fun _ _ => nofun
      · intro left there
        cases here.symm.trans there
  | locks here free =>
      refine names.still_iff ?_ ?_ rfl rfl
      · exact fun _ _ => nofun
      · intro left there
        cases here.symm.trans there
  | @notes place site what here =>
      constructor
      · intro _ left there
        cases here.symm.trans there
      · intro _ other site' what' noted
        obtain ⟨-, now⟩ := sound.noted_here (by rw [here]; rfl) noted
        cases now
        rfl
  | unlocksFirst here =>
      refine names.still_iff ?_ ?_ rfl rfl
      · exact fun _ _ => nofun
      · intro left there
        cases here.symm.trans there
  | @clearsLast place what here =>
      constructor
      · intro next _ _ _ other site what' noted
        have own : other ≠ place := by
          rintro rfl
          cases here.symm.trans noted
        have still : Function.update state.callers place .away other = .noted site what' := by
          rw [Function.update_of_ne own]
          exact noted
        cases next other site what' still
      · intro clears other site what' noted
        have still : Function.update state.callers place .away other = .noted site what' := noted
        by_cases own : other = place
        · subst own
          rw [Function.update_self] at still
          cases still
        · rw [Function.update_of_ne own] at still
          exact absurd still (clears what here rfl other site what')
  | @clearsFirst place what here =>
      constructor
      · intro _ left there
        cases here.symm.trans there
      · intro _ other site what' noted
        obtain ⟨-, now⟩ := sound.noted_here (by rw [here]; rfl) noted
        cases now
  | unlocksLast here =>
      refine names.still_iff ?_ ?_ rfl rfl
      · exact fun _ _ => nofun
      · intro left there
        cases here.symm.trans there

end Names

/-- The note names the holder in every state, and rests when nobody is in it, exactly in the runs in
which nobody who clears the note behind the lock finds another caller recorded. -/
theorem deviceOwner_names_iff (handle : Bool) (events : List (Nat × NoteCall)) :
    (∀ reached, reached <+: events →
      (serveAll step reached (start handle)).Names ∧
        (serveAll step reached (start handle)).Rests) ↔
      GuardedRun step (fun event state => state.ClearsOwn event) events (start handle) := by
  have names : (start handle).Names := fun _ _ _ => nofun
  apply Iff.symm
  apply @GuardedRun.iff_along _ _ step _ Sound (fun state => state.Names ∧ state.Rests)
    (fun _ _ sound => sound.step) _ events (start handle) (start_sound handle)
    ⟨names, (start_sound handle).rests⟩
  intro event state sound property
  have decided := names_step_iff event sound property.1
  exact ⟨fun next => decided.mp next.1, fun clears => ⟨decided.mpr clears, sound.step.rests⟩⟩

/-- The first caller has dropped the lock when the second takes it and records its note; then the
first one clears it. -/
theorem deviceOwner_cleared :
    let state := serveAll step
      [(0, .deviceGuard "oneshot"), (0, .proceed), (0, .proceed), (1, .deviceGuard "embed"),
        (0, .proceed), (1, .proceed), (1, .proceed), (0, .proceed)] (start true)
    state.callers 1 = .noted .deviceGuard "embed" ∧ state.deviceOwner = none ∧ ¬ state.Names := by
  have noted : (serveAll step
      [(0, .deviceGuard "oneshot"), (0, .proceed), (0, .proceed), (1, .deviceGuard "embed"),
        (0, .proceed), (1, .proceed), (1, .proceed), (0, .proceed)] (start true)).callers 1 =
      .noted .deviceGuard "embed" := by decide
  refine ⟨noted, by decide, fun names => ?_⟩
  cases names 1 .deviceGuard "embed" noted

end DeviceNote

end KairosEngine.Daemon
