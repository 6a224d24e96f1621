import KairosEngine.Library.Loop
import KairosEngine.Library.TaskPool

/-!
# Who gets the device next

Foreground turns register with `FgIntent` before they queue for the device lock, and background
callers hold in `yield_to_foreground` while anyone is registered.  The check and the lock are two
steps, and the mutex goes to any thread that waits for it.
-/

namespace KairosEngine.Daemon

open KairosEngine.Library

/-- Where a thread stands. -/
inductive DeviceStage
  | idle
  /-- `FgIntent::new` is done; the turn waits for the lock. -/
  | registered
  /-- The turn has the lock and its `FgIntent` is not dropped yet. -/
  | entered
  | turn
  /-- In the loop of `yield_to_foreground`. -/
  | yielding
  /-- Behind `yield_to_foreground`; the background caller waits for the lock. -/
  | queued
  | working
  deriving DecidableEq

inductive DeviceCall
  | turn
  | background
  | proceed
  deriving DecidableEq

structure DeviceLock where
  fgWaiting : Nat
  owner : Option Nat
  deriving DecidableEq

structure DeviceState where
  lock : DeviceLock
  threads : List DeviceStage
  deriving DecidableEq

/-- The next step of the thread at a place.  Who cannot go on stays where it is. -/
def DeviceStage.step (place : Nat) (call : DeviceCall) (lock : DeviceLock) (stage : DeviceStage) :
    DeviceLock × DeviceStage :=
  match stage, call with
  | .idle, .turn => ({ lock with fgWaiting := lock.fgWaiting + 1 }, .registered)
  | .idle, .background => (lock, .yielding)
  | .registered, .proceed =>
      if lock.owner = none then ({ lock with owner := some place }, .entered)
      else (lock, .registered)
  | .entered, .proceed => ({ lock with fgWaiting := lock.fgWaiting - 1 }, .turn)
  | .yielding, .proceed => if 0 < lock.fgWaiting then (lock, .yielding) else (lock, .queued)
  | .queued, .proceed =>
      if lock.owner = none then ({ lock with owner := some place }, .working)
      else (lock, .queued)
  | .turn, .proceed => ({ lock with owner := none }, .idle)
  | .working, .proceed => ({ lock with owner := none }, .idle)
  | stage, _ => (lock, stage)

namespace DeviceState

def step (event : Nat × DeviceCall) (state : DeviceState) : DeviceState :=
  match state.threads[event.1]? with
  | none => state
  | some stage =>
      { lock := (stage.step event.1 event.2 state.lock).1
        threads := state.threads.modify event.1 fun stage =>
          (stage.step event.1 event.2 state.lock).2 }

def start (count : Nat) : DeviceState where
  lock := ⟨0, none⟩
  threads := List.replicate count .idle

def run (count : Nat) (events : List (Nat × DeviceCall)) : DeviceState :=
  serveAll step events (start count)

/-- A background caller acquires the device lock in this step. -/
def Begins (event : Nat × DeviceCall) (state : DeviceState) : Prop :=
  state.threads[event.1]? = some .queued ∧ event.2 = .proceed ∧ state.lock.owner = none

instance (event : Nat × DeviceCall) (state : DeviceState) : Decidable (state.Begins event) :=
  inferInstanceAs (Decidable (_ ∧ _ ∧ _))

/-- No turn that has registered still waits when background work begins. -/
def TurnsFirst (event : Nat × DeviceCall) (state : DeviceState) : Prop :=
  state.Begins event → .registered ∉ state.threads

instance (event : Nat × DeviceCall) (state : DeviceState) : Decidable (state.TurnsFirst event) :=
  inferInstanceAs (Decidable (_ → _))

/-- Nobody is between the check and the lock when a turn registers. -/
def NoneBetween (event : Nat × DeviceCall) (state : DeviceState) : Prop :=
  state.threads[event.1]? = some .idle → event.2 = .turn → .queued ∉ state.threads

instance (event : Nat × DeviceCall) (state : DeviceState) : Decidable (state.NoneBetween event) :=
  inferInstanceAs (Decidable (_ → _ → _))

end DeviceState

/-! ## What one step does -/

inductive DeviceMove (place : Nat) (lock : DeviceLock) :
    DeviceCall → DeviceStage → DeviceLock → DeviceStage → Prop
  | rest {call stage} : DeviceMove place lock call stage lock stage
  | registers : DeviceMove place lock .turn .idle { lock with fgWaiting := lock.fgWaiting + 1 }
      .registered
  | yields : DeviceMove place lock .background .idle lock .yielding
  | enters (free : lock.owner = none) :
      DeviceMove place lock .proceed .registered { lock with owner := some place } .entered
  | deregisters :
      DeviceMove place lock .proceed .entered { lock with fgWaiting := lock.fgWaiting - 1 } .turn
  | passes (none : lock.fgWaiting = 0) : DeviceMove place lock .proceed .yielding lock .queued
  | begins (free : lock.owner = none) :
      DeviceMove place lock .proceed .queued { lock with owner := some place } .working
  | ends : DeviceMove place lock .proceed .turn { lock with owner := none } .idle
  | stops : DeviceMove place lock .proceed .working { lock with owner := none } .idle

theorem DeviceStage.step_move (place : Nat) (call : DeviceCall) (lock : DeviceLock)
    (stage : DeviceStage) :
    DeviceMove place lock call stage (stage.step place call lock).1
      (stage.step place call lock).2 := by
  unfold DeviceStage.step
  split
  next => exact .registers
  next => exact .yields
  next =>
    split
    next free => exact .enters free
    next => exact .rest
  next => exact .deregisters
  next =>
    split
    next => exact .rest
    next none => exact .passes (Nat.eq_zero_of_not_pos none)
  next =>
    split
    next free => exact .begins free
    next => exact .rest
  next => exact .ends
  next => exact .stops
  next => exact .rest

/-- The stages that `FG_WAITING` counts. -/
def DeviceStage.waiting : DeviceStage → Bool
  | .registered | .entered => true
  | _ => false

def DeviceStage.owns : DeviceStage → Bool
  | .entered | .turn | .working => true
  | _ => false

variable {place : Nat} {lock after : DeviceLock} {call : DeviceCall} {stage moved : DeviceStage}

/-- The counter changes with the thread that moves. -/
theorem DeviceMove.counts (move : DeviceMove place lock call stage after moved)
    (counted : stage.waiting.toNat ≤ lock.fgWaiting) :
    after.fgWaiting + stage.waiting.toNat = lock.fgWaiting + moved.waiting.toNat := by
  cases move with
  | deregisters => exact Nat.sub_add_cancel counted
  | _ => rfl

theorem DeviceMove.owner (move : DeviceMove place lock call stage after moved) :
    after.owner = lock.owner ∧ moved.owns = stage.owns ∨
      after.owner = some place ∧ moved.owns = true ∨ after.owner = none := by
  cases move with
  | enters => exact Or.inr (Or.inl ⟨rfl, rfl⟩)
  | begins => exact Or.inr (Or.inl ⟨rfl, rfl⟩)
  | ends => exact Or.inr (Or.inr rfl)
  | stops => exact Or.inr (Or.inr rfl)
  | _ => exact Or.inl ⟨rfl, rfl⟩

/-- Nobody gets past the check while somebody is counted. -/
theorem DeviceMove.queued (move : DeviceMove place lock call stage after moved)
    (now : moved = .queued) : stage = .queued ∨ call = .proceed ∧ lock.fgWaiting = 0 := by
  cases move with
  | rest => exact Or.inl now
  | passes none => exact Or.inr ⟨rfl, none⟩
  | _ => cases now

theorem DeviceMove.registered (move : DeviceMove place lock call stage after moved)
    (now : moved = .registered) : stage = .registered ∨ stage = .idle ∧ call = .turn := by
  cases move with
  | rest => exact Or.inl now
  | registers => exact Or.inr ⟨rfl, rfl⟩
  | _ => cases now

namespace DeviceState

theorem step_cases (event : Nat × DeviceCall) (state : DeviceState) :
    step event state = state ∨ ∃ stage after moved,
      state.threads[event.1]? = some stage ∧
        DeviceMove event.1 state.lock event.2 stage after moved ∧
          (step event state).lock = after ∧
            (step event state).threads[event.1]? = some moved ∧
              (∀ place, place ≠ event.1 →
                (step event state).threads[place]? = state.threads[place]?) ∧
                (step event state).threads.countP DeviceStage.waiting + stage.waiting.toNat =
                  state.threads.countP DeviceStage.waiting + moved.waiting.toNat := by
  cases found : state.threads[event.1]? with
  | none => exact Or.inl (by simp [step, found])
  | some stage =>
      refine Or.inr ⟨stage, _, _, rfl, stage.step_move event.1 event.2 state.lock, ?_⟩
      simp only [step, found]
      refine ⟨trivial, ?_, fun place away => ?_, countP_modify DeviceStage.waiting found⟩
      · rw [List.getElem?_modify_eq, found]
        rfl
      · rw [List.getElem?_modify_ne _ _ (Ne.symm away)]

/-! ## The counter and the lock -/

/-- `FG_WAITING` counts the registered turns, and the lock is with a thread that holds it. -/
structure Sound (state : DeviceState) : Prop where
  counts : state.lock.fgWaiting = state.threads.countP DeviceStage.waiting
  owner : ∀ place, state.lock.owner = some place →
    ∃ stage, state.threads[place]? = some stage ∧ stage.owns = true

theorem start_sound (count : Nat) : (start count).Sound := by
  refine ⟨?_, nofun⟩
  have none : (List.replicate count DeviceStage.idle).countP DeviceStage.waiting = 0 := by
    rw [List.countP_eq_zero]
    intro stage member
    rw [List.eq_of_mem_replicate member]
    decide
  exact none.symm

theorem Sound.step {event : Nat × DeviceCall} {state : DeviceState} (sound : state.Sound) :
    (DeviceState.step event state).Sound := by
  obtain ⟨counts, owner⟩ := sound
  rcases step_cases event state with same | ⟨stage, after, moved, here, move, lock, now, rest,
    balance⟩
  · rw [same]
    exact ⟨counts, owner⟩
  refine ⟨?_, fun place held => ?_⟩
  · rw [lock]
    have counted : stage.waiting.toNat ≤ state.lock.fgWaiting := by
      rw [counts]
      cases waits : stage.waiting with
      | false => exact Nat.zero_le _
      | true => exact List.countP_pos_iff.mpr ⟨stage, List.mem_of_getElem? here, waits⟩
    have change := move.counts counted
    omega
  · rw [lock] at held
    rcases move.owner with ⟨same, owns⟩ | ⟨mine, owns⟩ | free
    · rw [same] at held
      obtain ⟨holder, there, holds⟩ := owner place held
      by_cases own : place = event.1
      · subst own
        cases here.symm.trans there
        exact ⟨moved, now, owns.trans holds⟩
      · exact ⟨holder, (rest place own).trans there, holds⟩
    · cases mine.symm.trans held
      exact ⟨moved, now, owns⟩
    · cases free.symm.trans held

/-- A registered turn is counted. -/
theorem Sound.counted {state : DeviceState} (sound : state.Sound)
    (waits : .registered ∈ state.threads) : 0 < state.lock.fgWaiting := by
  rw [sound.counts]
  exact List.countP_pos_iff.mpr ⟨.registered, waits, rfl⟩

/-! ## Whole runs -/

/-- No turn waits behind a background caller that may still begin. -/
structure Orderly (state : DeviceState) : Prop where
  sound : state.Sound
  apart : .registered ∈ state.threads → .queued ∉ state.threads

theorem start_orderly (count : Nat) : (start count).Orderly := by
  refine ⟨start_sound count, fun waits => ?_⟩
  cases List.eq_of_mem_replicate waits

theorem mem_step {event : Nat × DeviceCall} {state : DeviceState} {stage : DeviceStage}
    (member : stage ∈ (DeviceState.step event state).threads) :
    stage ∈ state.threads ∨ ∃ before after,
      state.threads[event.1]? = some before ∧
        DeviceMove event.1 state.lock event.2 before after stage := by
  rcases step_cases event state with same | ⟨before, after, moved, here, move, -, now, rest, -⟩
  · rw [same] at member
    exact Or.inl member
  · obtain ⟨place, there⟩ := List.mem_iff_getElem?.mp member
    by_cases own : place = event.1
    · subst own
      cases now.symm.trans there
      exact Or.inr ⟨before, after, here, move⟩
    · rw [rest place own] at there
      exact Or.inl (List.mem_of_getElem? there)

theorem queued_step {event : Nat × DeviceCall} {state : DeviceState}
    (member : .queued ∈ (DeviceState.step event state).threads) :
    .queued ∈ state.threads ∨ event.2 = .proceed ∧ state.lock.fgWaiting = 0 := by
  rcases mem_step member with before | ⟨stage, after, here, move⟩
  · exact Or.inl before
  · rcases move.queued rfl with same | none
    · exact Or.inl (List.mem_of_getElem? (same ▸ here))
    · exact Or.inr none

theorem registered_step {event : Nat × DeviceCall} {state : DeviceState}
    (member : .registered ∈ (DeviceState.step event state).threads) :
    .registered ∈ state.threads ∨
      state.threads[event.1]? = some .idle ∧ event.2 = .turn := by
  rcases mem_step member with before | ⟨stage, after, here, move⟩
  · exact Or.inl before
  · rcases move.registered rfl with same | ⟨same, registers⟩
    · exact Or.inl (List.mem_of_getElem? (same ▸ here))
    · exact Or.inr ⟨same ▸ here, registers⟩

theorem Orderly.step {event : Nat × DeviceCall} {state : DeviceState}
    (guard : state.NoneBetween event) (orderly : state.Orderly) :
    (DeviceState.step event state).Orderly := by
  refine ⟨orderly.sound.step, fun waits between => ?_⟩
  rcases registered_step waits with waited | ⟨here, registers⟩
  · rcases queued_step between with before | ⟨-, none⟩
    · exact orderly.apart waited before
    · exact Nat.ne_of_gt (orderly.sound.counted waited) none
  · rcases queued_step between with before | ⟨proceeds, -⟩
    · exact guard here registers before
    · cases proceeds.symm.trans registers

/-- While a registered turn waits no background caller acquires the lock, in every run in which
nobody is between the check and the lock when a turn registers. -/
theorem turns_first (count : Nat) (events : List (Nat × DeviceCall))
    (kept : GuardedRun step (fun event state => state.NoneBetween event) events (start count)) :
    GuardedRun step (fun event state => state.TurnsFirst event) events (start count) := by
  apply @GuardedRun.establishes _ _ step _ Orderly _ _ _ events _ kept (start_orderly count)
  · intro event state guard orderly
    exact orderly.step guard
  · intro event state _ orderly begins waits
    exact orderly.apart waits (List.mem_of_getElem? begins.1)

/-- Thread 0 takes a turn, and a background caller yields to it until it has the lock. -/
def yieldsToTurn : List (Nat × DeviceCall) :=
  [(0, .turn), (1, .background), (1, .proceed), (0, .proceed), (0, .proceed), (1, .proceed),
    (0, .proceed), (1, .proceed)]

theorem turns_first_yields :
    GuardedRun step (fun event state => state.TurnsFirst event) yieldsToTurn (start 2) :=
  turns_first 2 yieldsToTurn (by decide)

/-- The background caller has passed the check when thread 0 registers, and gets the lock first. -/
theorem background_first :
    ¬ GuardedRun step (fun event state => state.TurnsFirst event)
      [(1, .background), (1, .proceed), (0, .turn), (1, .proceed)] (start 2) := by
  decide

/-! ## Who is between the check and the lock gets ahead -/

theorem run_append_cons (count : Nat) (front : List (Nat × DeviceCall)) (event : Nat × DeviceCall)
    (mid : List (Nat × DeviceCall)) :
    run count (front ++ event :: mid) = serveAll step mid (step event (run count front)) :=
  serveAll_append step front (event :: mid) (start count)

theorem run_sound (count : Nat) (events : List (Nat × DeviceCall)) : (run count events).Sound :=
  serveAll_preserves (fun _ _ sound => Sound.step sound) events (start_sound count)

variable {state : DeviceState}

theorem serveAll_others {place : Nat} {more : List (Nat × DeviceCall)}
    (away : ∀ event ∈ more, event.1 ≠ place) :
    (serveAll step more state).threads[place]? = state.threads[place]? := by
  induction more generalizing state with
  | nil => rfl
  | cons event rest inductionHypothesis =>
      rw [List.forall_mem_cons] at away
      rw [serveAll, inductionHypothesis away.2]
      rcases step_cases event state with same | ⟨_, _, _, -, -, -, -, others, -⟩
      · rw [same]
      · exact others place (Ne.symm away.1)

theorem step_eq {event : Nat × DeviceCall} {stage : DeviceStage}
    (here : state.threads[event.1]? = some stage) :
    (step event state).lock = (stage.step event.1 event.2 state.lock).1 ∧
      (step event state).threads[event.1]? = some (stage.step event.1 event.2 state.lock).2 := by
  simp only [step, here]
  refine ⟨trivial, ?_⟩
  rw [List.getElem?_modify_eq, here]
  rfl

/-- The owner of the lock can give it back by itself. -/
theorem Sound.frees (sound : state.Sound) :
    ∃ more : List (Nat × DeviceCall), (serveAll DeviceState.step more state).lock.owner = none ∧
      ∀ event ∈ more, ∃ stage, state.threads[event.1]? = some stage ∧ stage.owns = true := by
  cases held : state.lock.owner with
  | none => exact ⟨[], held, nofun⟩
  | some place =>
      obtain ⟨stage, here, owns⟩ := sound.owner place held
      obtain ⟨lock, there⟩ := @step_eq state (place, .proceed) stage here
      cases stage with
      | entered =>
          obtain ⟨lockAfter, -⟩ := @step_eq (DeviceState.step (place, .proceed) state)
            (place, .proceed) .turn there
          refine ⟨[(place, .proceed), (place, .proceed)], congrArg DeviceLock.owner lockAfter, ?_⟩
          intro event member
          obtain rfl : event = (place, .proceed) := by simpa using member
          exact ⟨.entered, here, owns⟩
      | turn =>
          refine ⟨[(place, .proceed)], congrArg DeviceLock.owner lock, ?_⟩
          intro event member
          rw [List.mem_singleton.mp member]
          exact ⟨.turn, here, owns⟩
      | working =>
          refine ⟨[(place, .proceed)], congrArg DeviceLock.owner lock, ?_⟩
          intro event member
          rw [List.mem_singleton.mp member]
          exact ⟨.working, here, owns⟩
      | _ => cases owns

/-- Nobody gets between the check and the lock as long as a turn stays registered. -/
theorem Sound.none_queued {turn : Nat} {more : List (Nat × DeviceCall)} (sound : state.Sound)
    (none : .queued ∉ state.threads)
    (waits : ∀ seen, seen <+: more →
      (serveAll DeviceState.step seen state).threads[turn]? = some .registered) :
    .queued ∉ (serveAll DeviceState.step more state).threads := by
  induction more generalizing state with
  | nil => exact none
  | cons event rest inductionHypothesis =>
      apply inductionHypothesis sound.step
      · intro between
        rcases queued_step between with before | ⟨-, unregistered⟩
        · exact none before
        · have counted := sound.counted (List.mem_of_getElem? (waits [] List.nil_prefix))
          exact Nat.ne_of_gt counted unregistered
      · intro seen front
        exact waits (event :: seen) (List.cons_prefix_cons.mpr ⟨rfl, front⟩)

/-- A turn that registers is sure to come before all background work that has not begun exactly when
nobody is between the check and the lock at that moment. -/
theorem turn_first_iff (count : Nat) (events : List (Nat × DeviceCall)) (turn : Nat)
    (idle : (run count events).threads[turn]? = some .idle) :
    (∀ more, (∀ seen, seen <+: more →
        (run count (events ++ (turn, .turn) :: seen)).threads[turn]? = some .registered) →
      ∀ event, ¬ (run count (events ++ (turn, .turn) :: more)).Begins event) ↔
      .queued ∉ (run count events).threads := by
  have sound := run_sound count events
  have waiting : (step (turn, .turn) (run count events)).threads[turn]? = some .registered :=
    (@step_eq (run count events) (turn, .turn) .idle idle).2
  simp only [run_append_cons]
  constructor
  · intro first between
    obtain ⟨place, there⟩ := List.mem_iff_getElem?.mp between
    have apart : place ≠ turn := by
      rintro rfl
      cases idle.symm.trans there
    obtain ⟨more, free, owners⟩ := Sound.frees (@Sound.step (turn, .turn) _ sound)
    have stays : (step (turn, .turn) (run count events)).threads[place]? = some .queued :=
      (@serveAll_others _ place [(turn, .turn)] fun event member => by
        rw [List.mem_singleton.mp member]
        exact Ne.symm apart).trans there
    have away : ∀ {waiter stage}, stage.owns = false →
        (step (turn, .turn) (run count events)).threads[waiter]? = some stage →
        ∀ event ∈ more, event.1 ≠ waiter := by
      rintro waiter stage idles here event member rfl
      obtain ⟨owner, holds, owns⟩ := owners event member
      cases here.symm.trans holds
      cases owns.symm.trans idles
    apply first more _ (place, .proceed)
    · exact ⟨(serveAll_others (away rfl stays)).trans stays, rfl, free⟩
    · intro seen front
      refine (serveAll_others fun event member => ?_).trans waiting
      exact away rfl waiting event (front.subset member)
  · intro none more waits event begins
    refine Sound.none_queued (@Sound.step (turn, .turn) _ sound) (fun between => ?_) waits
      (List.mem_of_getElem? begins.1)
    rcases queued_step between with before | ⟨proceeds, -⟩
    · exact none before
    · cases proceeds

end DeviceState

end KairosEngine.Daemon
