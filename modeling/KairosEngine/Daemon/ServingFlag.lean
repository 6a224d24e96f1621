import KairosEngine.Library.Loop

/-!
# The flag that mining backs off from

Every chat and dialogue request sets `inference_active` when it starts, and its `InferenceGuard`
clears it when its worker ends, whoever else is being served.
-/

namespace KairosEngine.Daemon

open KairosEngine.Library

inductive ServedRoute
  | v1Chat
  | v1Dialogue
  deriving DecidableEq

/-- How a worker ends; the guard is dropped on every way out. -/
inductive WorkerExit
  | returned
  | failed
  | panicked
  deriving DecidableEq

inductive ServingEvent
  | start (route : ServedRoute) (request : Nat)
  | drop (request : Nat) (exit : WorkerExit)
  deriving DecidableEq

/-- `inference_active` and the requests whose workers have not finished. -/
structure Serving where
  inferenceActive : Bool
  running : List Nat
  deriving DecidableEq

namespace Serving

/-- A request starts once, and only a running one ends. -/
def step (event : ServingEvent) (state : Serving) : Serving :=
  match event with
  | .start _ request =>
      if request ∈ state.running then state
      else { inferenceActive := true, running := request :: state.running }
  | .drop request _ =>
      if request ∈ state.running then
        { inferenceActive := false, running := state.running.erase request }
      else state

def idle : Serving where
  inferenceActive := false
  running := []

/-- What the mining loop reads says whether anyone is being served. -/
def Signals (state : Serving) : Prop :=
  state.inferenceActive = true ↔ state.running ≠ []

instance (state : Serving) : Decidable state.Signals := inferInstanceAs (Decidable (_ ↔ _))

/-- A request that ends is the only one running. -/
def EndsAlone (event : ServingEvent) (state : Serving) : Prop :=
  match event with
  | .start _ _ => True
  | .drop request _ => request ∈ state.running → state.running.erase request = []

instance (event : ServingEvent) (state : Serving) : Decidable (state.EndsAlone event) :=
  match event with
  | .start _ _ => .isTrue trivial
  | .drop _ _ => inferInstanceAs (Decidable (_ → _))

theorem signals_step_iff (event : ServingEvent) {state : Serving} (signals : state.Signals) :
    (step event state).Signals ↔ state.EndsAlone event := by
  cases event with
  | start route request =>
      refine ⟨fun _ => trivial, fun _ => ?_⟩
      rw [step]
      split
      next => exact signals
      next => exact ⟨fun _ => List.cons_ne_nil _ _, fun _ => rfl⟩
  | drop request exit =>
      rw [step]
      split
      next member =>
        constructor
        · intro next _
          by_contra others
          exact Bool.false_ne_true (next.mpr others)
        · intro alone
          exact ⟨fun raised => absurd raised Bool.false_ne_true,
            fun others => absurd (alone member) others⟩
      next absent => exact ⟨fun _ member => absurd member absent, fun _ => signals⟩

/-- The flag says in every state whether anyone is being served exactly in the runs in which no
request ends while another runs. -/
theorem inferenceActive_signals_iff (events : List ServingEvent) :
    (∀ reached, reached <+: events → (serveAll step reached idle).Signals) ↔
      GuardedRun step (fun event state => state.EndsAlone event) events idle := by
  have start : idle.Signals := by decide
  exact (@GuardedRun.iff_along _ _ step _ (fun _ => True) Signals (fun _ _ _ => trivial)
    (fun event state _ signals => signals_step_iff event signals) events idle trivial start).symm

/-- Two chats overlap; the first one's end clears the flag of the second. -/
theorem inferenceActive_cleared :
    let state := serveAll step
      [.start .v1Chat 0, .start .v1Chat 1, .drop 0 .returned] idle
    state.running = [1] ∧ state.inferenceActive = false ∧ ¬ state.Signals := by
  decide

/-- The other way round the flag never errs: while nobody is served it is clear. -/
theorem inactive_of_none_running (events : List ServingEvent)
    (none : (serveAll step events idle).running = []) :
    (serveAll step events idle).inferenceActive = false := by
  apply @serveAll_preserves _ _ step
    (fun state => state.running = [] → state.inferenceActive = false) _ events idle
    (fun _ => rfl) none
  intro event state kept
  cases event with
  | start route request =>
      rw [step]
      split
      next => exact kept
      next => exact fun empty => absurd empty (List.cons_ne_nil _ _)
  | drop request exit =>
      rw [step]
      split
      next => exact fun _ => rfl
      next => exact kept

end Serving

end KairosEngine.Daemon
