import Mathlib.Data.List.Nodup
import Mathlib.Logic.Function.Basic

/-!
# Loops over indexed families

The loop shapes that the verified programs share: a pass that rewrites one member of
a family per iteration, a loop whose steps may fail, and a run of requests whose steps
preserve an invariant under a guard.
-/

namespace KairosEngine.Library

universe u v

/-- Visit the given indices in order, rewriting the visited member only. -/
def updateEach {Member : Type u} (visit : Nat → Member → Member) :
    List Nat → (Nat → Member) → Nat → Member
  | [], family => family
  | index :: rest, family =>
      updateEach visit rest (Function.update family index (visit index (family index)))

theorem updateEach_of_notMem {Member : Type u} (visit : Nat → Member → Member)
    (indices : List Nat) (family : Nat → Member) (index : Nat)
    (absent : index ∉ indices) :
    updateEach visit indices family index = family index := by
  induction indices generalizing family with
  | nil => rfl
  | cons head rest inductionHypothesis =>
      simp only [List.mem_cons, not_or] at absent
      simp only [updateEach]
      rw [inductionHypothesis _ absent.2, Function.update_of_ne absent.1]

theorem updateEach_of_mem {Member : Type u} (visit : Nat → Member → Member)
    (indices : List Nat) (family : Nat → Member) (index : Nat)
    (distinct : indices.Nodup) (present : index ∈ indices) :
    updateEach visit indices family index = visit index (family index) := by
  induction indices generalizing family with
  | nil => simp at present
  | cons head rest inductionHypothesis =>
      rw [List.nodup_cons] at distinct
      simp only [updateEach]
      by_cases visited : index = head
      · subst visited
        rw [updateEach_of_notMem _ _ _ _ distinct.1, Function.update_self]
      · have later : index ∈ rest := (List.mem_cons.mp present).resolve_left visited
        rw [inductionHypothesis _ distinct.2 later, Function.update_of_ne visited]

/-- Run a step that may fail on every input in turn, stopping at a failure. -/
def runEach {State : Type u} {Input : Type v} (step : Input → State → Option State) :
    List Input → State → Option State
  | [], state => some state
  | input :: rest, state => (step input state).bind (runEach step rest)

/-- A relation that every successful step preserves holds after the loop. -/
theorem runEach_preserves {State : Type u} {Input : Type v}
    {step : Input → State → Option State} {invariant : State → Prop}
    (preserved : ∀ input state next, step input state = some next →
      invariant state → invariant next)
    {inputs : List Input} {state final : State}
    (run : runEach step inputs state = some final) (initial : invariant state) :
    invariant final := by
  induction inputs generalizing state with
  | nil =>
      cases run
      exact initial
  | cons input rest inductionHypothesis =>
      obtain ⟨next, stepped, continued⟩ := Option.bind_eq_some_iff.mp run
      exact inductionHypothesis continued (preserved input state next stepped initial)

theorem runEach_append {State : Type u} {Input : Type v} {step : Input → State → Option State}
    {first second : List Input} {state middle : State}
    (run : runEach step first state = some middle) :
    runEach step (first ++ second) state = runEach step second middle := by
  induction first generalizing state with
  | nil =>
      cases run
      rfl
  | cons input rest inductionHypothesis =>
      obtain ⟨next, stepped, continued⟩ := Option.bind_eq_some_iff.mp run
      rw [List.cons_append, runEach, stepped, Option.bind_some, inductionHypothesis continued]

/-- A loop over two runs of inputs goes through the state that the first ends in. -/
theorem runEach_append_eq_some {State : Type u} {Input : Type v}
    {step : Input → State → Option State} {first second : List Input} {state final : State} :
    runEach step (first ++ second) state = some final ↔
      ∃ middle, runEach step first state = some middle ∧
        runEach step second middle = some final := by
  induction first generalizing state with
  | nil =>
      constructor
      · exact fun run => ⟨state, rfl, run⟩
      · rintro ⟨middle, before, run⟩
        cases before
        exact run
  | cons input rest inductionHypothesis =>
      rw [List.cons_append, runEach, runEach, Option.bind_eq_some_iff]
      constructor
      · rintro ⟨next, stepped, run⟩
        obtain ⟨middle, before, after⟩ := inductionHypothesis.mp run
        exact ⟨middle, Option.bind_eq_some_iff.mpr ⟨next, stepped, before⟩, after⟩
      · rintro ⟨middle, before, after⟩
        obtain ⟨next, stepped, continued⟩ := Option.bind_eq_some_iff.mp before
        exact ⟨next, stepped, inductionHypothesis.mpr ⟨middle, continued, after⟩⟩

/-- A loop over an initial segment whose every step succeeds, with an invariant per index. -/
theorem runEach_range {State : Type u} {step : Nat → State → Option State}
    {invariant : Nat → State → Prop} {count : Nat}
    (stepped : ∀ index < count, ∀ state, invariant index state →
      ∃ next, step index state = some next ∧ invariant (index + 1) next)
    {state : State} (initial : invariant 0 state) :
    ∃ final, runEach step (List.range count) state = some final ∧ invariant count final := by
  induction count with
  | zero => exact ⟨state, rfl, initial⟩
  | succ count inductionHypothesis =>
      obtain ⟨middle, run, held⟩ :=
        inductionHypothesis fun index below => stepped index (Nat.lt_succ_of_lt below)
      obtain ⟨final, last, established⟩ := stepped count (Nat.lt_succ_self count) middle held
      refine ⟨final, ?_, established⟩
      rw [List.range_succ, runEach_append run, runEach, last, Option.bind_some, runEach]

/-- Steps that all succeed give their results in order. -/
theorem mapM_eq_some_map {Input : Type u} {Output : Type v} {step : Input → Option Output}
    {result : Input → Output} {inputs : List Input}
    (each : ∀ input ∈ inputs, step input = some (result input)) :
    inputs.mapM step = some (inputs.map result) := by
  induction inputs with
  | nil => rfl
  | cons input rest inductionHypothesis =>
      rw [List.forall_mem_cons] at each
      rw [List.mapM_cons, each.1, inductionHypothesis each.2]
      rfl

theorem mapM_congr_mem {Input : Type u} {Output : Type v} {step other : Input → Option Output}
    {inputs : List Input} (same : ∀ input ∈ inputs, step input = other input) :
    inputs.mapM step = inputs.mapM other := by
  induction inputs with
  | nil => rfl
  | cons input rest inductionHypothesis =>
      rw [List.forall_mem_cons] at same
      rw [List.mapM_cons, List.mapM_cons, same.1, inductionHypothesis same.2]

/-- Every input meets the guard in the state it finds, as far as the loop gets. -/
def GuardedEach {State : Type u} {Input : Type v} (step : Input → State → Option State)
    (guard : Input → State → Prop) : List Input → State → Prop
  | [], _ => True
  | input :: rest, state =>
      guard input state ∧ ∀ next, step input state = some next → GuardedEach step guard rest next

/-- What every guarded step preserves holds after a guarded loop. -/
theorem GuardedEach.preserves {State : Type u} {Input : Type v}
    {step : Input → State → Option State} {guard : Input → State → Prop}
    {invariant : State → Prop}
    (preserved : ∀ input state next, guard input state → step input state = some next →
      invariant state → invariant next)
    {inputs : List Input} {state final : State} (guarded : GuardedEach step guard inputs state)
    (run : runEach step inputs state = some final) (initial : invariant state) :
    invariant final := by
  induction inputs generalizing state with
  | nil =>
      cases run
      exact initial
  | cons input rest inductionHypothesis =>
      obtain ⟨next, stepped, continued⟩ := Option.bind_eq_some_iff.mp run
      exact inductionHypothesis (guarded.2 next stepped) continued
        (preserved input state next guarded.1 stepped initial)

/-- A loop whose steps succeed exactly under the guard succeeds exactly when every input meets it. -/
theorem GuardedEach.succeeds_iff {State : Type u} {Input : Type v}
    {step : Input → State → Option State} {guard : Input → State → Prop}
    (succeeds : ∀ input state, (∃ next, step input state = some next) ↔ guard input state)
    {inputs : List Input} {state : State} :
    (∃ final, runEach step inputs state = some final) ↔ GuardedEach step guard inputs state := by
  induction inputs generalizing state with
  | nil => exact ⟨fun _ => trivial, fun _ => ⟨state, rfl⟩⟩
  | cons input rest inductionHypothesis =>
      constructor
      · rintro ⟨final, run⟩
        obtain ⟨next, stepped, continued⟩ := Option.bind_eq_some_iff.mp run
        refine ⟨(succeeds input state).mp ⟨next, stepped⟩, fun other same => ?_⟩
        obtain rfl := Option.some.inj (stepped.symm.trans same)
        exact inductionHypothesis.mp ⟨final, continued⟩
      · rintro ⟨met, later⟩
        obtain ⟨next, stepped⟩ := (succeeds input state).mpr met
        obtain ⟨final, continued⟩ := inductionHypothesis.mpr (later next stepped)
        exact ⟨final, Option.bind_eq_some_iff.mpr ⟨next, stepped, continued⟩⟩

/-- What an invariant of all steps gives in every state guards every loop. -/
theorem GuardedEach.of_invariant {State : Type u} {Input : Type v}
    {step : Input → State → Option State} {guard : Input → State → Prop}
    {invariant : State → Prop} {allowed : Input → Prop}
    (preserved : ∀ input state next, allowed input → step input state = some next →
      invariant state → invariant next)
    (gives : ∀ input state, allowed input → invariant state → guard input state)
    {inputs : List Input} {state : State} (all : ∀ input ∈ inputs, allowed input)
    (initial : invariant state) : GuardedEach step guard inputs state := by
  induction inputs generalizing state with
  | nil => trivial
  | cons input rest inductionHypothesis =>
      rw [List.forall_mem_cons] at all
      refine ⟨gives input state all.1 initial, fun next stepped => ?_⟩
      exact inductionHypothesis all.2 (preserved input state next all.1 stepped initial)

/-! ## Guarded runs -/

section Runs

variable {State : Type u} {Request : Type v} (step : Request → State → State)

/-- The state that serving the requests in order leads to. -/
def serveAll : List Request → State → State
  | [], state => state
  | request :: rest, state => serveAll rest (step request state)

theorem serveAll_append (first second : List Request) (state : State) :
    serveAll step (first ++ second) state = serveAll step second (serveAll step first state) := by
  induction first generalizing state with
  | nil => rfl
  | cons request rest inductionHypothesis => exact inductionHypothesis (step request state)

/-- Every request meets the guard in the state it finds. -/
def GuardedRun (guard : Request → State → Prop) : List Request → State → Prop
  | [], _ => True
  | request :: rest, state => guard request state ∧ GuardedRun guard rest (step request state)

instance GuardedRun.decidable (guard : Request → State → Prop)
    [∀ request state, Decidable (guard request state)] :
    ∀ requests state, Decidable (GuardedRun step guard requests state)
  | [], _ => .isTrue trivial
  | request :: rest, state =>
      have := GuardedRun.decidable guard rest (step request state)
      inferInstanceAs (Decidable (_ ∧ _))

variable {step} {guard : Request → State → Prop}

/-- What every step preserves holds after any requests. -/
theorem serveAll_preserves {invariant : State → Prop}
    (preserved : ∀ request state, invariant state → invariant (step request state))
    (requests : List Request) {state : State} (initial : invariant state) :
    invariant (serveAll step requests state) := by
  induction requests generalizing state with
  | nil => exact initial
  | cons request rest inductionHypothesis =>
      exact inductionHypothesis (preserved request state initial)

theorem GuardedRun.take {requests : List Request} {state : State}
    (guarded : GuardedRun step guard requests state) (count : Nat) :
    GuardedRun step guard (requests.take count) state := by
  induction requests generalizing state count with
  | nil => simp [GuardedRun]
  | cons request rest inductionHypothesis =>
      cases count with
      | zero => trivial
      | succ count => exact ⟨guarded.1, inductionHypothesis guarded.2 count⟩

theorem GuardedRun.append_iff {first second : List Request} {state : State} :
    GuardedRun step guard (first ++ second) state ↔
      GuardedRun step guard first state ∧
        GuardedRun step guard second (serveAll step first state) := by
  induction first generalizing state with
  | nil => simp [GuardedRun, serveAll]
  | cons request rest inductionHypothesis =>
      simp only [List.cons_append, GuardedRun, serveAll, inductionHypothesis, and_assoc]

/-- Requests that leave the state as it is can go first. -/
theorem GuardedRun.idle_append {idle rest : List Request} {state : State}
    (still : ∀ request ∈ idle, guard request state ∧ step request state = state)
    (guarded : GuardedRun step guard rest state) : GuardedRun step guard (idle ++ rest) state := by
  induction idle with
  | nil => exact guarded
  | cons request others inductionHypothesis =>
      rw [List.forall_mem_cons] at still
      refine ⟨still.1.1, ?_⟩
      rw [still.1.2]
      exact inductionHypothesis still.2

/-- What every guarded step preserves holds in the last state of a guarded run. -/
theorem GuardedRun.preserves {invariant : State → Prop}
    (preserved : ∀ request state, guard request state → invariant state →
      invariant (step request state))
    {requests : List Request} {state : State} (guarded : GuardedRun step guard requests state)
    (initial : invariant state) : invariant (serveAll step requests state) := by
  induction requests generalizing state with
  | nil => exact initial
  | cons request rest inductionHypothesis =>
      exact inductionHypothesis guarded.2 (preserved request state guarded.1 initial)

/-- What a guard and an invariant give in every state holds along the whole run. -/
theorem GuardedRun.establishes {invariant : State → Prop} {other : Request → State → Prop}
    (preserved : ∀ request state, guard request state → invariant state →
      invariant (step request state))
    (gives : ∀ request state, guard request state → invariant state → other request state)
    {requests : List Request} {state : State} (guarded : GuardedRun step guard requests state)
    (initial : invariant state) : GuardedRun step other requests state := by
  induction requests generalizing state with
  | nil => trivial
  | cons request rest inductionHypothesis =>
      exact ⟨gives request state guarded.1 initial,
        inductionHypothesis guarded.2 (preserved request state guarded.1 initial)⟩

/-- Guards that agree wherever an invariant of all steps holds guard the same runs. -/
theorem GuardedRun.congr {invariant : State → Prop} {other : Request → State → Prop}
    (kept : ∀ request state, invariant state → invariant (step request state))
    (same : ∀ request state, invariant state → (guard request state ↔ other request state))
    {requests : List Request} {state : State} (initial : invariant state) :
    GuardedRun step guard requests state ↔ GuardedRun step other requests state := by
  induction requests generalizing state with
  | nil => exact Iff.rfl
  | cons request rest inductionHypothesis =>
      exact and_congr (same request state initial)
        (inductionHypothesis (kept request state initial))

/-- Where the guard decides step by step whether a property is kept, the guarded runs are those with
the property in every state they reach. -/
theorem GuardedRun.iff_along {invariant property : State → Prop}
    (kept : ∀ request state, invariant state → invariant (step request state))
    (decides : ∀ request state, invariant state → property state →
      (property (step request state) ↔ guard request state))
    {requests : List Request} {state : State} (sound : invariant state) (initial : property state) :
    GuardedRun step guard requests state ↔
      ∀ reached, reached <+: requests → property (serveAll step reached state) := by
  induction requests generalizing state with
  | nil =>
      refine ⟨fun _ reached early => ?_, fun _ => trivial⟩
      rw [List.prefix_nil.mp early]
      exact initial
  | cons request rest inductionHypothesis =>
      constructor
      · rintro ⟨met, guarded⟩ reached early
        have next := (decides request state sound initial).mpr met
        rcases List.prefix_cons_iff.mp early with rfl | ⟨later, rfl, before⟩
        · exact initial
        · exact (inductionHypothesis (kept request state sound) next).mp guarded later before
      · intro along
        have next := along [request] ⟨rest, rfl⟩
        refine ⟨(decides request state sound initial).mp next, ?_⟩
        apply (inductionHypothesis (kept request state sound) next).mpr
        exact fun later before => along (request :: later) (List.prefix_cons_inj request |>.mpr before)

/-- Where no step shrinks the state and the guard decides whether a step leaves its size, the guarded
runs are those that end with the size they began with. -/
theorem GuardedRun.iff_still {invariant : State → Prop} {size : State → Nat}
    (kept : ∀ request state, invariant state → invariant (step request state))
    (grows : ∀ request state, invariant state → size state ≤ size (step request state))
    (decides : ∀ request state, invariant state →
      (size (step request state) = size state ↔ guard request state))
    {requests : List Request} {state : State} (sound : invariant state) :
    GuardedRun step guard requests state ↔ size (serveAll step requests state) = size state := by
  have longer : ∀ requests state, invariant state → size state ≤ size (serveAll step requests state) := by
    intro requests
    induction requests with
    | nil => exact fun state _ => Nat.le_refl (size state)
    | cons request rest inductionHypothesis =>
        exact fun state sound => Nat.le_trans (grows request state sound)
          (inductionHypothesis (step request state) (kept request state sound))
  induction requests generalizing state with
  | nil => exact iff_of_true trivial rfl
  | cons request rest inductionHypothesis =>
      have next := kept request state sound
      have later := inductionHypothesis next
      constructor
      · rintro ⟨met, guarded⟩
        exact (later.mp guarded).trans ((decides request state sound).mpr met)
      · intro same
        have here : size (step request state) = size state :=
          Nat.le_antisymm (same ▸ longer rest (step request state) next)
            (grows request state sound)
        exact ⟨(decides request state sound).mp here, later.mpr (same.trans here.symm)⟩

end Runs

end KairosEngine.Library
