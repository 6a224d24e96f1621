import KairosEngine.Library.Loop

/-!
# Loops in loops

A pass over the members of a family in every round of a loop gives each member what the loop would
give it alone.
-/

namespace KairosEngine.Library

universe u v

/-- A loop whose steps all succeed on its own inputs. -/
theorem runEach_eq_foldl {State : Type u} {Input : Type v} {step : Input → State → Option State}
    {next : Input → State → State} {inputs : List Input}
    (each : ∀ input ∈ inputs, ∀ state, step input state = some (next input state)) (state : State) :
    runEach step inputs state = some (inputs.foldl (fun state input => next input state) state) := by
  induction inputs generalizing state with
  | nil => rfl
  | cons input rest inductionHypothesis =>
      rw [List.forall_mem_cons] at each
      rw [runEach, each.1, Option.bind_some, List.foldl_cons]
      exact inductionHypothesis each.2 _

variable {Member : Type u}

theorem runEach_eq_updateEach {step : Nat → (Nat → Member) → Option (Nat → Member)}
    {visit : Nat → Member → Member} {indices : List Nat}
    (each : ∀ index ∈ indices, ∀ family,
      step index family = some (Function.update family index (visit index (family index))))
    (family : Nat → Member) :
    runEach step indices family = some (updateEach visit indices family) := by
  induction indices generalizing family with
  | nil => rfl
  | cons index rest inductionHypothesis =>
      rw [List.forall_mem_cons] at each
      rw [runEach, each.1, Option.bind_some, updateEach]
      exact inductionHypothesis each.2 _

/-- The loops change places for a member. -/
theorem foldl_updateEach {Round : Type v} (visit : Round → Nat → Member → Member)
    {indices : List Nat} (distinct : indices.Nodup) (rounds : List Round) (family : Nat → Member)
    {index : Nat} (present : index ∈ indices) :
    rounds.foldl (fun family round => updateEach (visit round) indices family) family index =
      rounds.foldl (fun member round => visit round index member) (family index) := by
  induction rounds generalizing family with
  | nil => rfl
  | cons round rest inductionHypothesis =>
      rw [List.foldl_cons, List.foldl_cons, inductionHypothesis,
        updateEach_of_mem _ _ _ _ distinct present]

end KairosEngine.Library
