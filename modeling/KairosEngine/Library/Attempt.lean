/-!
# Attempts that fail with a state

An attempt either returns a value or stops, and a stopped attempt still leaves a
state behind for whoever handles the failure.  `Ends` is the judgement with one
postcondition for each ending.
-/

namespace KairosEngine.Library

universe u v w

/-- How an attempt ends: with a value satisfying `returned`, or stopped in a state
satisfying `stopped`. -/
def Ends {State : Type u} {Value : Type v} (attempt : Except State Value)
    (returned : Value → Prop) (stopped : State → Prop) : Prop :=
  match attempt with
  | .ok value => returned value
  | .error state => stopped state

section Rules

variable {State : Type u} {Value Result : Type v}
  {returned : Value → Prop} {stopped : State → Prop}

@[simp]
theorem ends_ok (value : Value) :
    Ends (.ok value : Except State Value) returned stopped ↔ returned value := Iff.rfl

@[simp]
theorem ends_error (state : State) :
    Ends (.error state : Except State Value) returned stopped ↔ stopped state := Iff.rfl

@[simp]
theorem ends_pure (value : Value) :
    Ends (pure value : Except State Value) returned stopped ↔ returned value := Iff.rfl

theorem Ends.mono {attempt : Except State Value} {returned' : Value → Prop}
    {stopped' : State → Prop} (ends : Ends attempt returned stopped)
    (onReturn : ∀ value, returned value → returned' value)
    (onStop : ∀ state, stopped state → stopped' state) :
    Ends attempt returned' stopped' := by
  cases attempt with
  | ok value => exact onReturn value ends
  | error state => exact onStop state ends

theorem Ends.bind {attempt : Except State Value} {next : Value → Except State Result}
    {middle : Value → Prop} {returned : Result → Prop}
    (first : Ends attempt middle stopped)
    (second : ∀ value, middle value → Ends (next value) returned stopped) :
    Ends (attempt >>= next) returned stopped := by
  cases attempt with
  | ok value => exact second value first
  | error state => exact first

end Rules

end KairosEngine.Library
