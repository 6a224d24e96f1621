import Mathlib.Data.Prod.Lex
import Mathlib.Logic.Function.Iterate
import Mathlib.Tactic.Common

/-!
# Machines that run down

A machine goes from state to state until it comes to rest.  A predicate that holds in a state
exactly when the state is quiet and the predicate holds in the next one says that every state from
there on is quiet.
-/

namespace KairosEngine.Library

universe u v

variable {State : Type u} {next : State → State} {state : State}

/-- A machine comes to rest when every step in front of that lowers its rank. -/
theorem exists_iterate_rest {Rank : Type v} [LT Rank] [WellFoundedLT Rank] {rest : State → Prop}
    (rank : State → Rank) (lower : ∀ state, ¬ rest state → rank (next state) < rank state)
    (state : State) : ∃ count, rest (next^[count] state) := by
  induction state using (InvImage.wf rank wellFounded_lt).induction with
  | h state inductionHypothesis =>
      by_cases here : rest state
      · exact ⟨0, here⟩
      · obtain ⟨count, rested⟩ := inductionHypothesis (next state) (lower state here)
        exact ⟨count + 1, rested⟩

variable {quiet settled : State → Prop}

theorem quiet_of_settled (unfolds : ∀ state, settled state ↔ quiet state ∧ settled (next state))
    (here : settled state) (count : Nat) : quiet (next^[count] state) := by
  induction count generalizing state with
  | zero => exact ((unfolds state).mp here).1
  | succ count inductionHypothesis => exact inductionHypothesis ((unfolds state).mp here).2

/-- Where the machine comes to rest, the predicate is nothing but the quiet of its states. -/
theorem settled_iff_quiet (unfolds : ∀ state, settled state ↔ quiet state ∧ settled (next state))
    (ends : ∃ count, settled (next^[count] state)) :
    settled state ↔ ∀ count, quiet (next^[count] state) := by
  constructor
  · exact fun here count => quiet_of_settled unfolds here count
  · obtain ⟨count, ended⟩ := ends
    intro quiets
    induction count generalizing state with
    | zero => exact ended
    | succ count inductionHypothesis =>
        rw [unfolds state]
        exact ⟨quiets 0, inductionHypothesis ended fun later => quiets (later + 1)⟩

end KairosEngine.Library
