import Mathlib.Data.List.Basic

/-!
# Fisher–Yates shuffles

Positions are walked from the last one down, and each is swapped with one drawn from those up to it.
Whatever is drawn, the entries stay the same ones.
-/

namespace KairosEngine.Library

universe u v

section Shuffle

variable {Entry : Type u} {State : Type v} (draw : State → State × Nat)

/-- The positions from `last` down to the second one; the first is not drawn for. -/
def fisherYates : Nat → Array Entry → State → Array Entry
  | 0, entries, _ => entries
  | last + 1, entries, state =>
      fisherYates last
        (entries.swapIfInBounds (last + 1) ((draw state).2 % (last + 2))) (draw state).1

theorem swapIfInBounds_perm (entries : Array Entry) (first second : Nat) :
    (entries.swapIfInBounds first second).Perm entries := by
  rw [Array.swapIfInBounds_def]
  split
  next inside =>
    split
    next => exact Array.swap_perm _ _
    next => exact Array.Perm.refl _
  next => exact Array.Perm.refl _

theorem fisherYates_perm (last : Nat) (entries : Array Entry) (state : State) :
    (fisherYates draw last entries state).Perm entries := by
  induction last generalizing entries state with
  | zero => exact Array.Perm.refl _
  | succ last inductionHypothesis =>
      exact (inductionHypothesis _ _).trans (swapIfInBounds_perm entries _ _)

end Shuffle

end KairosEngine.Library
