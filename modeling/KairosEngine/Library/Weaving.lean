import Mathlib.Data.List.Basic

/-!
# Pieces with something put between them

A text that spells pieces in order, with members of a list put before the first, between two or
behind the last of them.
-/

namespace KairosEngine.Library

universe u

variable {Symbol : Type u}

inductive Woven (extras : List (List Symbol)) : List (List Symbol) → List Symbol → Prop
  | nil : Woven extras [] []
  | extra {extra : List Symbol} {pieces : List (List Symbol)} {text : List Symbol} :
      extra ∈ extras → Woven extras pieces text → Woven extras pieces (extra ++ text)
  | piece {piece : List Symbol} {pieces : List (List Symbol)} {text : List Symbol} :
      Woven extras pieces text → Woven extras (piece :: pieces) (piece ++ text)

namespace Woven

variable {extras more : List (List Symbol)} {first second : List (List Symbol)}
variable {before behind text : List Symbol}

theorem append (early : Woven extras first before) (late : Woven extras second behind) :
    Woven extras (first ++ second) (before ++ behind) := by
  induction early with
  | nil => exact late
  | extra listed _ inductionHypothesis =>
      rw [List.append_assoc]
      exact .extra listed inductionHypothesis
  | piece _ inductionHypothesis =>
      rw [List.append_assoc]
      exact .piece inductionHypothesis

theorem mono (subset : extras ⊆ more) (woven : Woven extras first text) :
    Woven more first text := by
  induction woven with
  | nil => exact .nil
  | extra listed _ inductionHypothesis => exact .extra (subset listed) inductionHypothesis
  | piece _ inductionHypothesis => exact .piece inductionHypothesis

/-- Nothing has to be put anywhere. -/
theorem plain (pieces : List (List Symbol)) : Woven extras pieces pieces.flatten := by
  induction pieces with
  | nil => exact .nil
  | cons piece rest inductionHypothesis => exact .piece inductionHypothesis

end Woven

end KairosEngine.Library
