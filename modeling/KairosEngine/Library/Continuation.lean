import Mathlib.Data.List.Basic

/-!
# Continuations of a history

A rule that picks the next token from the history so far continues the history to any length.
Two rules may be compared along the continuation that the first of them gives.
-/

namespace KairosEngine.Library

universe u

variable {Token : Type u}

/-- The next tokens, each picked from the history and the tokens before it. -/
def continuation (next : List Token → Token) (history : List Token) : Nat → List Token
  | 0 => []
  | count + 1 =>
      continuation next history count ++ [next (history ++ continuation next history count)]

variable {next other : List Token → Token} {history : List Token}

@[simp]
theorem continuation_length (count : Nat) :
    (continuation next history count).length = count := by
  induction count with
  | zero => rfl
  | succ count inductionHypothesis =>
      rw [continuation, List.length_append, inductionHypothesis, List.length_singleton]

/-- The first token, and the continuation of the history with it. -/
theorem continuation_succ (count : Nat) :
    continuation next history (count + 1) =
      next history :: continuation next (history ++ [next history]) count := by
  induction count with
  | zero =>
      rw [continuation, continuation, continuation, List.append_nil, List.nil_append]
  | succ count inductionHypothesis =>
      rw [continuation, inductionHypothesis, continuation, List.cons_append, List.append_assoc,
        List.singleton_append]

theorem continuation_begins {count total : Nat} (within : count ≤ total) :
    continuation next history count <+: continuation next history total := by
  induction total with
  | zero =>
      obtain rfl := Nat.le_zero.mp within
      exact List.prefix_rfl
  | succ total inductionHypothesis =>
      rcases Nat.lt_or_eq_of_le within with earlier | rfl
      · exact (inductionHypothesis (Nat.le_of_lt_succ earlier)).trans (List.prefix_append _ _)
      · exact List.prefix_rfl

theorem take_continuation {count total : Nat} (within : count ≤ total) :
    (continuation next history total).take count = continuation next history count := by
  obtain ⟨rest, split⟩ := @continuation_begins _ next history _ _ within
  have length := @continuation_length _ next history count
  calc (continuation next history total).take count
      = (continuation next history count ++ rest).take
          (continuation next history count).length := by rw [split, length]
    _ = continuation next history count := List.take_left

/-- The token at a place was picked from the history and the tokens before it. -/
theorem getElem?_continuation {place total : Nat} (inside : place < total) :
    (continuation next history total)[place]? =
      some (next (history ++ continuation next history place)) := by
  have shorter := @take_continuation _ next history (place + 1) total inside
  have same : (continuation next history total)[place]? =
      ((continuation next history total).take (place + 1))[place]? :=
    (List.getElem?_take_of_lt (Nat.lt_succ_self place)).symm
  rw [same, shorter, continuation,
    List.getElem?_append_right (Nat.le_of_eq (continuation_length place)), continuation_length,
    Nat.sub_self, List.getElem?_cons_zero]

end KairosEngine.Library
