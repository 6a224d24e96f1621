import Mathlib.Data.Set.Basic
import Mathlib.Tactic.Common
import KairosEngine.Library.Loop

/-!
# Replicas that fill in what they lack

Each node holds a partial map.  In an exchange a node takes from another the keys that it
does not hold, and keeps its own values.  The order of the exchanges matters for the values
that meet under a key, not for the keys.
-/

namespace KairosEngine.Library.FillMissing

universe u v w

variable {Node : Type u} {Key : Type v} {Value : Type w} [DecidableEq Node]

/-- The client keeps what it holds and takes the rest from the server. -/
def fill (client server : Key → Option Value) : Key → Option Value :=
  fun key => (client key).or (server key)

/-- An exchange: the client and the server it asks. -/
def exchange (pair : Node × Node) (held : Node → Key → Option Value) : Node → Key → Option Value :=
  Function.update held pair.1 (fill (held pair.1) (held pair.2))

/-- The nodes that what a set of nodes holds gets to. -/
def reached : List (Node × Node) → Set Node → Set Node
  | [], holders => holders
  | pair :: rest, holders =>
      reached rest {node | node ∈ holders ∨ node = pair.1 ∧ pair.2 ∈ holders}

instance reached.decidable : ∀ (pairs : List (Node × Node)) (holders : Set Node)
    [∀ node, Decidable (node ∈ holders)] (node : Node), Decidable (node ∈ reached pairs holders)
  | [], _, known, node => known node
  | pair :: rest, holders, _, node =>
      have (node : Node) : Decidable
          (node ∈ {node | node ∈ holders ∨ node = pair.1 ∧ pair.2 ∈ holders}) :=
        inferInstanceAs (Decidable (node ∈ holders ∨ node = pair.1 ∧ pair.2 ∈ holders))
      reached.decidable rest _ node

variable {held : Node → Key → Option Value} {node : Node} {key : Key} {value : Value}

theorem exchange_apply (pair : Node × Node) (held : Node → Key → Option Value) (node : Node)
    (key : Key) :
    exchange pair held node key =
      if node = pair.1 then (held node key).or (held pair.2 key) else held node key := by
  unfold exchange
  by_cases here : node = pair.1
  · rw [if_pos here, here, Function.update_self, fill]
  · rw [if_neg here, Function.update_of_ne here]

/-- A node keeps its values. -/
theorem exchange_keeps {pair : Node × Node} (known : held node key = some value) :
    exchange pair held node key = some value := by
  rw [exchange_apply]
  split
  · rw [known, Option.some_or]
  · exact known

/-- A value comes from the node itself or from the one it asked. -/
theorem exchange_origin {pair : Node × Node} (known : exchange pair held node key = some value) :
    ∃ origin, held origin key = some value := by
  rw [exchange_apply] at known
  split at known
  · rcases Option.or_eq_some_iff.mp known with own | ⟨_, taken⟩
    · exact ⟨node, own⟩
    · exact ⟨pair.2, taken⟩
  · exact ⟨node, known⟩

theorem exchanges_keeps (pairs : List (Node × Node)) (known : held node key = some value) :
    serveAll exchange pairs held node key = some value := by
  induction pairs generalizing held with
  | nil => exact known
  | cons pair rest inductionHypothesis => exact inductionHypothesis (exchange_keeps known)

theorem exchanges_origin {pairs : List (Node × Node)}
    (known : serveAll exchange pairs held node key = some value) :
    ∃ origin, held origin key = some value := by
  induction pairs generalizing held with
  | nil => exact ⟨node, known⟩
  | cons pair rest inductionHypothesis =>
      obtain ⟨middle, before⟩ := inductionHypothesis known
      exact exchange_origin before

/-- A key gets as far as the exchanges lead. -/
theorem exchanges_reached {pairs : List (Node × Node)} {holders : Set Node}
    (holds : ∀ holder ∈ holders, held holder key ≠ none) (arrives : node ∈ reached pairs holders) :
    serveAll exchange pairs held node key ≠ none := by
  induction pairs generalizing held holders with
  | nil => exact holds node arrives
  | cons pair rest inductionHypothesis =>
      refine inductionHypothesis ?_ arrives
      rintro holder (member | ⟨rfl, server⟩)
      · obtain ⟨value, known⟩ := Option.ne_none_iff_exists'.mp (holds holder member)
        rw [exchange_keeps known]
        exact Option.some_ne_none value
      · rw [exchange_apply, if_pos rfl]
        obtain ⟨value, known⟩ := Option.ne_none_iff_exists'.mp (holds pair.2 server)
        rw [known]
        cases held pair.1 key with
        | none => exact Option.some_ne_none value
        | some own => exact Option.some_ne_none own

/-- When everything gets everywhere, the nodes hold the keys that any of them held. -/
theorem exchanges_keys {pairs : List (Node × Node)}
    (connected : ∀ source target, target ∈ reached pairs {source}) (node : Node) (key : Key) :
    serveAll exchange pairs held node key ≠ none ↔ ∃ origin, held origin key ≠ none := by
  constructor
  · intro known
    obtain ⟨value, present⟩ := Option.ne_none_iff_exists'.mp known
    obtain ⟨origin, before⟩ := exchanges_origin present
    exact ⟨origin, by rw [before]; exact Option.some_ne_none value⟩
  · rintro ⟨origin, known⟩
    apply @exchanges_reached _ _ _ _ _ _ _ _ {origin} ?_ (connected origin node)
    rintro holder rfl
    exact known

end KairosEngine.Library.FillMissing
