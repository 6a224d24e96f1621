import KairosEngine.Library.UndoRing
import Mathlib.Logic.Function.Basic

/-!
# Two memories and the cells they may differ in

Two copies of a memory agree off a set of marked cells.  A write keeps that when its value is the
same in both copies or its cell gets the mark; a read of unmarked cells does not tell the copies
apart.
-/

namespace KairosEngine.Library

universe u

/-- The copies agree in every cell that carries no mark. -/
def AgreeOff {Cell : Type u} (mark : Nat → Bool) (one other : Nat → Cell) : Prop :=
  ∀ i, mark i = false → one i = other i

namespace AgreeOff

variable {Cell : Type u} {mark : Nat → Bool} {one other : Nat → Cell}

theorem refl (mark : Nat → Bool) (one : Nat → Cell) : AgreeOff mark one one :=
  fun _ _ => rfl

/-- A copy that was written in one cell agrees with the old one off that cell. -/
theorem of_write (i : Nat) (value : Cell) :
    AgreeOff (Function.update (fun _ => false) i true) one (Function.update one i value) := by
  intro j unmarked
  by_cases written : j = i
  · subst written
    rw [Function.update_self] at unmarked
    cases unmarked
  · rw [Function.update_of_ne written]

theorem update (agree : AgreeOff mark one other) {i : Nat} {flag : Bool} {left right : Cell}
    (same : flag = false → left = right) :
    AgreeOff (Function.update mark i flag) (Function.update one i left)
      (Function.update other i right) := by
  intro j unmarked
  by_cases written : j = i
  · subst written
    rw [Function.update_self] at unmarked
    rw [Function.update_self, Function.update_self]
    exact same unmarked
  · rw [Function.update_of_ne written] at unmarked
    rw [Function.update_of_ne written, Function.update_of_ne written]
    exact agree j unmarked

/-- Consecutive stores into a ring clear the marks of the slots they reach. -/
theorem storeFrom {width : Nat} (agree : AgreeOff mark one other) (start : Nat)
    (rows : List Cell) :
    AgreeOff (UndoRing.storeFrom width mark start (rows.map fun _ => false))
      (UndoRing.storeFrom width one start rows) (UndoRing.storeFrom width other start rows) := by
  induction rows generalizing mark one other start with
  | nil => exact agree
  | cons row rest inductionHypothesis =>
      exact inductionHypothesis (agree.update fun _ => rfl) (start + 1)

theorem map_eq (agree : AgreeOff mark one other) {cells : List Nat}
    (unmarked : ∀ i ∈ cells, mark i = false) : cells.map one = cells.map other :=
  List.map_congr_left fun i member => agree i (unmarked i member)

end AgreeOff

end KairosEngine.Library
