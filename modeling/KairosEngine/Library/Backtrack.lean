import Mathlib.Data.List.TakeWhile

/-!
# Backtracking patterns

Patterns over arbitrary symbols with ordered alternatives, greedy repetition and negative
lookahead.  A match is what is left of the text behind it, and a pattern lists its matches in the
order in which a backtracking search tries them; the first one is the match.
-/

namespace KairosEngine.Library

universe u

inductive Pattern (Symbol : Type u)
  | skip
  | one (isIn : Symbol → Bool)
  | seq (first second : Pattern Symbol)
  | alt (preferred other : Pattern Symbol)
  | many (body : Pattern Symbol)
  /-- Nothing is taken, and the body does not match here. -/
  | notAhead (body : Pattern Symbol)

namespace Pattern

variable {Symbol : Type u}

def opt (body : Pattern Symbol) : Pattern Symbol := alt body skip

def plus (body : Pattern Symbol) : Pattern Symbol := seq body (many body)

/-- As often as possible first; an iteration that takes nothing ends the repetition. -/
def iterate (step : List Symbol → List (List Symbol)) : Nat → List Symbol → List (List Symbol)
  | 0, text => [text]
  | fuel + 1, text =>
      ((step text).filter fun rest => decide (rest.length < text.length)).flatMap
        (iterate step fuel) ++ [text]

/-- What is left of the text behind each match, in the order of the search. -/
def rests : Pattern Symbol → List Symbol → List (List Symbol)
  | skip, text => [text]
  | one _, [] => []
  | one isIn, symbol :: rest => if isIn symbol then [rest] else []
  | seq first second, text => (first.rests text).flatMap second.rests
  | alt preferred other, text => preferred.rests text ++ other.rests text
  | many body, text => iterate body.rests text.length text
  | notAhead body, text => if body.rests text = [] then [text] else []

/-- Leftmost-first: the match that the search finds first. -/
def firstRest (pattern : Pattern Symbol) (text : List Symbol) : Option (List Symbol) :=
  (pattern.rests text).head?

/-- Where the match that starts at an index of the text ends. -/
def matchEnd (pattern : Pattern Symbol) (text : List Symbol) (start : Nat) : Option Nat :=
  (pattern.firstRest (text.drop start)).map fun rest => text.length - rest.length

variable {text : List Symbol} {isIn : Symbol → Bool} {first second : Pattern Symbol}

/-! ## The search -/

@[simp]
theorem iterate_succ (step : List Symbol → List (List Symbol)) (fuel : Nat) (text : List Symbol) :
    iterate step (fuel + 1) text =
      ((step text).filter fun rest => decide (rest.length < text.length)).flatMap
        (iterate step fuel) ++ [text] := rfl

@[simp]
theorem rests_skip : skip.rests text = [text] := rfl

@[simp]
theorem rests_one_nil : (one isIn).rests [] = [] := rfl

@[simp]
theorem rests_one_cons (symbol : Symbol) (rest : List Symbol) :
    (one isIn).rests (symbol :: rest) = if isIn symbol then [rest] else [] := rfl

@[simp]
theorem rests_seq : (seq first second).rests text = (first.rests text).flatMap second.rests := rfl

@[simp]
theorem rests_alt : (alt first second).rests text = first.rests text ++ second.rests text := rfl

@[simp]
theorem rests_notAhead :
    (notAhead first).rests text = if first.rests text = [] then [text] else [] := rfl

/-! ## The first match -/

@[simp]
theorem firstRest_skip : firstRest skip text = some text := rfl

@[simp]
theorem firstRest_one_nil : firstRest (one isIn) [] = none := rfl

@[simp]
theorem firstRest_one_cons (symbol : Symbol) (rest : List Symbol) :
    firstRest (one isIn) (symbol :: rest) = if isIn symbol then some rest else none := by
  rw [firstRest, rests_one_cons]
  split <;> rfl

@[simp]
theorem firstRest_alt :
    firstRest (alt first second) text = (first.firstRest text).or (second.firstRest text) :=
  List.head?_append

theorem firstRest_seq :
    firstRest (seq first second) text = (first.rests text).findSome? second.firstRest :=
  List.head?_flatMap

/-- Behind a single symbol the search goes on with the rest. -/
@[simp]
theorem firstRest_seq_one :
    firstRest (seq (one isIn) second) text =
      (firstRest (one isIn) text).bind second.firstRest := by
  rw [firstRest_seq]
  cases text with
  | nil => rfl
  | cons symbol rest =>
      rw [rests_one_cons, firstRest_one_cons]
      split <;> simp

theorem firstRest_seq_opt :
    firstRest (seq (opt first) second) text =
      (firstRest (seq first second) text).or (second.firstRest text) := by
  rw [firstRest_seq, firstRest_seq, opt, rests_alt, List.findSome?_append,
    rests_skip]
  simp

theorem firstRest_notAhead_one :
    firstRest (notAhead (one isIn)) text = if text.head?.any isIn then none else some text := by
  rw [firstRest, rests_notAhead]
  cases text with
  | nil => rfl
  | cons symbol rest =>
      rw [rests_one_cons]
      cases inside : isIn symbol <;> simp [inside]

/-! ## Runs of one class -/

/-- The length of the run of a class at the front. -/
def run (isIn : Symbol → Bool) (text : List Symbol) : Nat := (text.takeWhile isIn).length

theorem run_cons_of_pos {symbol : Symbol} {rest : List Symbol} (inside : isIn symbol = true) :
    run isIn (symbol :: rest) = run isIn rest + 1 := by
  rw [run, List.takeWhile_cons_of_pos inside, List.length_cons, run]

theorem run_cons_of_neg {symbol : Symbol} {rest : List Symbol} (outside : ¬ isIn symbol = true) :
    run isIn (symbol :: rest) = 0 := by
  rw [run, List.takeWhile_cons_of_neg outside, List.length_nil]

theorem run_pos_iff : 0 < run isIn text ↔ text.head?.any isIn = true := by
  cases text with
  | nil => simp [run]
  | cons symbol rest =>
      by_cases inside : isIn symbol = true
      · simp [run_cons_of_pos inside, inside]
      · simp [run_cons_of_neg inside, inside]

theorem iterate_one {fuel : Nat} (enough : text.length ≤ fuel) :
    iterate (rests (one isIn)) fuel text =
      (List.range (run isIn text + 1)).reverse.map fun taken => text.drop taken := by
  induction text generalizing fuel with
  | nil =>
      cases fuel with
      | zero => rfl
      | succ fuel => rfl
  | cons symbol rest inductionHypothesis =>
      cases fuel with
      | zero => cases enough
      | succ fuel =>
          rw [iterate_succ, rests_one_cons]
          by_cases inside : isIn symbol = true
          · have progress : ([rest].filter fun after =>
                decide (after.length < (symbol :: rest).length)) = [rest] := by simp
            rw [if_pos inside, run_cons_of_pos inside, progress, List.flatMap_singleton,
              inductionHypothesis (Nat.le_of_succ_le_succ enough), @List.range_succ_eq_map (_ + 1)]
            simp [Function.comp_def]
          · rw [if_neg inside, run_cons_of_neg inside]
            rfl

theorem rests_many_one :
    rests (many (one isIn)) text =
      (List.range (run isIn text + 1)).reverse.map fun taken => text.drop taken :=
  iterate_one (Nat.le_refl _)

theorem rests_plus_one :
    rests (plus (one isIn)) text =
      (List.range (run isIn text)).reverse.map fun taken => text.drop (taken + 1) := by
  rw [plus, rests_seq]
  cases text with
  | nil => rfl
  | cons symbol rest =>
      rw [rests_one_cons]
      by_cases inside : isIn symbol = true
      · rw [if_pos inside, run_cons_of_pos inside, List.flatMap_singleton, rests_many_one]
        rfl
      · rw [if_neg inside, run_cons_of_neg inside]
        rfl

theorem run_drop {taken : Nat} (within : taken ≤ run isIn text) :
    run isIn (text.drop taken) = run isIn text - taken := by
  induction taken generalizing text with
  | zero => rfl
  | succ taken inductionHypothesis =>
      cases text with
      | nil => cases within
      | cons symbol rest =>
          by_cases inside : isIn symbol = true
          · rw [run_cons_of_pos inside] at within ⊢
            rw [List.drop_succ_cons, inductionHypothesis (Nat.le_of_succ_le_succ within),
              Nat.add_sub_add_right]
          · rw [run_cons_of_neg inside] at within
            cases within

theorem firstRest_many_one :
    firstRest (many (one isIn)) text = some (text.drop (run isIn text)) := by
  rw [firstRest, rests_many_one, List.range_succ, List.reverse_append]
  rfl

theorem firstRest_plus_one :
    firstRest (plus (one isIn)) text =
      if 0 < run isIn text then some (text.drop (run isIn text)) else none := by
  rw [firstRest, rests_plus_one]
  cases run isIn text with
  | zero => rfl
  | succ taken =>
      rw [List.range_succ, List.reverse_append]
      rfl

/-! ## Giving symbols back -/

theorem findSome?_ite {Item : Type} {Found : Type u} (test : Item → Bool) (found : Item → Found)
    (items : List Item) :
    (items.findSome? fun item => if test item then some (found item) else none) =
      (items.find? test).map found := by
  induction items with
  | nil => rfl
  | cons item rest inductionHypothesis =>
      rw [List.findSome?_cons, List.find?_cons]
      cases test item with
      | true => rfl
      | false => exact inductionHypothesis

/-- The last index that passes a test is the first one from behind. -/
theorem find?_reverse_range_eq_some {test : Nat → Bool} {count last : Nat}
    (found : (List.range count).reverse.find? test = some last) :
    last < count ∧ test last = true ∧ ∀ index, last < index → index < count → test index = false := by
  induction count with
  | zero => cases found
  | succ count inductionHypothesis =>
      rw [List.range_succ, List.reverse_append, List.reverse_singleton, List.singleton_append,
        List.find?_cons] at found
      cases here : test count with
      | true =>
          rw [here] at found
          cases found
          exact ⟨Nat.lt_succ_self _, here, fun index above below => by omega⟩
      | false =>
          rw [here] at found
          obtain ⟨below, passes, behind⟩ := inductionHypothesis found
          refine ⟨Nat.lt_succ_of_lt below, passes, fun index above inside => ?_⟩
          rcases Nat.lt_succ_iff_lt_or_eq.mp inside with earlier | rfl
          · exact behind index above earlier
          · exact here

end Pattern

end KairosEngine.Library
