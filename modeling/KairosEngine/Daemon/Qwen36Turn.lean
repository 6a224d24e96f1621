import KairosEngine.Daemon.GreedyPickers
import KairosEngine.Library.Continuation

/-!
# A greedy turn of the qwen36 lane

`Qwen36Lane::run_turn` steps the prompt and then the tokens it picks, on a state of its own.  The
guard adds two lengths as `i32`; without overflow checks the sum wraps.
-/

namespace KairosEngine.Daemon

open KairosEngine.Library

/-- The model: the row after these tokens have been stepped, or the code of the last step. -/
structure Qwen36 where
  row : List Int → Except Int (List Ieee)

inductive TurnError where
  | emptyPrompt
  | exceeds (prompt maxNew : Nat) (pmax : Int)
  | stateNew
  | prefill (rc : Int)
  | decode (rc : Int)
  deriving DecidableEq

def TurnError.text : TurnError → String
  | emptyPrompt => "empty prompt"
  | exceeds prompt maxNew pmax =>
      s!"prompt {prompt} + max_tokens {maxNew} exceeds SP_Q36_PMAX {pmax}"
  | stateNew => "qwen36_state_new failed"
  | prefill rc => s!"qwen36_step rc={rc} during prefill"
  | decode rc => s!"qwen36_step rc={rc} during decode"

/-- The result of a turn and the number of its `qwen36_step` calls. -/
structure LaneEnd where
  result : Except TurnError (List Int)
  steps : Nat

/-- `as i32`. -/
def asI32 (value : Int) : Int := Int.bmod value (2 ^ 32)

/-- The check before the turn. -/
def exceedsPmax (prompt maxNew : Nat) (pmax : Int) : Bool :=
  decide (asI32 (asI32 prompt + asI32 maxNew) ≥ pmax)

section Turn

variable (model : Qwen36) (eos : List Int)
  -- the answer of the callback to the last of the ids it was called with
  (onTok : List Int → Bool)

/-- The loop over the prompt: what was stepped, what is left, and the current row. -/
def prefillTurn (fed : List Int) : List Int → List Ieee → Except (Int × Nat) (List Ieee)
  | [], logits => .ok logits
  | t :: rest, _ =>
      match model.row (fed ++ [t]) with
      | .error rc => .error (rc, fed.length + 1)
      | .ok logits => prefillTurn (fed ++ [t]) rest logits

/-- The loop of the decode phase: what was stepped, what was picked, and the current row. -/
def decodeTurn (maxNew : Nat) (fed out : List Int) (logits : List Ieee) : LaneEnd :=
  let next := strictScan logits
  if next ∈ eos then ⟨.ok out, fed.length⟩
  else if onTok (out ++ [next]) = false then ⟨.ok (out ++ [next]), fed.length⟩
  else if out.length + 1 ≥ maxNew then ⟨.ok (out ++ [next]), fed.length⟩
  else
    match model.row (fed ++ [next]) with
    | .error rc => ⟨.error (.decode rc), fed.length + 1⟩
    | .ok logits => decodeTurn maxNew (fed ++ [next]) (out ++ [next]) logits
termination_by maxNew - out.length
decreasing_by
  rw [List.length_append, List.length_singleton]
  omega

/-- `Qwen36Lane::run_turn`; `opened` is whether `qwen36_state_new` gave a state. -/
def runTurn (pmax : Int) (opened : Bool) (prompt : List Int) (maxNew : Nat) : LaneEnd :=
  if prompt = [] then ⟨.error .emptyPrompt, 0⟩
  else if exceedsPmax prompt.length maxNew pmax then
    ⟨.error (.exceeds prompt.length maxNew pmax), 0⟩
  else if opened = false then ⟨.error .stateNew, 0⟩
  else
    match prefillTurn model [] prompt [] with
    | .error (rc, steps) => ⟨.error (.prefill rc), steps⟩
    | .ok logits => decodeTurn model eos onTok maxNew prompt [] logits

/-! ## What a turn should return -/

/-- The greedy choice after these tokens. -/
def greedyNext (tokens : List Int) : Int :=
  match model.row tokens with
  | .ok logits => strictScan logits
  | .error _ => 0

/-- The ids up to the first end of sequence or the first that the callback refuses; `said` are the
ids before them. -/
def cutTurn (said : List Int) : List Int → List Int
  | [] => []
  | next :: rest =>
      if next ∈ eos then []
      else if onTok (said ++ [next]) = false then [next]
      else next :: cutTurn (said ++ [next]) rest

/-- The turn stays inside the context and returns the greedy continuation, cut. -/
def StaysInside (pmax : Int) (prompt : List Int) (maxNew : Nat) (turn : LaneEnd) : Prop :=
  (turn.steps : Int) ≤ pmax ∧
    ∀ ids, turn.result = .ok ids → ids.length ≤ maxNew ∧
      ids = cutTurn eos onTok [] (continuation (greedyNext model) prompt maxNew)

end Turn

variable {model : Qwen36} {eos : List Int} {onTok : List Int → Bool}

theorem length_cutTurn_le (said ids : List Int) : (cutTurn eos onTok said ids).length ≤ ids.length := by
  induction ids generalizing said with
  | nil => exact Nat.le_refl 0
  | cons next rest inductionHypothesis =>
      rw [cutTurn]
      split
      next => exact Nat.zero_le _
      next =>
        split
        next => exact Nat.succ_le_succ (Nat.zero_le _)
        next => exact Nat.succ_le_succ (inductionHypothesis _)

theorem prefillTurn_cases (fed todo : List Int) (logits : List Ieee) :
    (∃ rc steps, prefillTurn model fed todo logits = .error (rc, steps) ∧
        steps ≤ fed.length + todo.length) ∨
      ∃ last, prefillTurn model fed todo logits = .ok last ∧
        (todo = [] ∧ last = logits ∨ model.row (fed ++ todo) = .ok last) := by
  induction todo generalizing fed logits with
  | nil => exact Or.inr ⟨logits, rfl, Or.inl ⟨rfl, rfl⟩⟩
  | cons t rest inductionHypothesis =>
      rw [prefillTurn]
      cases stepped : model.row (fed ++ [t]) with
      | error rc =>
          left
          refine ⟨rc, fed.length + 1, rfl, ?_⟩
          rw [List.length_cons]
          omega
      | ok after =>
          have shift : fed ++ [t] ++ rest = fed ++ t :: rest := List.append_assoc fed [t] rest
          have length : (fed ++ [t]).length = fed.length + 1 := by
            rw [List.length_append, List.length_singleton]
          rcases inductionHypothesis (fed ++ [t]) after with
            ⟨rc, steps, run, few⟩ | ⟨last, run, ended⟩
          · left
            refine ⟨rc, steps, run, ?_⟩
            rw [List.length_cons]
            omega
          · right
            refine ⟨last, run, Or.inr ?_⟩
            rw [← shift]
            rcases ended with ⟨rfl, rfl⟩ | reached
            · rw [List.append_nil]
              exact stepped
            · exact reached

/-- While there is room, the loop returns the cut continuation, a step for every id but the last. -/
theorem decodeTurn_room {maxNew : Nat} {fed out : List Int} {logits : List Ieee}
    (reached : model.row fed = .ok logits) (room : out.length < maxNew) :
    (decodeTurn model eos onTok maxNew fed out logits).steps + out.length + 1 ≤
        fed.length + maxNew ∧
      ∀ ids, (decodeTurn model eos onTok maxNew fed out logits).result = .ok ids →
        ids = out ++ cutTurn eos onTok out
          (continuation (greedyNext model) fed (maxNew - out.length)) := by
  obtain ⟨left, more⟩ : ∃ left, maxNew = out.length + 1 + left := ⟨maxNew - out.length - 1, by omega⟩
  have picked : greedyNext model fed = strictScan logits := by rw [greedyNext, reached]
  have count : maxNew - out.length = left + 1 := by omega
  rw [decodeTurn, count, continuation_succ, cutTurn, picked]
  generalize strictScan logits = next at *
  by_cases ended : next ∈ eos
  · rw [if_pos ended, if_pos ended, List.append_nil]
    refine ⟨by dsimp only; omega, ?_⟩
    rintro ids ⟨⟩
    rfl
  · rw [if_neg ended, if_neg ended]
    by_cases refused : onTok (out ++ [next]) = false
    · rw [if_pos refused, if_pos refused]
      refine ⟨by dsimp only; omega, ?_⟩
      rintro ids ⟨⟩
      rfl
    · rw [if_neg refused, if_neg refused]
      by_cases full : out.length + 1 ≥ maxNew
      · have last : left = 0 := by omega
        subst last
        rw [if_pos full]
        refine ⟨by dsimp only; omega, ?_⟩
        rintro ids ⟨⟩
        rfl
      · rw [if_neg full]
        have length : (out ++ [next]).length = out.length + 1 := by
          rw [List.length_append, List.length_singleton]
        have fedLength : (fed ++ [next]).length = fed.length + 1 := by
          rw [List.length_append, List.length_singleton]
        cases stepped : model.row (fed ++ [next]) with
        | error rc =>
            refine ⟨by dsimp only; omega, ?_⟩
            rintro ids ⟨⟩
        | ok after =>
            obtain ⟨few, result⟩ := decodeTurn_room stepped (by omega : (out ++ [next]).length < maxNew)
            refine ⟨by dsimp only; omega, ?_⟩
            intro ids returned
            rw [result ids returned, List.append_assoc, List.singleton_append, length,
              show maxNew - (out.length + 1) = left by omega]
termination_by maxNew - out.length
decreasing_by omega

/-! ## A model that never ends -/

/-- One logit, whatever was stepped. -/
def endless : Qwen36 := ⟨fun _ => .ok [.finite 0]⟩

theorem strictScan_endless : strictScan [.finite 0] = 0 := by
  decide +kernel

theorem prefillTurn_endless (fed todo : List Int) (logits : List Ieee) :
    prefillTurn endless fed todo logits = .ok (if todo = [] then logits else [.finite 0]) := by
  induction todo generalizing fed logits with
  | nil => rfl
  | cons t rest inductionHypothesis =>
      rw [prefillTurn, endless]
      refine (inductionHypothesis (fed ++ [t]) [.finite 0]).trans ?_
      rw [ite_self, if_neg (List.cons_ne_nil t rest)]

/-- It picks its one id to the limit, and once where the limit is zero. -/
theorem decodeTurn_endless (maxNew : Nat) (fed out : List Int) :
    decodeTurn endless [] (fun _ => true) maxNew fed out [.finite 0] =
      ⟨.ok (out ++ List.replicate (max 1 (maxNew - out.length)) 0),
        fed.length + (maxNew - out.length - 1)⟩ := by
  rw [decodeTurn, strictScan_endless]
  by_cases full : out.length + 1 ≥ maxNew
  · have once : max 1 (maxNew - out.length) = 1 := by omega
    have none : maxNew - out.length - 1 = 0 := by omega
    simp [full, once, none]
  · have length : (out ++ [(0 : Int)]).length = out.length + 1 := by
      rw [List.length_append, List.length_singleton]
    have again := decodeTurn_endless maxNew (fed ++ [0]) (out ++ [0])
    have more : max 1 (maxNew - out.length) = max 1 (maxNew - (out.length + 1)) + 1 := by omega
    have steps : (fed ++ [(0 : Int)]).length + (maxNew - (out.length + 1) - 1) =
        fed.length + (maxNew - out.length - 1) := by
      rw [List.length_append, List.length_singleton]
      omega
    rw [length, steps] at again
    rw [if_neg List.not_mem_nil, if_neg Bool.noConfusion, if_neg full]
    refine Eq.trans again ?_
    rw [more, List.replicate_succ, List.append_assoc, List.singleton_append]
termination_by maxNew - out.length
decreasing_by
  rw [List.length_append, List.length_singleton]
  omega

theorem runTurn_endless {pmax : Int} {prompt : List Int} {maxNew : Nat} (nonempty : prompt ≠ [])
    (admitted : exceedsPmax prompt.length maxNew pmax = false) :
    runTurn endless [] (fun _ => true) pmax true prompt maxNew =
      ⟨.ok (List.replicate (max 1 maxNew) 0), prompt.length + (maxNew - 1)⟩ := by
  rw [runTurn, if_neg nonempty, admitted, if_neg Bool.false_ne_true, if_neg Bool.noConfusion,
    prefillTurn_endless, if_neg nonempty]
  exact decodeTurn_endless maxNew prompt []

/-! ## The bound -/

/-- What the sizes of a request must be for every model to stay inside. -/
def SizesFit (pmax : Int) (prompt : List Int) (maxNew : Nat) : Prop :=
  prompt = [] ∨ exceedsPmax prompt.length maxNew pmax = true ∨
    1 ≤ maxNew ∧ (prompt.length : Int) + maxNew ≤ pmax + 1

/-- A turn that fails within the context has no ids to check. -/
theorem staysInside_of_error {pmax : Int} {prompt : List Int} {maxNew steps : Nat}
    {failure : TurnError} (few : (steps : Int) ≤ pmax) :
    StaysInside model eos onTok pmax prompt maxNew ⟨.error failure, steps⟩ := by
  refine ⟨few, ?_⟩
  rintro ids ⟨⟩

/-- The decode phase of an admitted request. -/
theorem decodeTurn_staysInside {pmax : Int} {prompt : List Int} {maxNew : Nat} {last : List Ieee}
    (reached : model.row prompt = .ok last) (room : 1 ≤ maxNew)
    (bound : (prompt.length : Int) + maxNew ≤ pmax + 1) :
    StaysInside model eos onTok pmax prompt maxNew
      (decodeTurn model eos onTok maxNew prompt [] last) := by
  obtain ⟨few, result⟩ := @decodeTurn_room model eos onTok maxNew prompt [] last reached room
  rw [List.length_nil] at few
  constructor
  · omega
  · intro ids returned
    have cut := result ids returned
    rw [List.nil_append, List.length_nil, Nat.sub_zero] at cut
    refine ⟨?_, cut⟩
    rw [cut]
    exact (length_cutTurn_le _ _).trans (Nat.le_of_eq (continuation_length maxNew))

theorem runTurn_staysInside {pmax : Int} (positive : 1 ≤ pmax) {prompt : List Int} {maxNew : Nat}
    (fit : SizesFit pmax prompt maxNew) (opened : Bool) :
    StaysInside model eos onTok pmax prompt maxNew
      (runTurn model eos onTok pmax opened prompt maxNew) := by
  have nonnegative : ((0 : Nat) : Int) ≤ pmax := by omega
  unfold runTurn
  by_cases empty : prompt = []
  · rw [if_pos empty]
    exact staysInside_of_error nonnegative
  · rw [if_neg empty]
    by_cases refused : exceedsPmax prompt.length maxNew pmax = true
    · rw [if_pos refused]
      exact staysInside_of_error nonnegative
    · obtain ⟨some, bound⟩ := (fit.resolve_left empty).resolve_left refused
      rw [if_neg refused]
      by_cases closed : opened = false
      · rw [if_pos closed]
        exact staysInside_of_error nonnegative
      · rw [if_neg closed]
        rcases @prefillTurn_cases model [] prompt [] with
          ⟨rc, steps, run, few⟩ | ⟨last, run, ended⟩
        · rw [run]
          rw [List.length_nil] at few
          exact staysInside_of_error (by omega)
        · rw [run]
          rcases ended with ⟨none, _⟩ | reached
          · exact absurd none empty
          · exact decodeTurn_staysInside reached some bound

/-- A request stays inside its context whatever the model, the end ids and the callback do exactly
when its sizes fit. -/
theorem runTurn_staysInside_iff (pmax : Int) (positive : 1 ≤ pmax) (prompt : List Int) (maxNew : Nat) :
    (∀ (model : Qwen36) (eos : List Int) (onTok : List Int → Bool) (opened : Bool),
        StaysInside model eos onTok pmax prompt maxNew
          (runTurn model eos onTok pmax opened prompt maxNew)) ↔
      SizesFit pmax prompt maxNew := by
  constructor
  · intro all
    by_cases empty : prompt = []
    · exact Or.inl empty
    · right
      by_cases refused : exceedsPmax prompt.length maxNew pmax = true
      · exact Or.inl refused
      · right
        obtain ⟨few, returned⟩ := all endless [] (fun _ => true) true
        rw [runTurn_endless empty (Bool.eq_false_iff.mpr refused)] at few returned
        have within := (returned _ rfl).1
        rw [List.length_replicate] at within
        dsimp only at few
        omega
  · intro fit model eos onTok opened
    exact runTurn_staysInside positive fit opened

theorem runTurn_staysInside_iff_hundred :
    StaysInside endless [7] (fun _ => true) 4096 [5] 100
      (runTurn endless [7] (fun _ => true) 4096 true [5] 100) :=
  (runTurn_staysInside_iff 4096 (by decide) [5] 100).mpr
    (Or.inr (Or.inr ⟨by decide, by decide⟩)) endless [7] (fun _ => true) true

/-- A limit of zero gives one id, and one of 2^32 - 1 passes the guard as -1. -/
theorem runTurn_leaves :
    ¬ StaysInside endless [] (fun _ => true) 4096 [5] 0
        (runTurn endless [] (fun _ => true) 4096 true [5] 0) ∧
      ¬ StaysInside endless [] (fun _ => true) 4096 [5] (2 ^ 32 - 1)
        (runTurn endless [] (fun _ => true) 4096 true [5] (2 ^ 32 - 1)) := by
  constructor
  · rintro ⟨_, returned⟩
    rw [runTurn_endless (by decide) (by decide)] at returned
    exact absurd (returned _ rfl).1 (by decide)
  · rintro ⟨few, _⟩
    rw [runTurn_endless (by decide) (by decide)] at few
    exact absurd few (by decide)

end KairosEngine.Daemon
